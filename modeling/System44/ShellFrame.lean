import System44.PrintfBuffer
import System44.ShellSession

/-!
# What the shell overwrites

Whatever the directory and the disk hold and whatever is typed, a round of the shell that is no
`touch` and no `exec` stores in the line and in 16 blocks from the buffer of `cat` on. A file that
`cat` reads has no more sectors than the buffer has room for, but with the gaps between them the
last ones of a file of more than 4096 bytes lie behind it.
-/

namespace System44

section

variable {m : Mem} {sb name : ℕ}

theorem kfsFind_byEntry {i : ℕ} (h : kfsFind m sb name = some (some i)) :
    kfsFind m sb (kfsFile sb i) = some (some i) := by
  obtain ⟨len, hlen, hstring⟩ := stringAt_of_kfsFindFrom h
  obtain ⟨hi, hsame, hfirst⟩ := (kfsFind_some hstring hlen).mp h
  refine (kfsFind_some (hstring.congr hsame) hlen).mpr ⟨hi, fun _ _ => rfl, fun j hj hj' => ?_⟩
  exact hfirst j hj fun t ht => (hj' t ht).trans (hsame t ht)

end

/-- The sectors of a file that `cat` reads. -/
def catSectors : ℕ := maxCatSize / 512

theorem kfsSectors_le_of_maxCatSize {size : BitVec 32} (h : size.toNat ≤ maxCatSize) :
    (kfsSectors size).toNat ≤ catSectors := by
  rw [toNat_kfsSectors]
  unfold catSectors maxCatSize at *
  omega

/-- `cat` writes to its 16 blocks only, whatever the directory and the disk say. -/
theorem shCat_frame {P : ShellPlace} {M M' : Machine} {text : List Byte}
    (h : shCat P M = some (text, M')) :
    (∀ a, ¬ InBlock catSectors (Mem.offset P.catBuffer a) → M'.mem.get a = M.mem.get a) ∧
      M'.disk.sector = M.disk.sector ∧ M'.pmm = M.pmm := by
  obtain ⟨found, hfind, h⟩ := Option.bind_eq_some_iff.mp h
  cases found with
  | none =>
      obtain ⟨name, -, h⟩ := Option.bind_eq_some_iff.mp h
      obtain ⟨-, rfl⟩ := Prod.mk.inj (Option.some_inj.mp h)
      exact ⟨fun _ _ => rfl, rfl, rfl⟩
  | some i =>
      dsimp only at h
      split at h
      · obtain ⟨-, rfl⟩ := Prod.mk.inj (Option.some_inj.mp h)
        exact ⟨fun _ _ => rfl, rfl, rfl⟩
      · rename_i hsize
        obtain ⟨⟨r, M₁⟩, hread, h⟩ := Option.bind_eq_some_iff.mp h
        have hM' : M₁ = M' := by
          dsimp only at h
          split at h
          · exact (Prod.mk.inj (Option.some_inj.mp h)).2
          · exact (Prod.mk.inj (Option.some_inj.mp h)).2
        subst hM'
        rw [kfsRead, kfsFind_byEntry hfind, Option.bind_eq_bind, Option.bind_some] at hread
        obtain ⟨⟨r', disk, mem⟩, htransfer, hread⟩ := Option.bind_eq_some_iff.mp hread
        obtain ⟨-, rfl⟩ := Prod.mk.inj (Option.some_inj.mp hread)
        obtain ⟨-, hunw, hmem⟩ := ataReadSectors_some htransfer
        refine ⟨fun a ha => ?_, hunw.sector, rfl⟩
        have hroom := kfsSectors_le_of_maxCatSize (not_lt.mp hsize)
        have hpassed : M.disk.passed (kfsSectors (fileSize M.mem P.superblock i)).toNat ≤
            (kfsSectors (fileSize M.mem P.superblock i)).toNat :=
          (streak_le ..).trans (Nat.mod_le _ _)
        have hle := hpassed.trans hroom
        have hreach : blockReach catSectors ≤ 2 ^ 32 := by decide
        change mem.get a = _
        rw [hmem]
        exact Mem.get_blitBlocks_of_not _ _ ((blockReach_mono hle).trans hreach)
          fun hin => ha (hin.mono hle)

/-- The last sector of a file of more than 4096 bytes is stored behind the buffer. -/
theorem shCat_overruns {P : ShellPlace} {M : Machine} {c : Files} {arg : List Byte} {f : StoredFile}
    (h : Represents P.superblock M c) (harg : Spells M.mem (P.chars + 4) arg)
    (hlookup : c.lookup StoredFile.name arg = some f) (hlarge : 4096 < f.data.length)
    (hsize : f.data.length ≤ maxCatSize) :
    ∃ text M', shCat P M = some (text, M') ∧
      maxCatSize ≤ spread (f.data.length - 1) ∧
      M'.mem.get (P.catBuffer + spread (f.data.length - 1)) =
        f.data.getD (f.data.length - 1) 0#8 := by
  obtain ⟨i, hi, rfl, hfind⟩ := h.kfsFind_some harg hlookup
  have hentry : Spells M.mem (kfsFile P.superblock i) arg :=
    Catalog.key_of_lookup hlookup ▸ (h.entry i hi).name
  obtain ⟨M', n, hread, -, -, hbytes, -⟩ := h.kfsRead_some hentry hlookup P.catBuffer
  have hfits : ceilSectors c.items[i].data.length ≤ 255 := by
    unfold maxCatSize at hsize
    unfold ceilSectors
    omega
  have hlast : c.items[i].data.length - 1 < c.items[i].data.length := by omega
  have hbehind : maxCatSize ≤ spread (c.items[i].data.length - 1) := by
    unfold maxCatSize spread
    omega
  have hbyte := hbytes _ hlast (hlast.trans_le (c.items[i].length_le_moved hfits))
  have hnot : ¬ maxCatSize < (fileSize M.mem P.superblock i).toNat := by
    rw [(h.entry i hi).size, StoredFile.toNat_size]
    exact not_lt.mpr hsize
  rw [shCat, hfind, Option.bind_eq_bind, Option.bind_some]
  dsimp only
  rw [if_neg hnot, hread, Option.bind_eq_bind, Option.bind_some]
  dsimp only
  by_cases hneg : c.items[i].answer < 0
  · rw [if_pos hneg]
    exact ⟨_, M', rfl, hbehind, hbyte⟩
  · rw [if_neg hneg]
    exact ⟨_, M', rfl, hbehind, hbyte⟩

theorem nul_of_editLine {chars : ℕ} {keys : List Byte} {m m' : Mem} {i : ℕ} (hi : i ≤ 127)
    (h : editLine chars keys m i = some m') : ∃ k ≤ 127, m'.get (chars + k) = 0#8 := by
  induction keys generalizing m i with
  | nil => cases h
  | cons c keys ih =>
      rw [editLine] at h
      split at h
      · exact ih (by split <;> omega) h
      · split at h
        · rw [← Option.some_inj.mp h]
          exact ⟨i, hi, Mem.get_set_self ..⟩
        · dsimp only at h
          split at h
          · rw [← Option.some_inj.mp h]
            exact ⟨i, hi, Mem.get_set_self ..⟩
          · exact ih (by omega) h

theorem spells_of_editLine {chars : ℕ} {keys : List Byte} {m m' : Mem} {i : ℕ} (hi : i ≤ 127)
    (h : editLine chars keys m i = some m') :
    ∃ bs : List Byte, bs.length ≤ 127 ∧ Spells m' chars bs := by
  obtain ⟨k, hk, hnul⟩ := nul_of_editLine hi h
  obtain ⟨bs, hbs⟩ := exists_spells hnul
  refine ⟨bs, ?_, hbs⟩
  by_contra hlong
  have hlt : k < bs.length := by omega
  have hbyte := hbs.get_eq hlt.le
  rw [List.getD_eq_getElem _ _ hlt] at hbyte
  exact hbs.ne_zero _ (List.getElem_mem hlt) (hbyte.symm.trans hnul)

theorem dispatch_frame {chars a : ℕ} (ha : 128 ≤ Mem.offset chars a) {m m' : Mem} {bs : List Byte}
    {branch : Branch} (hlen : bs.length ≤ 127) (h : Spells m chars bs)
    (hd : dispatch chars builtins m none = some (branch, m')) : m'.get a = m.get a := by
  obtain ⟨m₁, hd₁, hkeep⟩ := dispatch_of_spells builtins h
    (fun hnil => absurd hnil (by decide)) none
  obtain ⟨-, rfl⟩ := Prod.mk.inj (Option.some_inj.mp (hd₁.symm.trans hd))
  have htoken := firstToken_length_le [0x20#8] bs
  have hspace : addressSpace = 2 ^ 32 := rfl
  have hoffset := Mem.offset_lt chars a
  rw [← m₁.get_congr (Mem.mod_add_offset chars a), ← m.get_congr (Mem.mod_add_offset chars a)]
  exact hkeep _ (by omega) (by omega)

/-- The line is no `touch` and no `exec`. -/
def Harmless (font : Font) (P : ShellPlace) (s : Shell) (keys : List Byte) : Prop :=
  ∀ e branch m, shReadLine font P.chars keys
      (shPrompt P.chars s.machine.mem (ttyPuts font s.tty [0x3E#8, 0x20#8])) = some e →
    dispatch P.chars builtins e.mem none = some (branch, m) →
      branch ≠ .builtin .touch ∧ branch ≠ .builtin .exec

theorem shBranch_frame {prog : Program} {P : ShellPlace} {M M' : Machine} {branch : Branch}
    {text : List Shown} (htouch : branch ≠ .builtin .touch) (hexec : branch ≠ .builtin .exec)
    (h : shBranch prog P M branch = some (text, M')) :
    (∀ a, ¬ InBlock catSectors (Mem.offset P.catBuffer a) → M'.mem.get a = M.mem.get a) ∧
      M'.disk.sector = M.disk.sector ∧ M'.pmm = M.pmm := by
  have hsame {x : List Shown} (hx : some (x, M) = some (text, M')) :
      (∀ a, ¬ InBlock catSectors (Mem.offset P.catBuffer a) → M'.mem.get a = M.mem.get a) ∧
        M'.disk.sector = M.disk.sector ∧ M'.pmm = M.pmm := by
    obtain ⟨-, rfl⟩ := Prod.mk.inj (Option.some_inj.mp hx)
    exact ⟨fun _ _ => rfl, rfl, rfl⟩
  cases branch with
  | nothing => exact hsame h
  | notFound =>
      obtain ⟨name, -, h⟩ := Option.bind_eq_some_iff.mp h
      exact hsame h
  | builtin b =>
      cases b with
      | version => exact hsame h
      | clear => exact hsame h
      | help => exact hsame h
      | touch => exact absurd rfl htouch
      | exec => exact absurd rfl hexec
      | reboot => cases h
      | shutdown => cases h
      | ls =>
          obtain ⟨names, -, h⟩ := Option.bind_eq_some_iff.mp h
          exact hsame h
      | cat =>
          obtain ⟨⟨shownText, M₁⟩, hcat, h⟩ := Option.bind_eq_some_iff.mp h
          obtain ⟨-, rfl⟩ := Prod.mk.inj (Option.some_inj.mp h)
          exact shCat_frame hcat

/-- Whatever is in memory and on the disk, and whatever is typed. -/
theorem shRound_frame {font : Font} {prog : Program} {P : ShellPlace} {s s' : Shell}
    {keys : List Byte} (hkeys : Harmless font P s keys)
    (h : shRound font prog P s keys = some s') :
    (∀ a, 128 ≤ Mem.offset P.chars a → ¬ InBlock catSectors (Mem.offset P.catBuffer a) →
      s'.machine.mem.get a = s.machine.mem.get a) ∧
      s'.machine.disk.sector = s.machine.disk.sector ∧ s'.machine.pmm = s.machine.pmm := by
  obtain ⟨e, hread, h⟩ := Option.bind_eq_some_iff.mp h
  obtain ⟨⟨branch, m⟩, hd, h⟩ := Option.bind_eq_some_iff.mp h
  obtain ⟨⟨text, M⟩, hbranch, h⟩ := Option.bind_eq_some_iff.mp h
  obtain rfl := Option.some_inj.mp h
  obtain ⟨htouch, hexec⟩ := hkeys e branch m hread hd
  have hedit := editLine_eq font P.chars keys
    (shPrompt P.chars s.machine.mem (ttyPuts font s.tty [0x3E#8, 0x20#8]))
  rw [hread, Option.map_some] at hedit
  obtain ⟨bs, hlen, hbs⟩ := spells_of_editLine (Nat.zero_le _) hedit
  obtain ⟨hmem, hsector, hpmm⟩ := shBranch_frame htouch hexec hbranch
  refine ⟨fun a hline hbuffer => ?_, hsector, hpmm⟩
  rw [hmem a hbuffer]
  change m.get a = _
  rw [dispatch_frame hline hlen hbs hd, editLine_frame hline (Nat.zero_le _) hedit]
  exact Mem.get_blit_of_le _ _ (by decide) hline

theorem catB_typed : Typed ⟨[], []⟩ (asciiBytes "cat b".toList) :=
  typed_of_inits (by decide) (by decide +kernel)

theorem catB_command : commandOf (asciiBytes "cat b".toList) = .builtin .cat := by decide +kernel

theorem catB_harmless (font : Font) :
    Harmless font demoPlace demoShell (asciiBytes "cat b".toList ++ [10#8]) := by
  intro e branch m hread hd
  obtain ⟨e', m', hread', -, hd', -⟩ := lineRead_of_typed font demoPlace.chars
    demoShell.machine.mem (ttyPuts font demoShell.tty [0x3E#8, 0x20#8]) catB_typed
  obtain rfl := Option.some_inj.mp (hread.symm.trans hread')
  obtain ⟨rfl, -⟩ := Prod.mk.inj (Option.some_inj.mp (hd.symm.trans hd'))
  rw [catB_command]
  decide

theorem catB_keeps : ∃ s', shRound blockFont (fun _ _ _ => none) demoPlace demoShell
    (asciiBytes "cat b".toList ++ [10#8]) = some s' ∧
      s'.machine.mem.get demoName = demoShell.machine.mem.get demoName := by
  have hallowed : Files.Allows Catalog.empty (argOf (asciiBytes "cat b".toList))
      (commandOf (asciiBytes "cat b".toList)) := by
    rw [catB_command]
    apply Files.catFits_of_items
    exact fun f hf => absurd hf List.not_mem_nil
  obtain ⟨s', hround, -⟩ := shRound_refines (s := demoShell) blockFont (fun _ _ _ => none)
    demoPlace_apart demoShell_at catB_typed hallowed
  exact ⟨s', hround, (shRound_frame (catB_harmless blockFont) hround).1 demoName (by decide)
    (by decide)⟩

end System44
