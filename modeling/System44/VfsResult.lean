import System44.Vfs

/-!
# What a read reports

The value that `kfs_read` returns is that of the disk driver, a number of sectors or a negative
error, and `ERR_NOT_FOUND` is neither: it is what a read of one sector returns. A read of several
sectors counts them all and leaves gaps between them in the buffer. `vfs_l_read` passes the value
on, and does not look at the length that it is given.
-/

namespace System44

def FileRead (M M' : Machine) (sb name buf : ℕ) : Prop :=
  ∃ i, kfsFind M.mem sb name = some (some i) ∧ ∀ t < (fileSize M.mem sb i).toNat,
    M'.mem.get (buf + t) = M.disk.byteAt (startLba M.mem sb i).toNat t

/-- Whatever the disk does, the result is negative unless the file has been read. -/
def TellsFailure (read : Machine → Option (ℤ × Machine)) (m : Mem) (sb name buf : ℕ) : Prop :=
  ∀ (M M' : Machine) (r : ℤ), M.mem = m → read M = some (r, M') → ¬ FileRead M M' sb name buf →
    r < 0

/-- The file fits into one sector, or the driver refuses to read it as the eight bits of its count
are 0. -/
def ReadFits (size : BitVec 32) : Prop :=
  size.toNat ≤ 512 ∨ (kfsSectors size).toNat % 2 ^ 8 = 0

instance (size : BitVec 32) : Decidable (ReadFits size) := inferInstanceAs (Decidable (_ ∨ _))

theorem exists_byte_ne (b : Byte) : ∃ v, v ≠ b := by
  refine ⟨b + 1#8, ?_⟩
  revert b
  decide

def uniformDisk (v : Byte) : Drive := { steadyDisk with sector := fun _ _ => v }

theorem uniformDisk_errorFree (v : Byte) : (uniformDisk v).ErrorFree := fun _ => rfl

theorem kfsRead_found {M M' : Machine} {sb name buf i : ℕ} {r : ℤ}
    (hfind : kfsFind M.mem sb name = some (some i)) (h : kfsRead M sb name buf = some (r, M')) :
    r = M.disk.answer (kfsSectors (fileSize M.mem sb i)).toNat ∧
      M'.mem = M.mem.blitBlocks buf (M.disk.passed (kfsSectors (fileSize M.mem sb i)).toNat)
        (M.disk.byteAt (startLba M.mem sb i).toNat) := by
  rw [kfsRead, hfind, Option.bind_eq_bind, Option.bind_some] at h
  obtain ⟨⟨r', disk, mem⟩, hread, h⟩ := Option.bind_eq_some_iff.mp h
  obtain ⟨hr, -, hmem⟩ := ataReadSectors_some hread
  obtain ⟨rfl, rfl⟩ := Prod.mk.inj (Option.some_inj.mp h)
  exact ⟨hr, hmem⟩

theorem Drive.answer_neg_or {d : Drive} (count : ℕ) : d.answer count < 0 ∨
    count % 2 ^ 8 ≠ 0 ∧ d.passed count = count % 2 ^ 8 := by
  rw [Drive.answer]
  split
  · rename_i hall
    exact Or.inr hall
  · exact Or.inl (by decide)

theorem kfsRead_missing {sb name : ℕ} (M : Machine) (buf : ℕ)
    (hfind : kfsFind M.mem sb name = some none) :
    kfsRead M sb name buf = some (errNotFound, M) := by
  rw [kfsRead, hfind]
  rfl

/-- The file is there, and it is read in full or not at all. -/
def ReadInFull (m : Mem) (sb name : ℕ) : Prop :=
  kfsFind m sb name ≠ some none ∧
    ∀ i, kfsFind m sb name = some (some i) → ReadFits (fileSize m sb i)

section

variable {m : Mem} {sb name buf : ℕ}

theorem TellsFailure.there (h : TellsFailure (fun M => kfsRead M sb name buf) m sb name buf) :
    kfsFind m sb name ≠ some none := by
  intro hmissing
  have hr := h ⟨m, steadyDisk, Pmm.boot⟩ _ _ rfl (kfsRead_missing _ buf hmissing) (by
    rintro ⟨i, hfind, -⟩
    cases hmissing.symm.trans hfind)
  exact absurd hr (by decide)

theorem TellsFailure.readFits {i : ℕ}
    (h : TellsFailure (fun M => kfsRead M sb name buf) m sb name buf)
    (hfind : kfsFind m sb name = some (some i)) : ReadFits (fileSize m sb i) := by
  by_contra hfits
  obtain ⟨hlt, h0⟩ := not_or.mp hfits
  -- a disk that differs from the memory in the gap behind the first sector
  obtain ⟨v, hv⟩ : ∃ v, v ≠ m.get (buf + 512) := exists_byte_ne _
  have hdisk : (Machine.mk m (uniformDisk v) Pmm.boot).disk.ErrorFree := uniformDisk_errorFree v
  obtain ⟨r, M', hread, hr, hmem⟩ := kfsRead_again hdisk hfind buf
  refine absurd (h _ _ _ rfl hread ?_) (not_lt.mpr (hr.mpr h0))
  rintro ⟨j, hfind', hbytes⟩
  obtain rfl : i = j := Option.some_inj.mp (Option.some_inj.mp (hfind.symm.trans hfind'))
  have hbyte := hbytes 512 (Nat.lt_of_not_le hlt)
  have hmod := Nat.mod_lt (kfsSectors (fileSize m sb i)).toNat (y := 2 ^ 8) (by decide)
  have hgap (n : ℕ) : ¬ InBlock n 512 := fun hin => absurd hin.1 (by decide)
  rw [hmem, Mem.get_blitBlocks _ _ _ _ (by unfold blockReach; omega), Mem.offset_add _ (by decide),
    if_neg (hgap _)] at hbyte
  exact hv hbyte.symm

theorem fileRead_of_nonneg {M M' : Machine} {i : ℕ} {r : ℤ}
    (hfind : kfsFind M.mem sb name = some (some i)) (hfits : ReadFits (fileSize M.mem sb i))
    (hread : kfsRead M sb name buf = some (r, M')) (hr : 0 ≤ r) : FileRead M M' sb name buf := by
  obtain ⟨hanswer, hmem⟩ := kfsRead_found hfind hread
  rcases M.disk.answer_neg_or (kfsSectors (fileSize M.mem sb i)).toNat with hneg | ⟨h0, hall⟩
  · exact absurd (hanswer ▸ hneg) (not_lt.mpr hr)
  · have hle := hfits.resolve_right h0
    have hmod := Nat.mod_lt (kfsSectors (fileSize M.mem sb i)).toNat (y := 2 ^ 8) (by decide)
    refine ⟨i, hfind, fun t ht => ?_⟩
    have hin : InBlock 1 t := inBlock_one.mpr (by omega)
    rw [hmem, hall, Mem.get_blitBlocks _ _ _ _ (by unfold blockReach; omega),
      Mem.offset_add _ (by omega), if_pos (hin.mono (by omega)), gather_of_lt (by omega)]

theorem ReadInFull.tellsFailure (h : ReadInFull m sb name) (buf : ℕ) :
    TellsFailure (fun M => kfsRead M sb name buf) m sb name buf := by
  rintro M M' r rfl hread hunread
  change kfsRead M sb name buf = _ at hread
  cases hfind : kfsFind M.mem sb name with
  | none =>
      rw [kfsRead, hfind] at hread
      cases hread
  | some found =>
      cases found with
      | none => exact absurd hfind h.1
      | some i =>
          by_contra hr
          exact hunread (fileRead_of_nonneg hfind (h.2 i hfind) hread (not_lt.mp hr))

end

theorem kfsRead_tellsFailure_iff (m : Mem) (sb name buf : ℕ) :
    TellsFailure (fun M => kfsRead M sb name buf) m sb name buf ↔ ReadInFull m sb name := by
  constructor
  · exact fun h => ⟨h.there, fun i hfind => h.readFits hfind⟩
  · exact fun h => h.tellsFailure buf

/-- The reads tell their failures exactly when the file is there and has one sector, or a number of
them that is 0 in eight bits. A read through `NULL` fails and says so. -/
theorem reads_tellFailure_iff (m : Mem) (sb name buf : ℕ) :
    (TellsFailure (fun M => kfsRead M sb name buf) m sb name buf ↔ ReadInFull m sb name) ∧
      ∀ count, TellsFailure (fun M => vfsLRead M sb name buf count) m sb name buf ↔
        name = 0 ∨ ReadInFull m sb name := by
  refine ⟨kfsRead_tellsFailure_iff m sb name buf, fun count => ?_⟩
  by_cases h0 : name = 0
  · refine iff_of_true (fun M M' r _ hread _ => ?_) (Or.inl h0)
    dsimp only at hread
    rw [vfsLRead, if_pos h0] at hread
    obtain ⟨rfl, -⟩ := Prod.mk.inj (Option.some_inj.mp hread)
    decide
  · have hvfs : (fun M => vfsLRead M sb name buf count) = fun M => kfsRead M sb name buf := by
      funext M
      exact if_neg h0
    rw [hvfs, kfsRead_tellsFailure_iff]
    exact (or_iff_right h0).symm

/-- On the volume with one file, of one byte, a name that is not there is read like the file. -/
theorem demoFileVolume_not_tellsFailure :
    kfsFind demoFileVolume.mem demoSuperblock demoData = some none ∧
    (kfsRead demoFileVolume demoSuperblock demoData 0x40000).map Prod.fst = some 1 ∧
    (kfsRead demoFileVolume demoSuperblock demoName 0x40000).map Prod.fst = some 1 ∧
    ¬ TellsFailure (fun M => kfsRead M demoSuperblock demoData 0x40000) demoFileVolume.mem
      demoSuperblock demoData 0x40000 := by
  have hmissing : kfsFind demoFileVolume.mem demoSuperblock demoData = some none := by
    decide +kernel
  refine ⟨hmissing, by rw [kfsRead_missing _ _ hmissing]; rfl, by decide +kernel, fun htells => ?_⟩
  have hneg := htells demoFileVolume _ _ rfl (kfsRead_missing _ _ hmissing) (by
    rintro ⟨i, hfind, -⟩
    cases hmissing.symm.trans hfind)
  exact absurd hneg (by decide)

def vfsLReadName (f : ℕ) : Option ℕ := if f = 0 then none else some f

/-- Only a directory entry is used as one, and whatever the disk does, only the `count` bytes at
`buf` are stored to. -/
structure ReadHonours (m : Mem) (sb f buf : ℕ) (count : BitVec 32) : Prop where
  entry : ∀ name, vfsLReadName f = some name → ∃ i, name = kfsFile sb i
  bounded : ∀ (M M' : Machine) (r : ℤ), M.mem = m → vfsLRead M sb f buf count = some (r, M') →
    ∃ stored, M'.mem.writes = stored ++ m.writes ∧
      ∀ a ∈ stored, ∃ t < count.toNat, a = (buf + t) % 2 ^ 32

theorem vfsLOpen_cases {m : Mem} {sb path f : ℕ} (h : vfsLOpen m sb path = some f) :
    f = 0 ∨ f = ttyHandle ∨ ∃ i, f = kfsFile sb i := by
  by_cases h0 : f = 0
  · exact Or.inl h0
  · by_cases h1 : f = ttyHandle
    · exact Or.inr (Or.inl h1)
    · obtain ⟨-, i, -, hi⟩ := vfsLOpen_file h h0 h1
      exact Or.inr (Or.inr ⟨i, hi⟩)

theorem blockSpan_within_iff {buf n count : ℕ} (hn : blockReach n ≤ 2 ^ 32)
    (hcount : count < 2 ^ 32) :
    (∀ a ∈ Mem.blockSpan buf n, ∃ t < count, a = (buf + t) % 2 ^ 32) ↔ blockReach n ≤ count := by
  constructor
  · intro h
    by_contra hlt
    have hpos : 0 < n := by
      unfold blockReach at hlt
      omega
    have hlast : gather (blockReach n - 1) < 512 * n := gather_lt (inBlock_last hpos)
    obtain ⟨t, ht, heq⟩ := h _ (Mem.mem_blockSpan.mpr ⟨_, hlast, rfl⟩)
    rw [spread_gather (inBlock_last hpos)] at heq
    omega
  · intro hle a ha
    obtain ⟨i, hi, rfl⟩ := Mem.mem_blockSpan.mp ha
    exact ⟨spread i, (spread_lt_blockReach hi).trans_le hle, rfl⟩

theorem ReadHonours.reach_le {m : Mem} {sb f buf i : ℕ} {count : BitVec 32}
    (h : ReadHonours m sb f buf count) (h0 : f ≠ 0) (hfind : kfsFind m sb f = some (some i)) :
    blockReach ((kfsSectors (fileSize m sb i)).toNat % 2 ^ 8) ≤ count.toNat := by
  have hcount := count.isLt
  have hmod := Nat.mod_lt (kfsSectors (fileSize m sb i)).toNat (y := 2 ^ 8) (by decide)
  have hdisk : (Machine.mk m (uniformDisk 0#8) Pmm.boot).disk.ErrorFree :=
    uniformDisk_errorFree 0#8
  obtain ⟨r, M', hread, -, hmem⟩ := kfsRead_again hdisk hfind buf
  obtain ⟨stored, hwrites, hwithin⟩ := h.bounded _ _ r rfl ((if_neg h0).trans hread)
  rw [hmem, Mem.writes_blitBlocks, List.append_cancel_right_eq] at hwrites
  rw [← hwrites] at hwithin
  exact (blockSpan_within_iff (by unfold blockReach; omega) hcount).mp hwithin

theorem kfsRead_stored {M M' : Machine} {sb name buf count : ℕ} {r : ℤ} (hcount : count < 2 ^ 32)
    (hread : kfsRead M sb name buf = some (r, M'))
    (hfits : ∀ i, kfsFind M.mem sb name = some (some i) →
      blockReach ((kfsSectors (fileSize M.mem sb i)).toNat % 2 ^ 8) ≤ count) :
    ∃ stored, M'.mem.writes = stored ++ M.mem.writes ∧
      ∀ a ∈ stored, ∃ t < count, a = (buf + t) % 2 ^ 32 := by
  cases hfind : kfsFind M.mem sb name with
  | none =>
      rw [kfsRead, hfind] at hread
      cases hread
  | some found =>
      cases found with
      | none =>
          rw [kfsRead_missing M buf hfind] at hread
          obtain ⟨-, rfl⟩ := Prod.mk.inj (Option.some_inj.mp hread)
          exact ⟨[], rfl, fun a ha => absurd ha List.not_mem_nil⟩
      | some i =>
          have hmod := Nat.mod_lt (kfsSectors (fileSize M.mem sb i)).toNat (y := 2 ^ 8) (by decide)
          have hle := hfits i hfind
          have hpassed : M.disk.passed (kfsSectors (fileSize M.mem sb i)).toNat ≤
              (kfsSectors (fileSize M.mem sb i)).toNat % 2 ^ 8 := streak_le ..
          refine ⟨_, by rw [(kfsRead_found hfind hread).2, Mem.writes_blitBlocks], ?_⟩
          exact (blockSpan_within_iff (by unfold blockReach; omega) hcount).mpr
            ((blockReach_mono hpassed).trans hle)

/-- A read through a handle stays within the buffer exactly when the handle is not the terminal's
and the sectors that are read of the file, up to 255 of them, reach no further than the buffer. -/
theorem vfsLRead_honours_iff {m₀ : Mem} {sb path f : ℕ} (hopen : vfsLOpen m₀ sb path = some f)
    (m : Mem) (buf : ℕ) (count : BitVec 32) :
    ReadHonours m sb f buf count ↔ f ≠ ttyHandle ∧
      (f ≠ 0 → ∀ i, kfsFind m sb f = some (some i) →
        blockReach ((kfsSectors (fileSize m sb i)).toNat % 2 ^ 8) ≤ count.toNat) := by
  constructor
  · intro h
    constructor
    · rintro rfl
      obtain ⟨i, hi⟩ := h.entry ttyHandle rfl
      exact (kfsFile_ne sb i).2 hi.symm
    · exact fun h0 i hfind => h.reach_le h0 hfind
  · rintro ⟨htty, hfits⟩
    constructor
    · intro name hname
      have h0 : f ≠ 0 := by
        rintro rfl
        cases hname
      obtain rfl : f = name := Option.some_inj.mp ((if_neg h0).symm.trans hname)
      exact ((vfsLOpen_cases hopen).resolve_left h0).resolve_left htty
    · rintro M M' r rfl hread
      by_cases h0 : f = 0
      · rw [vfsLRead, if_pos h0] at hread
        obtain ⟨-, rfl⟩ := Prod.mk.inj (Option.some_inj.mp hread)
        exact ⟨[], rfl, fun a ha => absurd ha List.not_mem_nil⟩
      · rw [vfsLRead, if_neg h0] at hread
        exact kfsRead_stored count.isLt hread (hfits h0)

theorem demoFile_find : kfsFind demoFileVolume.mem demoSuperblock (kfsFile demoSuperblock 0) =
    some (some 0) := by
  decide +kernel

/-- A buffer of one sector is enough for the file of one byte. -/
theorem demoFile_honours :
    ReadHonours demoFileVolume.mem demoSuperblock (kfsFile demoSuperblock 0) 0x40000 512#32 := by
  refine (vfsLRead_honours_iff demoFile_open _ _ _).mpr ⟨(kfsFile_ne _ _).2, fun _ i hfind => ?_⟩
  obtain rfl : 0 = i := Option.some_inj.mp (Option.some_inj.mp (demoFile_find.symm.trans hfind))
  decide +kernel

/-- A buffer of one byte is not. -/
theorem demoFile_not_honours :
    vfsLOpen demoFileVolume.mem demoSuperblock demoName = some (kfsFile demoSuperblock 0) ∧
    ¬ ReadHonours demoFileVolume.mem demoSuperblock (kfsFile demoSuperblock 0) 0x40000 1#32 := by
  refine ⟨demoFile_open, fun h => ?_⟩
  have hle := h.reach_le (kfsFile_ne _ _).1 demoFile_find
  revert hle
  decide +kernel

end System44
