import System44.UexLoad

/-!
# What a program depends on

The extent of a program comes from the directory and its length from its own header. On a disk
without errors a load is a function of the directory, of the first sector and of the sectors behind
it that the header asks for, whoever owns them, except for a sector that comes to lie where the
zeros behind the image are put.
-/

namespace System44

/-- The result of a load, the entry point and the memory. -/
structure UexView where
  result : ℤ
  entry : Option (BitVec 32)
  mem : ℕ → Byte

def UexExit.view (x : UexExit) : UexView := ⟨x.result, x.entry, x.machine.mem.get⟩

/-- The transfer for the rest of the image is refused, as its eight-bit count is zero. -/
def UexHdr.Cut (hdr : UexHdr) : Prop :=
  firstChunk < hdr.fileSize.toNat ∧ uexSectors hdr % 2 ^ 8 = 0

instance (hdr : UexHdr) : Decidable hdr.Cut := inferInstanceAs (Decidable (_ ∧ _))

/-- A load on a disk without errors, where the first sector has the bytes `first` and the sectors
from `lba` on have the bytes `rest lba`. -/
def uexOutcome (m : Mem) (p : Pmm) (sb i : ℕ) (first : ℕ → Byte)
    (rest : BitVec 32 → ℕ → Byte) : UexView :=
  let hdr := uexHdr first
  let (m', _, dest) := uexDest m p hdr
  let m₁ := afterChunk m' hdr dest first
  if (fileSize m sb i).toNat < sizeofUexHdr then ⟨errFormat, none, m.get⟩
  else if hdr.magic ≠ uexMagic then ⟨errFormat, none, m.get⟩
  else if dest = 0 then ⟨errOom, none, m'.get⟩
  else if hdr.Cut then ⟨errIo, none, m₁.get⟩
  else ⟨errSuccess, some (uexEntry hdr dest), (afterZeros (afterSectors m₁ dest
    (uexSectors hdr % 2 ^ 8) (rest (startLba m₁ sb i + 1#32))) hdr dest).get⟩

theorem not_cut_iff {d : Drive} (h : d.ErrorFree) (hdr : UexHdr) :
    ¬ hdr.Cut ↔ hdr.fileSize.toNat ≤ firstChunk ∨ 0 ≤ d.answer (uexSectors hdr) := by
  rw [h.answer_nonneg, UexHdr.Cut, not_and_or, Nat.not_lt]

theorem uexLoad_errorFree {m : Mem} {disk : Drive} (hdisk : disk.ErrorFree) (sb i : ℕ)
    (hdr : UexHdr) (secbuf : Mem) (dest : ℕ) :
    ∃ disk', uexLoad m disk sb i hdr secbuf dest = some (if hdr.Cut then
      (errIo, disk', afterChunk m hdr dest secbuf.get) else
      (errSuccess, disk', afterZeros (afterSectors (afterChunk m hdr dest secbuf.get) dest
        (uexSectors hdr % 2 ^ 8)
        (disk.byteAt (startLba (afterChunk m hdr dest secbuf.get) sb i + 1#32).toNat))
        hdr dest)) := by
  have hsome : ∃ out, uexLoad m disk sb i hdr secbuf dest = some out := by
    have htransfer (copied lba sectors : ℕ) (m₁ : Mem) : ∃ out,
        (if copied < hdr.fileSize.toNat then
          ataReadSectors disk m₁ lba sectors (dest + copied)
        else some (errSuccess, disk, m₁)) = some out := by
      split
      · exact ataReadSectors_of_errorFree hdisk ..
      · exact ⟨_, rfl⟩
    obtain ⟨⟨r, disk', m₂⟩, hout⟩ := htransfer _ _ _ _
    rw [uexLoad, Option.bind_eq_bind, hout, Option.bind_some]
    dsimp only
    split
    · exact ⟨_, rfl⟩
    · split
      · exact ⟨_, rfl⟩
      · exact ⟨_, rfl⟩
  obtain ⟨⟨r, disk', m'⟩, hload⟩ := hsome
  obtain ⟨m₂, hm₂, ⟨rfl, rfl, hok⟩ | ⟨rfl, rfl, hbad⟩⟩ := uexLoad_some hload
  · rw [hdisk.passed] at hm₂
    rw [← not_cut_iff hdisk] at hok
    exact ⟨disk', by rw [hload, if_neg hok, hm₂]⟩
  · rw [← not_cut_iff hdisk, not_not] at hbad
    rw [hdisk.passed, hbad.2, afterSectors, Mem.blitBlocks_zero] at hm₂
    exact ⟨disk', by rw [hload, if_pos hbad, hm₂]⟩

/-- On a disk without errors a call returns, and with what `uexOutcome` says. -/
theorem uexExec_view {M : Machine} {sb name i : ℕ} (hdisk : M.disk.ErrorFree)
    (hfind : kfsFind M.mem sb name = some (some i)) (wanted : Bool) :
    ∃ x, uexExec M sb name wanted = some x ∧ x.view = uexOutcome M.mem M.pmm sb i
      (fileByte M sb i) fun lba => M.disk.byteAt lba.toNat := by
  rw [uexExec, hfind, Option.bind_eq_bind, Option.bind_some, uexOutcome]
  dsimp only
  by_cases hsize : (fileSize M.mem sb i).toNat < sizeofUexHdr
  · rw [if_pos hsize, if_pos hsize]
    exact ⟨_, rfl, rfl⟩
  · rw [if_neg hsize, if_neg hsize]
    obtain ⟨⟨r, disk, secbuf⟩, hread⟩ := ataReadSectors_of_errorFree hdisk stackFrame
      (startLba M.mem sb i).toNat 1 0
    obtain ⟨hr, hunw, hsec⟩ := ataReadSectors_some hread
    have hr0 : ¬ r < 0 := by
      rw [hr, not_lt]
      exact hdisk.answer_nonneg.mpr (by decide)
    have hbytes : ∀ k < 512, secbuf.get k = fileByte M sb i k := by
      intro k hk
      rw [hsec, hdisk.passed, Nat.mod_eq_of_lt (by decide), Mem.blitBlocks_one]
      exact get_firstSector hk
    have hhdr := uexHdr_firstSector hbytes
    have hfree : disk.ErrorFree := hdisk.congr hunw.reply
    have hfile : uexHdr (fileByte M sb i) = fileHdr M sb i := rfl
    rw [hread, Option.bind_eq_bind, Option.bind_some]
    dsimp only
    rw [if_neg hr0, hhdr, hfile]
    by_cases hmagic : (fileHdr M sb i).magic = uexMagic
    · rw [if_neg (not_not_intro hmagic), if_neg (not_not_intro hmagic)]
      by_cases hdest : (uexDest M.mem M.pmm (fileHdr M sb i)).2.2 = 0
      · rw [if_pos hdest, if_pos hdest]
        exact ⟨_, rfl, rfl⟩
      · rw [if_neg hdest, if_neg hdest]
        obtain ⟨disk', hload⟩ := uexLoad_errorFree (m := (uexDest M.mem M.pmm (fileHdr M sb i)).1)
          hfree sb i (fileHdr M sb i) secbuf (uexDest M.mem M.pmm (fileHdr M sb i)).2.2
        rw [afterChunk_congr _ _ _ hbytes, hunw.byteAt] at hload
        rw [hload, Option.bind_some]
        by_cases hcut : (fileHdr M sb i).Cut
        · rw [if_pos hcut, if_pos hcut]
          exact ⟨_, rfl, rfl⟩
        · rw [if_neg hcut, if_neg hcut]
          exact ⟨_, rfl, rfl⟩
    · rw [if_pos hmagic, if_pos hmagic]
      exact ⟨_, rfl, rfl⟩

def OwnSector (m : Mem) (sb i s : ℕ) : Prop :=
  s = 0 ∨ ∃ j < fileSectors m sb i, s = ((startLba m sb i).toNat + j) % lbaLimit

def restLba (M : Machine) (sb i : ℕ) : BitVec 32 :=
  let hdr := fileHdr M sb i
  let (m, _, dest) := uexDest M.mem M.pmm hdr
  startLba (afterChunk m hdr dest (fileByte M sb i)) sb i + 1#32

/-- Whatever is on the other sectors of the disk, the call does the same, and it does not load a
program whose header says more than the file has. -/
structure OwnFileOnly (M : Machine) (sb name i : ℕ) (wanted : Bool) : Prop where
  same : ∀ d : Drive, d.ErrorFree → (∀ s, OwnSector M.mem sb i s → d.sector s = M.disk.sector s) →
    (uexExec { M with disk := d } sb name wanted).map UexExit.view =
      (uexExec M sb name wanted).map UexExit.view
  refused : ∀ x, uexExec M sb name wanted = some x →
    (fileSize M.mem sb i).toNat < sizeofUexHdr + (fileHdr M sb i).fileSize.toNat →
      x.result ≠ errSuccess

def UexHdr.Zeroes (hdr : UexHdr) (j : ℕ) : Prop :=
  hdr.fileSize.toNat ≤ j ∧ j < hdr.memSize.toNat

instance (hdr : UexHdr) (j : ℕ) : Decidable (hdr.Zeroes j) := inferInstanceAs (Decidable (_ ∧ _))

/-- The header asks for no more than the file has, and each sector that is read is its own or is put
where the zeros then cover all of it. -/
def WithinFile (M : Machine) (sb i : ℕ) : Prop :=
  sizeofUexHdr + (fileHdr M sb i).fileSize.toNat ≤ (fileSize M.mem sb i).toNat ∧
    ∀ k < uexSectors (fileHdr M sb i) % 2 ^ 8,
      OwnSector M.mem sb i (((restLba M sb i).toNat + k) % lbaLimit) ∨
        ∀ t < 512, (fileHdr M sb i).Zeroes (firstChunk + (1024 * k + t))

section

variable {M : Machine} {sb name i : ℕ} {wanted : Bool}

theorem fileByte_congr {d : Drive} (hsize : sizeofUexHdr ≤ (fileSize M.mem sb i).toNat)
    (hsame : ∀ s, OwnSector M.mem sb i s → d.sector s = M.disk.sector s) {k : ℕ} (hk : k < 512) :
    fileByte { M with disk := d } sb i k = fileByte M sb i k := by
  have hown : OwnSector M.mem sb i (((startLba M.mem sb i).toNat + k / 512) % lbaLimit) := by
    refine Or.inr ⟨k / 512, ?_, rfl⟩
    unfold fileSectors ceilSectors
    unfold sizeofUexHdr at hsize
    omega
  rw [fileByte, fileByte, Drive.byteAt, Drive.byteAt, hsame _ hown]

theorem get_afterZeros_congr (m : Mem) (hdr : UexHdr) (dest : ℕ) {t : ℕ} {bytes bytes' : ℕ → Byte}
    (ht : t < 2 ^ 8)
    (h : ∀ k < 512 * t, bytes' k = bytes k ∨ hdr.Zeroes (firstChunk + spread k)) :
    (afterZeros (afterSectors m dest t bytes') hdr dest).get =
      (afterZeros (afterSectors m dest t bytes) hdr dest).get := by
  funext a
  have hj := Mem.offset_lt dest a
  have ha (m : Mem) : m.get a = m.get (dest + Mem.offset dest a) :=
    m.get_congr (Mem.mod_add_offset dest a).symm
  rw [ha, ha]
  generalize Mem.offset dest a = j at hj ⊢
  by_cases hzero : hdr.Zeroes j
  · rw [get_afterZeros _ _ _ hzero.1 hzero.2, get_afterZeros _ _ _ hzero.1 hzero.2]
  · have hkeep : j < hdr.fileSize.toNat ∨ hdr.memSize.toNat ≤ j := by
      unfold UexHdr.Zeroes at hzero
      omega
    rw [get_afterZeros_of _ _ _ hkeep hj, get_afterZeros_of _ _ _ hkeep hj]
    by_cases hin : firstChunk ≤ j ∧ InBlock t (j - firstChunk)
    · have hplace : firstChunk + spread (gather (j - firstChunk)) = j := by
        rw [spread_gather hin.2]
        omega
      have hsame := h _ (gather_lt hin.2)
      rw [hplace] at hsame
      rw [get_afterSectors _ _ _ ht hin.1 hin.2, get_afterSectors _ _ _ ht hin.1 hin.2,
        hsame.resolve_right hzero]
    · have hout : firstChunk ≤ j → ¬ InBlock t (j - firstChunk) := fun hle hb => hin ⟨hle, hb⟩
      rw [get_afterSectors_of _ _ _ ht hout hj, get_afterSectors_of _ _ _ ht hout hj]

theorem uexOutcome_congr {m : Mem} {p : Pmm} {first first' : ℕ → Byte}
    {rest rest' : BitVec 32 → ℕ → Byte}
    (hfirst : sizeofUexHdr ≤ (fileSize m sb i).toNat → ∀ k < 512, first' k = first k)
    (hrest : sizeofUexHdr ≤ (fileSize m sb i).toNat → (uexHdr first).magic = uexMagic →
      (uexDest m p (uexHdr first)).2.2 ≠ 0 → ¬ (uexHdr first).Cut →
      let m₁ := afterChunk (uexDest m p (uexHdr first)).1 (uexHdr first)
        (uexDest m p (uexHdr first)).2.2 first
      ∀ k < 512 * (uexSectors (uexHdr first) % 2 ^ 8),
        rest' (startLba m₁ sb i + 1#32) k = rest (startLba m₁ sb i + 1#32) k ∨
          (uexHdr first).Zeroes (firstChunk + spread k)) :
    uexOutcome m p sb i first' rest' = uexOutcome m p sb i first rest := by
  by_cases hsize : (fileSize m sb i).toNat < sizeofUexHdr
  · rw [uexOutcome, uexOutcome]
    dsimp only
    rw [if_pos hsize, if_pos hsize]
  · have hbytes := hfirst (Nat.le_of_not_lt hsize)
    have hhdr : uexHdr first' = uexHdr first :=
      uexHdr_congr fun k hk => hbytes k (by unfold sizeofUexHdr at hk; omega)
    rw [uexOutcome, uexOutcome]
    dsimp only
    rw [hhdr, afterChunk_congr _ _ _ hbytes, if_neg hsize, if_neg hsize]
    by_cases hmagic : (uexHdr first).magic = uexMagic
    · rw [if_neg (not_not_intro hmagic), if_neg (not_not_intro hmagic)]
      by_cases hdest : (uexDest m p (uexHdr first)).2.2 = 0
      · rw [if_pos hdest, if_pos hdest]
      · rw [if_neg hdest, if_neg hdest]
        by_cases hcut : (uexHdr first).Cut
        · rw [if_pos hcut, if_pos hcut]
        · rw [if_neg hcut, if_neg hcut, get_afterZeros_congr _ _ _ (Nat.mod_lt _ (by decide))
            (hrest (Nat.le_of_not_lt hsize) hmagic hdest hcut)]
    · rw [if_pos hmagic, if_pos hmagic]

theorem uexOutcome_success_iff {m : Mem} {p : Pmm} {first : ℕ → Byte}
    {rest : BitVec 32 → ℕ → Byte} :
    (uexOutcome m p sb i first rest).result = errSuccess ↔
      sizeofUexHdr ≤ (fileSize m sb i).toNat ∧ (uexHdr first).magic = uexMagic ∧
        (uexDest m p (uexHdr first)).2.2 ≠ 0 ∧ ¬ (uexHdr first).Cut := by
  rw [uexOutcome]
  dsimp only
  by_cases hsize : (fileSize m sb i).toNat < sizeofUexHdr
  · rw [if_pos hsize]
    exact iff_of_false (by decide : errFormat ≠ errSuccess) fun h =>
      absurd h.1 (Nat.not_le.mpr hsize)
  · rw [if_neg hsize]
    by_cases hmagic : (uexHdr first).magic = uexMagic
    · rw [if_neg (not_not_intro hmagic)]
      by_cases hdest : (uexDest m p (uexHdr first)).2.2 = 0
      · rw [if_pos hdest]
        exact iff_of_false (by decide : errOom ≠ errSuccess) fun h => h.2.2.1 hdest
      · rw [if_neg hdest]
        by_cases hcut : (uexHdr first).Cut
        · rw [if_pos hcut]
          exact iff_of_false (by decide : errIo ≠ errSuccess) fun h => h.2.2.2 hcut
        · rw [if_neg hcut]
          exact iff_of_true rfl ⟨Nat.le_of_not_lt hsize, hmagic, hdest, hcut⟩
    · rw [if_pos hmagic]
      exact iff_of_false (by decide : errFormat ≠ errSuccess) fun h => hmagic h.2.1

theorem uexExec_success_iff (hdisk : M.disk.ErrorFree)
    (hfind : kfsFind M.mem sb name = some (some i)) {x : UexExit}
    (h : uexExec M sb name wanted = some x) :
    x.result = errSuccess ↔ UexReady M sb i ∧ ¬ (fileHdr M sb i).Cut := by
  obtain ⟨x', hx', hview⟩ := uexExec_view hdisk hfind wanted
  obtain rfl : x' = x := Option.some_inj.mp (hx'.symm.trans h)
  have hresult : x'.result = x'.view.result := rfl
  rw [hresult, hview, uexOutcome_success_iff]
  constructor
  · rintro ⟨hsize, hmagic, hdest, hcut⟩
    exact ⟨⟨hsize, Reply.good_of_taken (hdisk _), hmagic, hdest⟩, hcut⟩
  · rintro ⟨hready, hcut⟩
    exact ⟨hready.size, hready.magic, hready.memory, hcut⟩

theorem lt_fileSize_of_lt_sectors {hdr : UexHdr} {k : ℕ} (hk : k < uexSectors hdr) :
    firstChunk + 512 * k < hdr.fileSize.toNat := by
  have hlt := hdr.fileSize.isLt
  have hsectors : uexSectors hdr =
      ((hdr.fileSize.toNat - firstChunk) % 2 ^ 32 + 511) % 2 ^ 32 / 512 := by
    rw [uexSectors, BitVec.toNat_udiv, BitVec.toNat_add, BitVec.toNat_ofNat]
    rfl
  have hfirst : firstChunk = 488 := rfl
  omega

theorem uexOutcome_byte {m : Mem} {p : Pmm} {first : ℕ → Byte} {rest : BitVec 32 → ℕ → Byte}
    (hok : (uexOutcome m p sb i first rest).result = errSuccess) {k t : ℕ}
    (hk : k < uexSectors (uexHdr first) % 2 ^ 8) (ht : t < 512)
    (hkeep : ¬ (uexHdr first).Zeroes (firstChunk + (1024 * k + t))) :
    (uexOutcome m p sb i first rest).mem
        ((uexDest m p (uexHdr first)).2.2 + (firstChunk + (1024 * k + t))) =
      rest (startLba (afterChunk (uexDest m p (uexHdr first)).1 (uexHdr first)
        (uexDest m p (uexHdr first)).2.2 first) sb i + 1#32) (512 * k + t) := by
  obtain ⟨hsize, hmagic, hdest, hcut⟩ := uexOutcome_success_iff.mp hok
  have hmod : uexSectors (uexHdr first) % 2 ^ 8 < 2 ^ 8 := Nat.mod_lt _ (by decide)
  have hin : InBlock (uexSectors (uexHdr first) % 2 ^ 8)
      (firstChunk + (1024 * k + t) - firstChunk) := by
    unfold InBlock
    omega
  have hgather : gather (firstChunk + (1024 * k + t) - firstChunk) = 512 * k + t := by
    unfold gather
    omega
  rw [uexOutcome]
  dsimp only
  rw [if_neg (Nat.not_lt.mpr hsize), if_neg (not_not_intro hmagic), if_neg hdest, if_neg hcut]
  dsimp only
  rw [get_afterZeros_of _ _ _ (by unfold UexHdr.Zeroes at hkeep; omega)
      (by unfold firstChunk sizeofUexHdr; omega),
    get_afterSectors _ _ _ hmod (Nat.le_add_right ..) hin, hgather]

/-- A program depends on its own file alone exactly when, if it can be loaded at all, its header
asks for no more than the file has and no other sector is left in sight. -/
theorem uexExec_ownFileOnly_iff (hdisk : M.disk.ErrorFree)
    (hfind : kfsFind M.mem sb name = some (some i)) :
    OwnFileOnly M sb name i wanted ↔
      (UexReady M sb i → (fileHdr M sb i).Cut ∨ WithinFile M sb i) := by
  obtain ⟨x, hx, hview⟩ := uexExec_view hdisk hfind wanted
  constructor
  · intro hown hready
    by_contra hbad
    obtain ⟨hcut, hwithin⟩ := not_or.mp hbad
    have hok := (uexExec_success_iff hdisk hfind hx).mpr ⟨hready, hcut⟩
    apply hwithin
    refine ⟨Nat.le_of_not_lt fun hlt => hown.refused x hx hlt hok, fun k hk => ?_⟩
    -- otherwise that sector, with other bytes, would show in memory
    by_contra hforeign
    obtain ⟨hforeign, hseen⟩ := not_or.mp hforeign
    push Not at hseen
    obtain ⟨t, ht, hkeep⟩ := hseen
    let rest (d : Drive) (lba : BitVec 32) : ℕ → Byte := d.byteAt lba.toNat
    let s := ((restLba M sb i).toNat + k) % lbaLimit
    let b := rest M.disk (restLba M sb i) (512 * k + t)
    let d : Drive := { M.disk with sector := Function.update M.disk.sector s fun _ => b + 1#8 }
    have hsame : ∀ s', OwnSector M.mem sb i s' → d.sector s' = M.disk.sector s' := by
      intro s' hs'
      have hne : s' ≠ s := by
        rintro rfl
        exact hforeign hs'
      exact Function.update_of_ne hne _ _
    obtain ⟨x', hx', hview'⟩ := uexExec_view (M := { M with disk := d }) hdisk hfind wanted
    have heq : x'.view = x.view := by
      have hmap := hown.same d hdisk hsame
      rw [hx, hx'] at hmap
      exact Option.some_inj.mp hmap
    have hfirst : uexOutcome M.mem M.pmm sb i (fileByte { M with disk := d } sb i) (rest d) =
        uexOutcome M.mem M.pmm sb i (fileByte M sb i) (rest d) :=
      uexOutcome_congr (fun hsize k hk => fileByte_congr (M := M) (d := d) hsize hsame hk)
        fun _ _ _ _ _ _ => Or.inl rfl
    rw [hview, hview'] at heq
    replace heq := hfirst.symm.trans heq
    have hok' : x.view.result = errSuccess := hok
    rw [hview] at hok'
    have hbyte := uexOutcome_byte hok' hk ht hkeep
    have hbyte' := uexOutcome_byte ((congrArg UexView.result heq).trans hok') hk ht hkeep
    rw [heq, hbyte] at hbyte'
    have hflipped : rest d (restLba M sb i) (512 * k + t) = b + 1#8 := by
      have hs : (restLba M sb i).toNat + (512 * k + t) / 512 = (restLba M sb i).toNat + k := by
        omega
      change (d.sector (((restLba M sb i).toNat + (512 * k + t) / 512) % lbaLimit)).byte
        (512 * k + t) = _
      rw [hs]
      exact congrFun (Function.update_self s (fun _ => b + 1#8) M.disk.sector) _
    have hsame : b = b + 1#8 := Eq.trans hbyte' hflipped
    exact absurd hsame (by bv_omega)
  · intro hcond
    refine ⟨fun d hd hsame => ?_, fun x' hx' hlt hok => ?_⟩
    · obtain ⟨x', hx', hview'⟩ := uexExec_view (M := { M with disk := d }) hd hfind wanted
      rw [hx, hx', Option.map_some, Option.map_some, hview, hview']
      refine congrArg some (uexOutcome_congr (fun hsize k hk =>
        fileByte_congr (M := M) (d := d) hsize hsame hk) ?_)
      intro hsize hmagic hdest hcut m₁ k hk
      have hready : UexReady M sb i := ⟨hsize, Reply.good_of_taken (hdisk _), hmagic, hdest⟩
      rcases ((hcond hready).resolve_left hcut).2 (k / 512) (Nat.div_lt_of_lt_mul hk) with
        hown | hzero
      · left
        change d.byteAt (restLba M sb i).toNat k = M.disk.byteAt (restLba M sb i).toNat k
        rw [Drive.byteAt, Drive.byteAt, hsame _ hown]
      · exact Or.inr (hzero (k % 512) (Nat.mod_lt _ (by decide)))
    · obtain ⟨hready, hcut⟩ := (uexExec_success_iff hdisk hfind hx').mp hok
      have hle := ((hcond hready).resolve_left hcut).1
      omega

theorem withinFile_iff (hlba : restLba M sb i = startLba M.mem sb i + 1#32) :
    WithinFile M sb i ↔
      sizeofUexHdr + (fileHdr M sb i).fileSize.toNat ≤ (fileSize M.mem sb i).toNat := by
  refine ⟨And.left, fun hle => ⟨hle, fun k hk => Or.inl (Or.inr ⟨k + 1, ?_, ?_⟩)⟩⟩
  · have hlt := lt_fileSize_of_lt_sectors (hk.trans_le (Nat.mod_le _ _))
    have hfirst : firstChunk = 488 := rfl
    unfold fileSectors ceilSectors
    unfold sizeofUexHdr at hle
    omega
  · have hlimit : lbaLimit = 2 ^ 28 := rfl
    rw [hlba, BitVec.toNat_add, BitVec.toNat_ofNat, hlimit]
    omega

/-- The program of `shortMachine` has the 624 bytes that its file has. -/
theorem shortProgram_ownFileOnly :
    OwnFileOnly shortMachine demoSuperblock programName 0 true := by
  refine (uexExec_ownFileOnly_iff shortMachine_errorFree shortProgram_find).mpr fun _ => Or.inr ?_
  refine (withinFile_iff (by decide +kernel)).mpr ?_
  rw [shortProgram_hdr]
  decide +kernel

end

def greedyProgram : UexHdr := ⟨uexMagic, 0x200000#32, 0x200000#32, 2000#32, 0x1000#32, 0#32⟩

def greedyDisk : Drive :=
  { programDisk greedyProgram with
    sector := Function.update (programDisk greedyProgram).sector 0
      ((programDisk shortProgram).sector 0) }

def otherDisk : Drive :=
  { greedyDisk with sector := Function.update greedyDisk.sector 3 fun _ => 0x55#8 }

def greedyMachine : Machine := { shortMachine with disk := greedyDisk }

theorem greedyProgram_not_ownFileOnly :
    greedyMachine.disk.ErrorFree ∧
      kfsFind greedyMachine.mem demoSuperblock programName = some (some 0) ∧
      ¬ OwnFileOnly greedyMachine demoSuperblock programName 0 true := by
  have hfind : kfsFind greedyMachine.mem demoSuperblock programName = some (some 0) := by
    dsimp only [greedyMachine]
    exact shortProgram_find
  refine ⟨fun _ => rfl, hfind, fun hown => ?_⟩
  have hfree : otherDisk.ErrorFree := fun _ => rfl
  have hsame : ∀ s, OwnSector greedyMachine.mem demoSuperblock 0 s →
      otherDisk.sector s = greedyMachine.disk.sector s := by
    have hsectors : fileSectors greedyMachine.mem demoSuperblock 0 = 2 := by decide +kernel
    have hstart : (startLba greedyMachine.mem demoSuperblock 0).toNat = 1 := by decide +kernel
    have hlimit : lbaLimit = 2 ^ 28 := rfl
    rintro s (rfl | ⟨j, hj, hs⟩)
    · rfl
    · have hne : s ≠ 3 := by
        rw [hlimit] at hs
        omega
      exact Function.update_of_ne hne _ _
  have hviews := congrArg (Option.map fun v => v.mem (0x200000 + 1512))
    (hown.same otherDisk hfree hsame)
  rw [Option.map_map, Option.map_map] at hviews
  revert hviews
  change ¬ _
  decide +kernel

end System44
