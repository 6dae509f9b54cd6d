import System44.KfsLayout
import System44.Uex

/-!
# The image of a program

The first sector brings at most 488 bytes of the image. The rest comes by one transfer, whose
sector count is cut to eight bits, which stores whole sectors and leaves a gap behind each: with
more than one of them the image has holes and its parts are in the wrong places, and the last
sector may end behind the block that was allocated for it.
-/

namespace System44

/-- `(remaining + 511) / 512`, which is 0 when nothing remains. -/
def uexSectors (hdr : UexHdr) : ℕ :=
  ((BitVec.ofNat 32 (hdr.fileSize.toNat - firstChunk) + 511#32) / 512#32).toNat

/-- The memory once the rest of the first sector has been copied. -/
def afterChunk (m : Mem) (hdr : UexHdr) (dest : ℕ) (bytes : ℕ → Byte) : Mem :=
  m.blit dest (min hdr.fileSize.toNat firstChunk) fun k => bytes (sizeofUexHdr + k)

def afterSectors (m : Mem) (dest t : ℕ) (bytes : ℕ → Byte) : Mem :=
  m.blitBlocks (dest + firstChunk) t bytes

def afterZeros (m : Mem) (hdr : UexHdr) (dest : ℕ) : Mem :=
  m.blit (dest + hdr.fileSize.toNat) (hdr.memSize.toNat - hdr.fileSize.toNat) fun _ => 0#8

theorem uexDest_relocatable {m : Mem} {p : Pmm} {hdr : UexHdr} (hload : hdr.loadAddr = 0#32) :
    uexDest m p hdr = pmmAlloc m p hdr.pages := if_pos hload

theorem uexDest_fixed {m : Mem} {p : Pmm} {hdr : UexHdr} (hload : hdr.loadAddr ≠ 0#32) :
    uexDest m p hdr = (m, p, hdr.loadAddr.toNat) := if_neg hload

theorem uexSectors_of_le {hdr : UexHdr} (h : hdr.fileSize.toNat ≤ firstChunk) :
    uexSectors hdr = 0 := by
  rw [uexSectors, Nat.sub_eq_zero_of_le h]
  rfl

theorem copied_eq (hdr : UexHdr) : (if hdr.fileSize.toNat < firstChunk then hdr.fileSize.toNat
    else firstChunk) = min hdr.fileSize.toNat firstChunk := by
  split <;> omega

theorem uexTransfer_some {m m₂ : Mem} {disk disk' : Drive} {lba dest : ℕ} {hdr : UexHdr} {r : ℤ}
    (h : (if min hdr.fileSize.toNat firstChunk < hdr.fileSize.toNat then
        ataReadSectors disk m lba ((BitVec.ofNat 32 (hdr.fileSize.toNat -
          min hdr.fileSize.toNat firstChunk) + 511#32) / 512#32).toNat
          (dest + min hdr.fileSize.toNat firstChunk)
      else some (errSuccess, disk, m)) = some (r, disk', m₂)) :
    m₂ = afterSectors m dest (disk.passed (uexSectors hdr)) (disk.byteAt lba) ∧
      (0 ≤ r ↔ hdr.fileSize.toNat ≤ firstChunk ∨ 0 ≤ disk.answer (uexSectors hdr)) := by
  by_cases hle : hdr.fileSize.toNat ≤ firstChunk
  · rw [Nat.min_eq_left hle, if_neg (Nat.lt_irrefl _)] at h
    obtain ⟨rfl, rfl, rfl⟩ : errSuccess = r ∧ disk = disk' ∧ m = m₂ := by simpa using h
    rw [uexSectors_of_le hle, passed_zero]
    exact ⟨rfl, iff_of_true (by decide) (Or.inl hle)⟩
  · rw [Nat.min_eq_right (by omega), if_pos (by omega)] at h
    obtain ⟨hr, -, hmem⟩ := ataReadSectors_some h
    refine ⟨hmem, ?_⟩
    rw [hr]
    constructor
    · exact Or.inr
    · rintro (hle' | h0)
      · exact absurd hle' hle
      · exact h0

theorem uexLoad_some {m m' : Mem} {disk disk' : Drive} {sb i dest : ℕ} {hdr : UexHdr}
    {secbuf : Mem} {r : ℤ}
    (h : uexLoad m disk sb i hdr secbuf dest = some (r, disk', m')) :
    ∃ m₂, m₂ = afterSectors (afterChunk m hdr dest secbuf.get) dest
        (disk.passed (uexSectors hdr))
        (disk.byteAt (startLba (afterChunk m hdr dest secbuf.get) sb i + 1#32).toNat) ∧
      ((r = errSuccess ∧ m' = afterZeros m₂ hdr dest ∧
          (hdr.fileSize.toNat ≤ firstChunk ∨ 0 ≤ disk.answer (uexSectors hdr))) ∨
        r = errIo ∧ m' = m₂ ∧
          ¬ (hdr.fileSize.toNat ≤ firstChunk ∨ 0 ≤ disk.answer (uexSectors hdr))) := by
  rw [uexLoad, copied_eq] at h
  obtain ⟨⟨r', disk₂, m₂⟩, htransfer, h⟩ := Option.bind_eq_some_iff.mp h
  obtain ⟨hm₂, hr'⟩ := uexTransfer_some htransfer
  refine ⟨m₂, hm₂, ?_⟩
  by_cases hneg : r' < 0
  · right
    obtain ⟨rfl, -, rfl⟩ : errIo = r ∧ disk₂ = disk' ∧ m₂ = m' := by simpa [hneg] using h
    exact ⟨rfl, rfl, fun hok => absurd (hr'.mpr hok) (not_le.mpr hneg)⟩
  · left
    have hok := hr'.mp (by omega)
    by_cases hlt : hdr.fileSize.toNat < hdr.memSize.toNat
    · obtain ⟨rfl, -, rfl⟩ : errSuccess = r ∧ disk₂ = disk' ∧ afterZeros m₂ hdr dest = m' := by
        simpa [hneg, hlt, afterZeros] using h
      exact ⟨rfl, rfl, hok⟩
    · obtain ⟨rfl, -, rfl⟩ : errSuccess = r ∧ disk₂ = disk' ∧ m₂ = m' := by
        simpa [hneg, hlt] using h
      rw [afterZeros, Nat.sub_eq_zero_of_le (by omega), Mem.blit_zero]
      exact ⟨rfl, rfl, hok⟩

/-- Byte `k` of file `i`. -/
def fileByte (M : Machine) (sb i k : ℕ) : Byte := M.disk.byteAt (startLba M.mem sb i).toNat k

def fileHdr (M : Machine) (sb i : ℕ) : UexHdr := uexHdr (fileByte M sb i)

/-- The file is a program whose header can be read, and there is memory for it. -/
structure UexReady (M : Machine) (sb i : ℕ) : Prop where
  size : sizeofUexHdr ≤ (fileSize M.mem sb i).toNat
  readable : (M.disk.reply (M.disk.serial + 1)).good = true
  magic : (fileHdr M sb i).magic = uexMagic
  memory : (uexDest M.mem M.pmm (fileHdr M sb i)).2.2 ≠ 0

theorem uexHdr_congr {bytes bytes' : ℕ → Byte} (h : ∀ k < sizeofUexHdr, bytes k = bytes' k) :
    uexHdr bytes = uexHdr bytes' := by
  have hword (x : ℕ) (hx : x + 4 ≤ sizeofUexHdr) :
      (leWord fun i => bytes (x + i)) = leWord fun i => bytes' (x + i) :=
    leWord_congr fun i hi => h (x + i) (by omega)
  have h0 := hword 0 (by decide)
  simp only [Nat.zero_add] at h0
  rw [uexHdr, uexHdr, h0, hword 4 (by decide), hword 8 (by decide), hword 12 (by decide),
    hword 16 (by decide), hword 20 (by decide)]

theorem get_firstSector {M : Machine} {sb i k : ℕ} (hk : k < 512) :
    (stackFrame.blit 0 512 (fileByte M sb i)).get k = fileByte M sb i k := by
  have hget := Mem.get_blit_add stackFrame 0 (fileByte M sb i) (by decide) hk
  rwa [Nat.zero_add] at hget

theorem uexHdr_firstSector {M : Machine} {sb i : ℕ} {secbuf : Mem}
    (hbytes : ∀ k < 512, secbuf.get k = fileByte M sb i k) :
    uexHdr secbuf.get = fileHdr M sb i :=
  uexHdr_congr fun k hk => hbytes k (hk.trans (by decide))

def UexStopped (M : Machine) (sb i : ℕ) (x : UexExit) : Prop :=
  x.machine.mem = M.mem ∧ x.machine.pmm = M.pmm ∨
    (uexDest M.mem M.pmm (fileHdr M sb i)).2.2 = 0 ∧
      x.machine.mem = (uexDest M.mem M.pmm (fileHdr M sb i)).1 ∧
      x.machine.pmm = (uexDest M.mem M.pmm (fileHdr M sb i)).2.1

theorem firstSector_some {M : Machine} {sb i : ℕ} {disk : Drive} {secbuf : Mem} {r : ℤ}
    (hread : ataReadSectors M.disk stackFrame (startLba M.mem sb i).toNat 1 0 =
      some (r, disk, secbuf)) :
    (0 ≤ r ↔ (M.disk.reply (M.disk.serial + 1)).good = true) ∧
      (0 ≤ r → M.disk.Unwritten disk (M.disk.serial + 2) ∧
        ∀ k < 512, secbuf.get k = fileByte M sb i k) := by
  obtain ⟨hr, hunw, hsec⟩ := ataReadSectors_some hread
  rw [hr, answer_one_nonneg]
  refine ⟨Iff.rfl, fun hgood => ?_⟩
  have hpassed : M.disk.passed 1 = 1 := by rw [passed_one, if_pos hgood]
  rw [hpassed] at hunw hsec
  refine ⟨hunw, fun k hk => ?_⟩
  rw [hsec, Mem.blitBlocks_one]
  exact get_firstSector hk

theorem uexExec_of_ready {M : Machine} {sb name i : ℕ} (wanted : Bool)
    (hfind : kfsFind M.mem sb name = some (some i)) (hready : UexReady M sb i) :
    ∃ disk secbuf, M.disk.Unwritten disk (M.disk.serial + 2) ∧
      (∀ k < 512, secbuf.get k = fileByte M sb i k) ∧
      uexExec M sb name wanted =
        (uexLoad (uexDest M.mem M.pmm (fileHdr M sb i)).1 disk sb i (fileHdr M sb i) secbuf
          (uexDest M.mem M.pmm (fileHdr M sb i)).2.2).bind fun out =>
            let machine := ⟨out.2.2, out.2.1, (uexDest M.mem M.pmm (fileHdr M sb i)).2.1⟩
            let alloc := if wanted then some (uexAlloc (fileHdr M sb i)
              (uexDest M.mem M.pmm (fileHdr M sb i)).2.2) else none
            if out.1 = errSuccess then
              some ⟨errSuccess, machine, some (uexEntry (fileHdr M sb i)
                (uexDest M.mem M.pmm (fileHdr M sb i)).2.2), alloc⟩
            else some ⟨out.1, machine, none, alloc⟩ := by
  have hreturns : (ataReadSectors M.disk stackFrame (startLba M.mem sb i).toNat 1 0).isSome :=
    ataReadSectors_isSome_iff.mpr (Or.inl ((passed_one _).trans (if_pos hready.readable)))
  obtain ⟨⟨r, disk, secbuf⟩, hread⟩ := Option.isSome_iff_exists.mp hreturns
  obtain ⟨hr, hsector⟩ := firstSector_some hread
  have hr0 := hr.mpr hready.readable
  obtain ⟨hunw, hbytes⟩ := hsector hr0
  refine ⟨disk, secbuf, hunw, hbytes, ?_⟩
  have hsize : ¬ (fileSize M.mem sb i).toNat < sizeofUexHdr := not_lt.mpr hready.size
  rw [uexExec, hfind, Option.bind_eq_bind, Option.bind_some]
  dsimp only
  rw [if_neg hsize, hread, Option.bind_eq_bind, Option.bind_some]
  dsimp only
  rw [if_neg (not_lt.mpr hr0), uexHdr_firstSector hbytes, if_neg (not_not_intro hready.magic),
    if_neg hready.memory]

theorem uexExec_not_ready {M : Machine} {sb name i : ℕ} {wanted : Bool} {x : UexExit}
    (hfind : kfsFind M.mem sb name = some (some i)) (hnot : ¬ UexReady M sb i)
    (h : uexExec M sb name wanted = some x) : x.result ≠ errSuccess ∧ UexStopped M sb i x := by
  rw [uexExec, hfind, Option.bind_eq_bind, Option.bind_some] at h
  by_cases hsize : (fileSize M.mem sb i).toNat < sizeofUexHdr
  · obtain rfl := Option.some_inj.mp ((if_pos hsize).symm.trans h)
    exact ⟨(by decide : errFormat ≠ errSuccess), Or.inl ⟨rfl, rfl⟩⟩
  · replace h := (if_neg hsize).symm.trans h
    obtain ⟨⟨r, disk, secbuf⟩, hread, h⟩ := Option.bind_eq_some_iff.mp h
    obtain ⟨hr, hsector⟩ := firstSector_some hread
    by_cases hr0 : r < 0
    · obtain rfl := Option.some_inj.mp ((if_pos hr0).symm.trans h)
      exact ⟨(by decide : errIo ≠ errSuccess), Or.inl ⟨rfl, rfl⟩⟩
    · obtain ⟨-, hbytes⟩ := hsector (not_lt.mp hr0)
      replace h := (if_neg hr0).symm.trans h
      simp only [uexHdr_firstSector hbytes] at h
      by_cases hmagic : (fileHdr M sb i).magic = uexMagic
      · rw [if_neg (not_not_intro hmagic)] at h
        have hdest : (uexDest M.mem M.pmm (fileHdr M sb i)).2.2 = 0 := by
          by_contra hmemory
          exact hnot ⟨not_lt.mp hsize, hr.mp (not_lt.mp hr0), hmagic, hmemory⟩
        rw [if_pos hdest] at h
        obtain rfl := Option.some_inj.mp h
        exact ⟨(by decide : errOom ≠ errSuccess), Or.inr ⟨hdest, rfl, rfl⟩⟩
      · rw [if_pos hmagic] at h
        obtain rfl := Option.some_inj.mp h
        exact ⟨(by decide : errFormat ≠ errSuccess), Or.inl ⟨rfl, rfl⟩⟩

theorem uexExec_some {M : Machine} {sb name i : ℕ} {wanted : Bool} {x : UexExit}
    (hfind : kfsFind M.mem sb name = some (some i)) (h : uexExec M sb name wanted = some x) :
    (¬ UexReady M sb i ∧ x.result ≠ errSuccess) ∨
      ∃ disk disk' secbuf, M.disk.Unwritten disk (M.disk.serial + 2) ∧
        (∀ k < 512, secbuf.get k = fileByte M sb i k) ∧
        uexLoad (uexDest M.mem M.pmm (fileHdr M sb i)).1 disk sb i (fileHdr M sb i) secbuf
          (uexDest M.mem M.pmm (fileHdr M sb i)).2.2 = some (x.result, disk', x.machine.mem) ∧
        x.machine.pmm = (uexDest M.mem M.pmm (fileHdr M sb i)).2.1 ∧
        x.alloc = (if wanted then some (uexAlloc (fileHdr M sb i)
          (uexDest M.mem M.pmm (fileHdr M sb i)).2.2) else none) ∧
        (x.result = errSuccess → x.entry =
          some (uexEntry (fileHdr M sb i) (uexDest M.mem M.pmm (fileHdr M sb i)).2.2)) := by
  by_cases hready : UexReady M sb i
  · right
    obtain ⟨disk, secbuf, hunw, hbytes, hrun⟩ := uexExec_of_ready wanted hfind hready
    rw [h] at hrun
    obtain ⟨⟨r, disk', m'⟩, hload, hx⟩ := Option.bind_eq_some_iff.mp hrun.symm
    refine ⟨disk, disk', secbuf, hunw, hbytes, ?_⟩
    dsimp only at hx
    by_cases hok : r = errSuccess
    · rw [if_pos hok] at hx
      obtain rfl := Option.some_inj.mp hx
      exact ⟨hok ▸ hload, rfl, rfl, fun _ => rfl⟩
    · rw [if_neg hok] at hx
      obtain rfl := Option.some_inj.mp hx
      exact ⟨hload, rfl, rfl, fun hc => absurd hc hok⟩
  · exact Or.inl ⟨hready, (uexExec_not_ready hfind hready h).1⟩

section

variable (m : Mem) (hdr : UexHdr) (dest : ℕ) {j t : ℕ} (bytes : ℕ → Byte)

theorem get_afterChunk (hj : j < hdr.fileSize.toNat) (hchunk : j < firstChunk) :
    (afterChunk m hdr dest bytes).get (dest + j) = bytes (sizeofUexHdr + j) := by
  have hlt := hdr.fileSize.isLt
  exact Mem.get_blit_add _ _ (fun k => bytes (sizeofUexHdr + k)) (by omega) (by omega)

theorem get_afterChunk_of_le (hchunk : min hdr.fileSize.toNat firstChunk ≤ j) (hj : j < 2 ^ 32) :
    (afterChunk m hdr dest bytes).get (dest + j) = m.get (dest + j) := by
  apply Mem.get_blit_of_le _ _ (by omega)
  rw [Mem.offset_add dest hj]
  exact hchunk

theorem blockReach_le_of_lt (ht : t < 2 ^ 8) : blockReach t ≤ 2 ^ 32 := by
  unfold blockReach
  omega

theorem get_afterSectors (ht : t < 2 ^ 8) (hchunk : firstChunk ≤ j)
    (hj : InBlock t (j - firstChunk)) :
    (afterSectors m dest t bytes).get (dest + j) = bytes (gather (j - firstChunk)) := by
  have hsum : dest + j = dest + firstChunk + (j - firstChunk) := by omega
  have hlt := hj.lt_blockReach.trans_le (blockReach_le_of_lt ht)
  rw [hsum, afterSectors, Mem.get_blitBlocks _ _ _ _ (blockReach_le_of_lt ht), Mem.offset_add _ hlt,
    if_pos hj]

theorem get_afterSectors_of (ht : t < 2 ^ 8) (hj : firstChunk ≤ j → ¬ InBlock t (j - firstChunk))
    (hlt : j < 2 ^ 32) : (afterSectors m dest t bytes).get (dest + j) = m.get (dest + j) := by
  have hreach := blockReach_le_of_lt ht
  by_cases hchunk : firstChunk ≤ j
  · have hsum : dest + j = dest + firstChunk + (j - firstChunk) := by omega
    rw [hsum]
    apply Mem.get_blitBlocks_of_not _ _ hreach
    rw [Mem.offset_add _ (by omega)]
    exact hj hchunk
  · apply Mem.get_blitBlocks_of_le _ _ hreach
    refine Mem.le_offset_shift ?_ (by unfold firstChunk blockReach; omega)
    rw [Mem.offset_add dest hlt]
    omega

theorem get_afterZeros (hj : hdr.fileSize.toNat ≤ j) (hlt : j < hdr.memSize.toNat) :
    (afterZeros m hdr dest).get (dest + j) = 0#8 := by
  have hmem := hdr.memSize.isLt
  have hsum : dest + j = dest + hdr.fileSize.toNat + (j - hdr.fileSize.toNat) := by omega
  rw [hsum]
  exact Mem.get_blit_add _ _ (fun _ => 0#8) (by omega) (by omega)

theorem get_afterZeros_of (hj : j < hdr.fileSize.toNat ∨ hdr.memSize.toNat ≤ j)
    (hlt : j < 2 ^ 32) : (afterZeros m hdr dest).get (dest + j) = m.get (dest + j) := by
  have hmem := hdr.memSize.isLt
  apply Mem.get_blit_of_le _ _ (by omega)
  rcases Nat.le_total hdr.memSize.toNat hdr.fileSize.toNat with hle | hle
  · rw [Nat.sub_eq_zero_of_le hle]
    exact Nat.zero_le _
  · refine Mem.le_offset_shift ?_ (by omega)
    rw [Mem.offset_add dest hlt]
    omega

theorem get_afterZeros_of_lt (hj : j < hdr.fileSize.toNat) :
    (afterZeros m hdr dest).get (dest + j) = m.get (dest + j) :=
  get_afterZeros_of m hdr dest (Or.inl hj) (hj.trans hdr.fileSize.isLt)

end

theorem byteAt_succ (d : Drive) (lba : BitVec 32) (j : ℕ) :
    d.byteAt (lba + 1#32).toNat j = d.byteAt lba.toNat (512 + j) := by
  have hmod : (lba + 1#32).toNat % lbaLimit = (lba.toNat + 1) % lbaLimit := by
    rw [BitVec.toNat_add]
    exact Nat.mod_mod_of_dvd _ ⟨16, rfl⟩
  rw [Drive.byteAt_add (Nat.le_add_right 512 j), Nat.add_sub_cancel_left, Drive.byteAt,
    Drive.byteAt, ← hmod, Nat.mod_add_mod]

/-- The memory, the image in it and the entry point that a load is meant to leave. -/
structure LoadedExactly (M : Machine) (sb i dest : ℕ) (x : UexExit) : Prop where
  image : ∀ j < (fileHdr M sb i).fileSize.toNat,
    x.machine.mem.get (dest + j) = fileByte M sb i (sizeofUexHdr + j)
  zeros : ∀ j, (fileHdr M sb i).fileSize.toNat ≤ j → j < (fileHdr M sb i).memSize.toNat →
    x.machine.mem.get (dest + j) = 0#8
  entry : x.entry = some (if (fileHdr M sb i).loadAddr = 0#32 then
    BitVec.ofNat 32 dest + (fileHdr M sb i).entry else (fileHdr M sb i).entry)

/-- Behind the first sector every place of the image gets the byte that belongs there, or it lies
where no sector is put and holds that byte already. -/
def RestDelivered (M : Machine) (sb i : ℕ) : Prop :=
  let hdr := fileHdr M sb i
  let m := (uexDest M.mem M.pmm hdr).1
  let dest := (uexDest M.mem M.pmm hdr).2.2
  let lba := startLba (afterChunk m hdr dest (fileByte M sb i)) sb i
  ∀ j < hdr.fileSize.toNat, firstChunk ≤ j →
    (if InBlock (uexSectors hdr % 2 ^ 8) (j - firstChunk) then
      M.disk.byteAt (lba + 1#32).toNat (gather (j - firstChunk)) else m.get (dest + j)) =
    fileByte M sb i (sizeofUexHdr + j)

theorem restDelivered_of_le {M : Machine} {sb i : ℕ}
    (hsize : (fileHdr M sb i).fileSize.toNat ≤ firstChunk + 512)
    (hlba : startLba (afterChunk (uexDest M.mem M.pmm (fileHdr M sb i)).1 (fileHdr M sb i)
      (uexDest M.mem M.pmm (fileHdr M sb i)).2.2 (fileByte M sb i)) sb i = startLba M.mem sb i) :
    RestDelivered M sb i := by
  intro j hj hchunk
  have hfirst : j - firstChunk < 512 := by omega
  have hsectors : uexSectors (fileHdr M sb i) % 2 ^ 8 = 1 := by
    rw [uexSectors, BitVec.toNat_udiv, BitVec.toNat_add, BitVec.toNat_ofNat,
      show (511#32).toNat = 511 from rfl, show (512#32).toNat = 512 from rfl]
    unfold firstChunk sizeofUexHdr at *
    omega
  have hpos : 512 + (j - firstChunk) = sizeofUexHdr + j := by
    unfold firstChunk at *
    unfold sizeofUexHdr at *
    omega
  rw [hsectors, if_pos (inBlock_one.mpr hfirst), gather_of_lt hfirst, hlba, byteAt_succ, hpos]
  rfl

theorem afterChunk_congr (m : Mem) (hdr : UexHdr) (dest : ℕ) {bytes bytes' : ℕ → Byte}
    (h : ∀ k < 512, bytes k = bytes' k) :
    afterChunk m hdr dest bytes = afterChunk m hdr dest bytes' := by
  apply Mem.blit_congr
  intro k hk
  apply h
  unfold sizeofUexHdr
  unfold firstChunk sizeofUexHdr at hk
  omega

theorem uexExec_mem {M : Machine} {sb name i : ℕ} {wanted : Bool} {x : UexExit}
    (hdisk : M.disk.ErrorFree) (hfind : kfsFind M.mem sb name = some (some i))
    (h : uexExec M sb name wanted = some x) (hok : x.result = errSuccess) :
    let hdr := fileHdr M sb i
    let dest := (uexDest M.mem M.pmm hdr).2.2
    let m₁ := afterChunk (uexDest M.mem M.pmm hdr).1 hdr dest (fileByte M sb i)
    x.entry = some (uexEntry hdr dest) ∧
      x.machine.mem = afterZeros (afterSectors m₁ dest (uexSectors hdr % 2 ^ 8)
        (M.disk.byteAt (startLba m₁ sb i + 1#32).toNat)) hdr dest := by
  obtain ⟨-, hne⟩ | ⟨disk, disk', secbuf, hunw, hbytes, hload, -, -, hentry⟩ := uexExec_some hfind h
  · exact absurd hok hne
  · obtain ⟨m₂, hm₂, ⟨-, hmem, -⟩ | ⟨hr, -⟩⟩ := uexLoad_some hload
    · rw [(hdisk.congr hunw.reply).passed, afterChunk_congr _ _ _ hbytes, hunw.byteAt] at hm₂
      exact ⟨hentry hok, by rw [hmem, hm₂]⟩
    · rw [hr] at hok
      exact absurd hok (by decide)

/-- On a disk without errors a load that reports success is exact if and only if the part of the
image behind the first sector is delivered. -/
theorem uexExec_loadedExactly_iff {M : Machine} {sb name i : ℕ} {wanted : Bool} {x : UexExit}
    (hdisk : M.disk.ErrorFree) (hfind : kfsFind M.mem sb name = some (some i))
    (h : uexExec M sb name wanted = some x) (hok : x.result = errSuccess) :
    LoadedExactly M sb i (uexDest M.mem M.pmm (fileHdr M sb i)).2.2 x ↔ RestDelivered M sb i := by
  obtain ⟨hentry, hmem⟩ := uexExec_mem hdisk hfind h hok
  have ht : uexSectors (fileHdr M sb i) % 2 ^ 8 < 2 ^ 8 := Nat.mod_lt _ (by decide)
  have hsize := (fileHdr M sb i).fileSize.isLt
  have hplaced : ∀ j < (fileHdr M sb i).fileSize.toNat, firstChunk ≤ j →
      x.machine.mem.get ((uexDest M.mem M.pmm (fileHdr M sb i)).2.2 + j) =
        if InBlock (uexSectors (fileHdr M sb i) % 2 ^ 8) (j - firstChunk) then
          M.disk.byteAt (startLba (afterChunk (uexDest M.mem M.pmm (fileHdr M sb i)).1
            (fileHdr M sb i) (uexDest M.mem M.pmm (fileHdr M sb i)).2.2 (fileByte M sb i)) sb i +
              1#32).toNat (gather (j - firstChunk))
        else (uexDest M.mem M.pmm (fileHdr M sb i)).1.get
          ((uexDest M.mem M.pmm (fileHdr M sb i)).2.2 + j) := by
    intro j hj hchunk
    rw [hmem, get_afterZeros_of_lt _ _ _ hj]
    split
    · rename_i hin
      exact get_afterSectors _ _ _ ht hchunk hin
    · rename_i hout
      rw [get_afterSectors_of _ _ _ ht (fun _ => hout) (by omega),
        get_afterChunk_of_le _ _ _ _ (by omega) (by omega)]
  constructor
  · intro hloaded j hj hchunk
    rw [← hloaded.image j hj]
    exact (hplaced j hj hchunk).symm
  · intro hrest
    refine ⟨fun j hj => ?_, fun j hle hlt => ?_, hentry⟩
    · rcases Nat.lt_or_ge j firstChunk with hchunk | hchunk
      · rw [hmem, get_afterZeros_of_lt _ _ _ hj,
          get_afterSectors_of _ _ _ ht (fun hle => absurd hchunk (Nat.not_lt.mpr hle)) (by omega),
          get_afterChunk _ _ _ _ hj hchunk]
      · rw [hplaced j hj hchunk]
        exact hrest j hj hchunk
    · rw [hmem]
      exact get_afterZeros _ _ _ hle hlt

def volumeWord (size : BitVec 32) : ℕ → BitVec 32
  | 0 => kfsMagic
  | 1 => 1#32
  | 2 => 0x61#32
  | 10 => 1#32
  | 11 => size
  | _ => 0#32

def UexHdr.word (hdr : UexHdr) : ℕ → BitVec 32
  | 0 => hdr.magic
  | 1 => hdr.entry
  | 2 => hdr.loadAddr
  | 3 => hdr.fileSize
  | 4 => hdr.memSize
  | _ => hdr.flags

/-- A volume whose only file is the program with the given header and an image of `0xAA` bytes. -/
def programDisk (hdr : UexHdr) : Drive :=
  { steadyDisk with
    sector := fun s i =>
      if s = 0 then leBytes (volumeWord (24#32 + hdr.fileSize) (i.val / 4)) (i.val % 4)
      else if s = 1 ∧ i.val < 24 then leBytes (hdr.word (i.val / 4)) (i.val % 4)
      else 0xAA#8 }

/-- The machine once that volume has been mounted. -/
def programMachine (m : Mem) (p : Pmm) (hdr : UexHdr) : Option Machine :=
  match kfsMount ⟨m, programDisk hdr, p⟩ demoSuperblock with
  | some (.ok (_, M)) => some M
  | _ => none

/-- The name in the directory entry is the name the program is called by. -/
def programName : ℕ := kfsFile demoSuperblock 0

theorem programMachine_some {m : Mem} {p : Pmm} {hdr : UexHdr} {M : Machine}
    (h : programMachine m p hdr = some M) :
    M.disk.ErrorFree ∧
      ∃ r, kfsMount ⟨m, programDisk hdr, p⟩ demoSuperblock = some (.ok (r, M)) := by
  unfold programMachine at h
  split at h
  · rename_i r M' hmount
    obtain rfl := Option.some_inj.mp h
    obtain ⟨-, n, hunw⟩ := kfsMount_some hmount
    refine ⟨fun k => ?_, r, hmount⟩
    rw [hunw.reply]
    rfl
  · cases h

/-- A program of 600 bytes for address `0x200000`. -/
def shortProgram : UexHdr := ⟨uexMagic, 0x200000#32, 0x200000#32, 600#32, 0x1000#32, 0#32⟩

def shortMachine : Machine :=
  (programMachine stackFrame Pmm.boot shortProgram).get (by decide +kernel)

theorem shortMachine_errorFree : shortMachine.disk.ErrorFree := by
  have hmount : programMachine stackFrame Pmm.boot shortProgram = some shortMachine :=
    (Option.some_get _).symm
  exact (programMachine_some hmount).1

theorem shortProgram_find :
    kfsFind shortMachine.mem demoSuperblock programName = some (some 0) := by decide +kernel

theorem shortProgram_hdr : fileHdr shortMachine demoSuperblock 0 = shortProgram := by
  decide +kernel

theorem shortProgram_delivered : RestDelivered shortMachine demoSuperblock 0 := by
  apply restDelivered_of_le
  · rw [shortProgram_hdr]
    decide
  · decide +kernel

theorem shortProgram_loaded : ∃ x,
    uexExec shortMachine demoSuperblock programName true = some x ∧ x.result = errSuccess ∧
      LoadedExactly shortMachine demoSuperblock 0 0x200000 x := by
  have hrun : (uexExec shortMachine demoSuperblock programName true).map UexExit.result =
      some errSuccess := by decide +kernel
  obtain ⟨x, hx, hok⟩ := Option.map_eq_some_iff.mp hrun
  have hdest : (uexDest shortMachine.mem shortMachine.pmm
      (fileHdr shortMachine demoSuperblock 0)).2.2 = 0x200000 := by
    rw [shortProgram_hdr]
    rfl
  refine ⟨x, hx, hok, ?_⟩
  rw [← hdest]
  exact (uexExec_loadedExactly_iff shortMachine_errorFree shortProgram_find hx hok).mpr
    shortProgram_delivered

/-- A program for the same address that needs two sectors behind the first one. -/
def gappyProgram : UexHdr := ⟨uexMagic, 0x200000#32, 0x200000#32, 1100#32, 0x1000#32, 0#32⟩

/-- Behind the first of the two sectors the load leaves what was in memory before, and reports
success. -/
theorem gappyProgram_not_loaded : ∃ M x,
    programMachine stackFrame Pmm.boot gappyProgram = some M ∧ M.disk.ErrorFree ∧
      kfsFind M.mem demoSuperblock programName = some (some 0) ∧
      fileHdr M demoSuperblock 0 = gappyProgram ∧
      uexExec M demoSuperblock programName true = some x ∧ x.result = errSuccess ∧
      ¬ LoadedExactly M demoSuperblock 0 0x200000 x := by
  have hrun : ((programMachine stackFrame Pmm.boot gappyProgram).bind fun M =>
      (uexExec M demoSuperblock programName true).map fun x =>
        (kfsFind M.mem demoSuperblock programName, fileHdr M demoSuperblock 0, x.result,
          x.machine.mem.get (0x200000 + 1000), fileByte M demoSuperblock 0 (24 + 1000))) =
      some (some (some 0), gappyProgram, errSuccess, 0#8, 0xAA#8) := by decide +kernel
  obtain ⟨M, hM, h⟩ := Option.bind_eq_some_iff.mp hrun
  obtain ⟨x, hx, h⟩ := Option.map_eq_some_iff.mp h
  simp only [Prod.mk.injEq] at h
  obtain ⟨hfind, hhdr, hok, hold, hfile⟩ := h
  refine ⟨M, x, hM, (programMachine_some hM).1, hfind, hhdr, hx, hok, fun hloaded => ?_⟩
  have himage := hloaded.image 1000 (by rw [hhdr]; decide)
  rw [hold] at himage
  exact absurd (himage.trans hfile) (by decide)

end System44
