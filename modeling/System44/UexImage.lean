import System44.UexFile

/-!
# The image in memory

A call that has found a place for the program stores there what the disk delivers of it, sector by
sector with gaps between them: all sectors and the zeros if the transfer succeeds, and the first
ones if it fails.
-/

namespace System44

/-- How many sectors behind the first one the disk delivers. -/
def sectorsDelivered (M : Machine) (hdr : UexHdr) : ℕ :=
  streak M.disk.reply (M.disk.serial + 3) (uexSectors hdr % 2 ^ 8)

/-- Where the image begins. -/
def imageBase (M : Machine) (sb i : ℕ) : ℕ := (uexDest M.mem M.pmm (fileHdr M sb i)).2.2

def RestRead (M : Machine) (hdr : UexHdr) : Prop :=
  hdr.fileSize.toNat ≤ firstChunk ∨
    uexSectors hdr % 2 ^ 8 ≠ 0 ∧ sectorsDelivered M hdr = uexSectors hdr % 2 ^ 8

instance (M : Machine) (hdr : UexHdr) : Decidable (RestRead M hdr) :=
  inferInstanceAs (Decidable (_ ∨ _))

/-- The byte that is stored `j` behind the beginning of the image, the last one if it is stored to
twice. -/
def imageByte (M : Machine) (sb i j : ℕ) : Byte :=
  if RestRead M (fileHdr M sb i) ∧ (fileHdr M sb i).Zeroes j then 0#8
  else if j < firstChunk then fileByte M sb i (sizeofUexHdr + j)
  else M.disk.byteAt (restLba M sb i).toNat (gather (j - firstChunk))

/-- The driver does not wait for ever for one of the other sectors. -/
def RestReturns (M : Machine) (hdr : UexHdr) : Prop :=
  sectorsDelivered M hdr = uexSectors hdr % 2 ^ 8 ∨
    (M.disk.reply (M.disk.serial + 3 + sectorsDelivered M hdr)).drq = true

def Arrives (M : Machine) (sb i j : ℕ) : Prop :=
  j < min (fileHdr M sb i).fileSize.toNat firstChunk ∨
    firstChunk ≤ j ∧ InBlock (sectorsDelivered M (fileHdr M sb i)) (j - firstChunk) ∨
    RestRead M (fileHdr M sb i) ∧ (fileHdr M sb i).Zeroes j

def afterRest (M : Machine) (sb i : ℕ) : Mem :=
  afterSectors (afterChunk (uexDest M.mem M.pmm (fileHdr M sb i)).1 (fileHdr M sb i)
    (imageBase M sb i) (fileByte M sb i)) (imageBase M sb i)
    (sectorsDelivered M (fileHdr M sb i)) (M.disk.byteAt (restLba M sb i).toNat)

/-- What a call leaves that has found a place for the program. -/
structure UexLoaded (M : Machine) (sb i : ℕ) (wanted : Bool) (x : UexExit) : Prop where
  mem_eq : x.machine.mem = if RestRead M (fileHdr M sb i) then
    afterZeros (afterRest M sb i) (fileHdr M sb i) (imageBase M sb i) else afterRest M sb i
  pmm_eq : x.machine.pmm = (uexDest M.mem M.pmm (fileHdr M sb i)).2.1
  result_iff : x.result = errSuccess ↔ RestRead M (fileHdr M sb i)
  alloc_eq : x.alloc =
    if wanted then some (uexAlloc (fileHdr M sb i) (imageBase M sb i)) else none
  entry_eq : RestRead M (fileHdr M sb i) →
    x.entry = some (uexEntry (fileHdr M sb i) (imageBase M sb i))

section

variable {M : Machine} {sb name i : ℕ} {wanted : Bool} {x : UexExit}

theorem sectorsDelivered_lt (M : Machine) (hdr : UexHdr) : sectorsDelivered M hdr < 2 ^ 8 :=
  (streak_le ..).trans_lt (Nat.mod_lt _ (by decide))

theorem passed_eq_sectorsDelivered {disk : Drive} (h : M.disk.Unwritten disk (M.disk.serial + 2))
    (hdr : UexHdr) : disk.passed (uexSectors hdr) = sectorsDelivered M hdr := by
  rw [passed_eq, h.reply, h.serial, sectorsDelivered]

theorem restRead_iff {disk : Drive} (h : M.disk.Unwritten disk (M.disk.serial + 2))
    (hdr : UexHdr) :
    RestRead M hdr ↔ hdr.fileSize.toNat ≤ firstChunk ∨ 0 ≤ disk.answer (uexSectors hdr) := by
  have hanswer : 0 ≤ disk.answer (uexSectors hdr) ↔
      uexSectors hdr % 2 ^ 8 ≠ 0 ∧ sectorsDelivered M hdr = uexSectors hdr % 2 ^ 8 := by
    rw [Drive.answer, passed_eq_sectorsDelivered h]
    split
    · rename_i hdone
      exact iff_of_true (Int.natCast_nonneg _) hdone
    · rename_i hnot
      exact iff_of_false (by decide) hnot
  rw [RestRead, hanswer]

theorem uexExec_loaded (hfind : kfsFind M.mem sb name = some (some i))
    (hready : UexReady M sb i) (h : uexExec M sb name wanted = some x) :
    UexLoaded M sb i wanted x := by
  obtain ⟨hnot, -⟩ | ⟨disk, disk', secbuf, hunw, hbytes, hload, hpmm, halloc, hentry⟩ :=
    uexExec_some hfind h
  · exact absurd hready hnot
  · have hread := restRead_iff hunw (fileHdr M sb i)
    obtain ⟨m₂, hm₂, hcases⟩ := uexLoad_some hload
    have hrest : m₂ = afterRest M sb i := by
      rw [hm₂, passed_eq_sectorsDelivered hunw, afterChunk_congr _ _ _ hbytes, hunw.byteAt]
      rfl
    rw [← hread] at hcases
    rcases hcases with ⟨hr, hmem, hok⟩ | ⟨hr, hmem, hbad⟩
    · refine ⟨?_, hpmm, iff_of_true hr hok, halloc, fun _ => hentry hr⟩
      rw [hmem, hrest, if_pos hok]
      rfl
    · refine ⟨?_, hpmm, iff_of_false ?_ hbad, halloc, fun hok => absurd hok hbad⟩
      · rw [hmem, hrest, if_neg hbad]
      · rw [hr]
        decide

theorem uexExec_loaded_of_success (hfind : kfsFind M.mem sb name = some (some i))
    (h : uexExec M sb name wanted = some x) (hok : x.result = errSuccess) :
    UexLoaded M sb i wanted x ∧ RestRead M (fileHdr M sb i) := by
  by_cases hready : UexReady M sb i
  · have hloaded := uexExec_loaded hfind hready h
    exact ⟨hloaded, hloaded.result_iff.mp hok⟩
  · exact absurd hok (uexExec_not_ready hfind hready h).1

theorem uexLoad_isSome_iff {m : Mem} {disk : Drive} {dest : ℕ} {hdr : UexHdr} {secbuf : Mem} :
    (uexLoad m disk sb i hdr secbuf dest).isSome ↔ disk.Returns (uexSectors hdr) := by
  rw [uexLoad, copied_eq]
  by_cases hle : hdr.fileSize.toNat ≤ firstChunk
  · have hnone : ¬ min hdr.fileSize.toNat firstChunk < hdr.fileSize.toNat := by omega
    have hreturns : disk.Returns (uexSectors hdr) := by
      rw [uexSectors_of_le hle]
      exact Drive.returns_refused rfl
    rw [if_neg hnone, Option.bind_eq_bind, Option.bind_some]
    refine iff_of_true ?_ hreturns
    dsimp only
    split
    · rfl
    · split <;> rfl
  · have hlt : min hdr.fileSize.toNat firstChunk < hdr.fileSize.toNat := by omega
    have hmin : min hdr.fileSize.toNat firstChunk = firstChunk := by omega
    rw [if_pos hlt, hmin, uexSectors, ← ataReadSectors_isSome_iff, Option.bind_eq_bind]
    cases ataReadSectors _ _ _ _ _ with
    | none => exact Iff.rfl
    | some out =>
        rw [Option.bind_some]
        refine iff_of_true ?_ rfl
        dsimp only
        split
        · rfl
        · split <;> rfl

theorem restReturns_iff {disk : Drive} (h : M.disk.Unwritten disk (M.disk.serial + 2))
    (hdr : UexHdr) : RestReturns M hdr ↔ disk.Returns (uexSectors hdr) := by
  rw [RestReturns, Drive.Returns, passed_eq_sectorsDelivered h, h.reply, Drive.firstReply, h.serial]
  split
  · rename_i h0
    have hnone : sectorsDelivered M hdr = uexSectors hdr % 2 ^ 8 := by
      rw [sectorsDelivered, h0, streak]
    exact iff_of_true (Or.inl hnone) (Or.inl hnone)
  · exact Iff.rfl

theorem uexExec_isSome_iff (wanted : Bool) (hfind : kfsFind M.mem sb name = some (some i))
    (hready : UexReady M sb i) :
    (uexExec M sb name wanted).isSome ↔ RestReturns M (fileHdr M sb i) := by
  obtain ⟨disk, secbuf, hunw, -, hrun⟩ := uexExec_of_ready wanted hfind hready
  rw [restReturns_iff hunw, hrun, ← uexLoad_isSome_iff]
  cases uexLoad _ _ _ _ _ _ _ with
  | none => exact Iff.rfl
  | some out =>
      rw [Option.bind_some]
      refine iff_of_true ?_ rfl
      dsimp only
      split <;> rfl

theorem Arrives.lt {j : ℕ} (h : Arrives M sb i j) : j < 2 ^ 32 := by
  have hfile := (fileHdr M sb i).fileSize.isLt
  have hmem := (fileHdr M sb i).memSize.isLt
  have hsectors := sectorsDelivered_lt M (fileHdr M sb i)
  unfold Arrives firstChunk sizeofUexHdr InBlock UexHdr.Zeroes at h
  omega

theorem RestRead.sectorsDelivered_eq {hdr : UexHdr} (h : RestRead M hdr) :
    sectorsDelivered M hdr = uexSectors hdr % 2 ^ 8 := by
  rcases h with hle | ⟨-, hall⟩
  · rw [sectorsDelivered, uexSectors_of_le hle]
    rfl
  · exact hall

theorem get_afterRest (M : Machine) (sb i : ℕ) {j : ℕ} (hj : j < 2 ^ 32) :
    (afterRest M sb i).get (imageBase M sb i + j) =
      if j < min (fileHdr M sb i).fileSize.toNat firstChunk then
        fileByte M sb i (sizeofUexHdr + j)
      else if firstChunk ≤ j ∧ InBlock (sectorsDelivered M (fileHdr M sb i)) (j - firstChunk) then
        M.disk.byteAt (restLba M sb i).toNat (gather (j - firstChunk))
      else (uexDest M.mem M.pmm (fileHdr M sb i)).1.get (imageBase M sb i + j) := by
  have ht := sectorsDelivered_lt M (fileHdr M sb i)
  rw [afterRest]
  by_cases hchunk : j < min (fileHdr M sb i).fileSize.toNat firstChunk
  · rw [if_pos hchunk, get_afterSectors_of _ _ _ ht (by omega) hj,
      get_afterChunk _ _ _ _ (by omega) (by omega)]
  · rw [if_neg hchunk]
    by_cases hsectors : firstChunk ≤ j ∧
        InBlock (sectorsDelivered M (fileHdr M sb i)) (j - firstChunk)
    · rw [if_pos hsectors, get_afterSectors _ _ _ ht hsectors.1 hsectors.2]
    · rw [if_neg hsectors, get_afterSectors_of _ _ _ ht (fun hle hb => hsectors ⟨hle, hb⟩) hj,
        get_afterChunk_of_le _ _ _ _ (by omega) hj]

/-- What is in memory after a call that has found a place for the program. -/
theorem UexLoaded.get (h : UexLoaded M sb i wanted x) {j : ℕ} (hj : j < 2 ^ 32) :
    (Arrives M sb i j → x.machine.mem.get (imageBase M sb i + j) = imageByte M sb i j) ∧
    (¬ Arrives M sb i j → x.machine.mem.get (imageBase M sb i + j) =
      (uexDest M.mem M.pmm (fileHdr M sb i)).1.get (imageBase M sb i + j)) := by
  rw [h.mem_eq]
  by_cases hzero : RestRead M (fileHdr M sb i) ∧ (fileHdr M sb i).Zeroes j
  · obtain ⟨hread, hlo, hhi⟩ := hzero
    rw [if_pos hread, get_afterZeros _ _ _ hlo hhi, imageByte, if_pos ⟨hread, hlo, hhi⟩]
    exact ⟨fun _ => rfl, fun hnot => absurd (Or.inr (Or.inr ⟨hread, hlo, hhi⟩)) hnot⟩
  · have hmem : (if RestRead M (fileHdr M sb i) then
        afterZeros (afterRest M sb i) (fileHdr M sb i) (imageBase M sb i)
        else afterRest M sb i).get (imageBase M sb i + j) =
        (afterRest M sb i).get (imageBase M sb i + j) := by
      split
      · rename_i hread
        have hnot : ¬ (fileHdr M sb i).Zeroes j := fun hin => hzero ⟨hread, hin⟩
        exact get_afterZeros_of _ _ _ (by unfold UexHdr.Zeroes at hnot; omega) hj
      · rfl
    rw [hmem, get_afterRest M sb i hj]
    constructor
    · intro harrives
      rw [imageByte, if_neg hzero]
      rcases harrives with hchunk | ⟨hlo, hin⟩ | hright
      · rw [if_pos hchunk, if_pos (by omega)]
      · rw [if_neg (by omega), if_pos ⟨hlo, hin⟩, if_neg (by omega)]
      · exact absurd hright hzero
    · intro hnot
      rw [Arrives, not_or, not_or] at hnot
      rw [if_neg hnot.1, if_neg hnot.2.1]

end

end System44
