import System44.KfsLayout

/-!
# What a write has done when it returns

`kfs_write` changes the directory first and then makes two transfers, of which only the second
decides its result. Its result therefore tells what has been stored only if the disk takes every
sector, the count of the first transfer fits eight bits and the bytes that this transfer takes from
memory, stepping over 512 of them after every sector, are those of the data.
-/

namespace System44

/-- The promise of a write that is all or nothing. -/
structure AllOrNothing (M M' : Machine) (sb data : ℕ) (size : BitVec 32) (r : ℤ) : Prop where
  negative : r < 0 → ∀ x < sizeofKfsSuperblock, M'.mem.get (sb + x) = M.mem.get (sb + x)
  nonneg : 0 ≤ r → ∃ stored, M'.disk.accepted = stored ++ M.disk.accepted ∧
    (∀ i < ceilSectors size.toNat, ∃ s,
      ((startLba M'.mem sb (fileCount M.mem sb)).toNat + i, s) ∈ stored ∧
        ∀ t < 512, 512 * i + t < size.toNat → s.byte t = M.mem.get (data + (512 * i + t))) ∧
    ∃ s, (0, s) ∈ stored ∧ ∀ t < sizeofKfsSuperblock, s.byte t = M'.mem.get (sb + t)

/-- The disk takes the next `n` sectors that are written to it in one transfer, and then the sector
of another transfer. -/
def Drive.TakesAll (d : Drive) (n : ℕ) : Prop :=
  (∀ i < n, (d.reply (d.firstReply n + i)).taken = true) ∧
    (d.reply (d.firstReply n + n + 1)).taken = true

/-- The bytes that the data transfer takes, from the memory in which the file has been entered, are
the data. -/
def SentEven (m : Mem) (sb name data : ℕ) (size : BitVec 32) : Prop :=
  ∀ len, NameAt m sb (fileCount m sb) name len →
    ∀ x < size.toNat, (entryAdded m sb name len size).get (data + spread x) = m.get (data + x)

theorem kfsSectors_of_le {size : BitVec 32} (h : ceilSectors size.toNat ≤ 255) :
    (kfsSectors size).toNat = ceilSectors size.toNat := by
  have hsize := size.isLt
  apply toNat_kfsSectors_of_small
  unfold ceilSectors at h
  unfold SmallSize
  omega

def Drive.lastReply (d : Drive) (n : ℕ) : Reply := d.reply (d.firstReply n + d.passed n + 1)

/-- What a write returns, and what the disk has kept of its two transfers. -/
theorem kfsWrite_transfers {M M' : Machine} {sb name data len : ℕ} {size : BitVec 32} {r : ℤ}
    (hcount : fileCount M.mem sb < kfsMaxFiles)
    (hname : NameAt M.mem sb (fileCount M.mem sb) name len)
    (h : kfsWrite M sb name data size = some (r, M')) :
    (0 ≤ r ↔ (M.disk.lastReply (kfsSectors size).toNat).good = true) ∧
    ∃ stored stored', M'.disk.accepted = (stored' ++ stored) ++ M.disk.accepted ∧
      (∀ x, x ∈ stored ↔ ∃ i < M.disk.passed (kfsSectors size).toNat,
        (M.disk.reply (M.disk.firstReply (kfsSectors size).toNat + i)).kept = true ∧
        x = ((nextLba M.mem sb (fileCount M.mem sb)).toNat + i,
          sectorAt M'.mem (data + 1024 * i))) ∧
      ∀ x, x ∈ stored' ↔ (M.disk.lastReply (kfsSectors size).toNat).taken = true ∧
        x = (0, sectorAt M'.mem sb) := by
  obtain ⟨-, -, r', disk, hwrite, hsuper⟩ := kfsWrite_entered hcount hname h
  obtain ⟨-, stored, hwd⟩ := ataWriteSectors_some hwrite
  obtain ⟨hr, stored', hws⟩ := ataWriteSectors_some hsuper
  have hlast : M.disk.lastReply (kfsSectors size).toNat = disk.reply (disk.serial + 1) := by
    rw [Drive.lastReply, hwd.reply, hwd.serial]
  have hmax : fileCount M.mem sb < 8 := hcount
  have hbound := (toNat_nextLba M.mem sb (Nat.le_of_lt hcount)).2
  have hpassed : M.disk.passed (kfsSectors size).toNat < 2 ^ 8 :=
    (streak_le ..).trans_lt (Nat.mod_lt _ (by decide))
  rw [hlast]
  refine ⟨by rw [hr, answer_one_nonneg], stored, stored', ?_,
    hwd.mem_iff (by unfold lbaLimit; omega), fun x => ?_⟩
  · rw [hws.accepted, hwd.accepted, List.append_assoc]
  · rw [hws.mem_iff (by rw [passed_one]; unfold lbaLimit; split <;> decide), passed_one,
      Reply.taken]
    cases hgood : (disk.reply (disk.serial + 1)).good with
    | false => simp
    | true =>
        rw [if_pos rfl]
        constructor
        · rintro ⟨i, hi, hkept, hx⟩
          obtain rfl : i = 0 := by omega
          exact ⟨hkept, hx⟩
        · rintro ⟨hkept, hx⟩
          exact ⟨0, Nat.one_pos, hkept, hx⟩

theorem passed_of_takesAll {d : Drive} {n : ℕ} (hn : n ≤ 255) (h : d.TakesAll n) :
    d.passed n = n := by
  have hmod : n % 2 ^ 8 = n := Nat.mod_eq_of_lt (by omega)
  rw [Drive.passed, hmod]
  exact streak_eq_iff.mpr fun i hi => Reply.good_of_taken (h.1 i hi)

section

variable {M M' : Machine} {sb name data len : ℕ} {size : BitVec 32} {r : ℤ}
  (hcount : fileCount M.mem sb < kfsMaxFiles)
  (hname : NameAt M.mem sb (fileCount M.mem sb) name len)
  (h : kfsWrite M sb name data size = some (r, M'))

include hcount hname h

omit hname in
theorem sentEven_of_le (hsize : size.toNat ≤ 512)
    (hdata : ∀ j < size.toNat, OffSlot sb (fileCount M.mem sb) (data + j)) :
    SentEven M.mem sb name data size := by
  intro len hname x hx
  rw [spread_of_lt (by omega), ← kfsWrite_mem hcount hname h]
  exact (kfsWrite_entered hcount hname h).1.frame _ (hdata x hx)

theorem allOrNothing_of_takesAll (hsent : SentEven M.mem sb name data size)
    (hn : ceilSectors size.toNat ≤ 255) (htakes : M.disk.TakesAll (ceilSectors size.toNat)) :
    AllOrNothing M M' sb data size r := by
  obtain ⟨he, -, -⟩ := kfsWrite_entered hcount hname h
  obtain ⟨hr, stored, stored', haccepted, hmem, hmem'⟩ := kfsWrite_transfers hcount hname h
  have hpassed := passed_of_takesAll hn htakes
  rw [kfsSectors_of_le hn] at hr hmem hmem'
  have hlast : (M.disk.lastReply (ceilSectors size.toNat)).taken = true := by
    rw [Drive.lastReply, hpassed]
    exact htakes.2
  have hr0 : 0 ≤ r := hr.mpr (Reply.good_of_taken hlast)
  refine ⟨fun hneg => absurd hr0 (by omega), fun _ => ⟨stored' ++ stored, haccepted, ?_, ?_⟩⟩
  · intro i hi
    refine ⟨sectorAt M'.mem (data + 1024 * i), List.mem_append_right _ ((hmem _).mpr ?_), ?_⟩
    · rw [hpassed, he.startLba]
      exact ⟨i, hi, Reply.kept_of_taken (htakes.1 i hi), rfl⟩
    · intro t ht hlt
      rw [byte_sectorAt_spread ht, kfsWrite_mem hcount hname h]
      exact hsent len hname _ hlt
  · refine ⟨sectorAt M'.mem sb, List.mem_append_left _ ((hmem' _).mpr ⟨hlast, rfl⟩), ?_⟩
    intro t ht
    rw [byte_sectorAt, Nat.mod_eq_of_lt (by unfold sizeofKfsSuperblock at ht; omega)]

theorem takesAll_of_allOrNothing (hall : AllOrNothing M M' sb data size r) :
    ceilSectors size.toNat ≤ 255 ∧ M.disk.TakesAll (ceilSectors size.toNat) ∧
      SentEven M.mem sb name data size := by
  obtain ⟨he, -, -⟩ := kfsWrite_entered hcount hname h
  obtain ⟨-, stored, stored', haccepted, hmem, hmem'⟩ := kfsWrite_transfers hcount hname h
  -- a failure would have had to leave `file_count` as it was
  have hr0 : 0 ≤ r := by
    by_contra hneg
    have hword : M'.mem.load32 (sb + 4) = M.mem.load32 (sb + 4) := by
      apply Mem.load32_congr
      intro i hi
      rw [Nat.add_assoc]
      exact hall.negative (by omega) _ (by unfold sizeofKfsSuperblock; omega)
    have hsame : fileCount M'.mem sb = fileCount M.mem sb := congrArg BitVec.toNat hword
    rw [he.fileCount] at hsame
    omega
  obtain ⟨all, hall', hsectors, s₀, hs₀, -⟩ := hall.nonneg hr0
  obtain rfl := List.append_cancel_right (hall'.symm.trans haccepted)
  have hpos : 1 ≤ (nextLba M.mem sb (fileCount M.mem sb)).toNat := by
    rw [(toNat_nextLba M.mem sb (Nat.le_of_lt hcount)).1]
    omega
  have hlast : (M.disk.lastReply (kfsSectors size).toNat).taken = true := by
    rcases List.mem_append.mp hs₀ with hs | hs
    · exact ((hmem' _).mp hs).1
    · obtain ⟨i, -, -, hx⟩ := (hmem _).mp hs
      have := congrArg Prod.fst hx
      simp only at this
      omega
  have hkept : ∀ i < ceilSectors size.toNat, i < M.disk.passed (kfsSectors size).toNat ∧
      (M.disk.reply (M.disk.firstReply (kfsSectors size).toNat + i)).kept = true ∧
      ∀ t < 512, 512 * i + t < size.toNat →
        (sectorAt M'.mem (data + 1024 * i)).byte t = M.mem.get (data + (512 * i + t)) := by
    intro i hi
    obtain ⟨s, hs, hbytes⟩ := hsectors i hi
    rw [he.startLba] at hs
    rcases List.mem_append.mp hs with hs | hs
    · have := congrArg Prod.fst ((hmem' _).mp hs).2
      simp only at this
      omega
    · obtain ⟨j, hj, hk, hx⟩ := (hmem _).mp hs
      obtain ⟨hij, rfl⟩ := Prod.mk.inj hx
      obtain rfl : i = j := by omega
      exact ⟨hj, hk, hbytes⟩
  have hle : M.disk.passed (kfsSectors size).toNat ≤ (kfsSectors size).toNat % 2 ^ 8 :=
    streak_le ..
  have hn : ceilSectors size.toNat ≤ M.disk.passed (kfsSectors size).toNat := by
    rcases Nat.eq_zero_or_pos (ceilSectors size.toNat) with h0 | hpos
    · omega
    · have := (hkept (ceilSectors size.toNat - 1) (by omega)).1
      omega
  have hn255 : ceilSectors size.toNat ≤ 255 := by omega
  rw [kfsSectors_of_le hn255] at hlast hkept hle hn
  have hpassed : M.disk.passed (ceilSectors size.toNat) = ceilSectors size.toNat := by omega
  refine ⟨hn255, ⟨fun i hi => ?_, ?_⟩, fun len' hname' x hx => ?_⟩
  · obtain ⟨hi', hk, -⟩ := hkept i hi
    exact Bool.and_eq_true_iff.mpr ⟨good_of_lt_streak hi', hk⟩
  · rw [Drive.lastReply, hpassed] at hlast
    exact hlast
  · obtain ⟨-, -, hbytes⟩ := hkept (x / 512) (by unfold ceilSectors; omega)
    have hx' := hbytes (x % 512) (Nat.mod_lt _ (by decide)) (by rwa [Nat.div_add_mod])
    rw [byte_sectorAt_spread (Nat.mod_lt _ (by decide)), Nat.div_add_mod] at hx'
    rw [← kfsWrite_mem hcount hname' h, hx']

end

/-- Either the volume is full and nothing happens, or the write keeps its promise exactly when the
data needs at most 255 sectors, the disk takes them all and the superblock, and what it is sent is
the data. -/
theorem kfsWrite_allOrNothing_iff {M M' : Machine} {sb name data : ℕ} {size : BitVec 32} {r : ℤ}
    (hname : NameOk M.mem sb name) (h : kfsWrite M sb name data size = some (r, M')) :
    AllOrNothing M M' sb data size r ↔ kfsMaxFiles ≤ fileCount M.mem sb ∨
      ceilSectors size.toNat ≤ 255 ∧ M.disk.TakesAll (ceilSectors size.toNat) ∧
        SentEven M.mem sb name data size := by
  rcases Nat.lt_or_ge (fileCount M.mem sb) kfsMaxFiles with hcount | hfull
  · obtain ⟨len, hname⟩ := hname hcount
    constructor
    · intro hall
      exact Or.inr (takesAll_of_allOrNothing hcount hname h hall)
    · rintro (hfull | ⟨hn, htakes, hsent⟩)
      · omega
      · exact allOrNothing_of_takesAll hcount hname h hsent hn htakes
  · obtain ⟨rfl, rfl⟩ := kfsWrite_full hfull h
    exact iff_of_true ⟨fun _ _ _ => rfl, fun h0 => absurd h0 (by decide)⟩ (Or.inl hfull)

theorem demoFile_allOrNothing : ∃ r M,
    kfsWrite demoVolume demoSuperblock demoName demoData 500#32 = some (r, M) ∧
      AllOrNothing demoVolume M demoSuperblock demoData 500#32 r := by
  obtain ⟨⟨r, M⟩, hw⟩ := Option.isSome_iff_exists.mp demoSector_isSome
  have hsent : SentEven demoVolume.mem demoSuperblock demoName demoData 500#32 :=
    sentEven_of_le demoVolume_free hw (by decide) demoSector_apart
  exact ⟨r, M, hw, (kfsWrite_allOrNothing_iff demoName_ok hw).mpr (Or.inr
    ⟨by decide, ⟨fun _ _ => demoVolume_errorFree _, demoVolume_errorFree _⟩, hsent⟩)⟩

/-- The disk of `demoMachine`, except that the first sector sent to it after a volume has been made
is refused. -/
def refusingMachine : Machine :=
  { demoMachine with
    disk := { steadyDisk with
      reply := fun n => if n = 3 then ⟨0, 0, true, true, false⟩ else ⟨0, 0, true, false, true⟩ } }

def refusingMkfs : ℤ × Machine :=
  (kfsMkfs refusingMachine demoSuperblock).get (by decide +kernel)

def refusingVolume : Machine := refusingMkfs.2

theorem refusingVolume_reachable : KfsReachable demoSuperblock refusingVolume := by
  have hmkfs : kfsMkfs refusingMachine demoSuperblock = some refusingMkfs :=
    (Option.some_get _).symm
  exact .mkfs hmkfs

/-- A file whose data is refused is entered all the same and reported as written, and an empty file
whose superblock is refused is reported as failed and stays entered. -/
theorem refusingVolume_not_allOrNothing : KfsReachable demoSuperblock refusingVolume ∧
    (∃ r M, kfsWrite refusingVolume demoSuperblock demoName demoData 600#32 = some (r, M) ∧
      ¬ AllOrNothing refusingVolume M demoSuperblock demoData 600#32 r) ∧
    ∃ r M, kfsWrite refusingVolume demoSuperblock demoName demoData 0#32 = some (r, M) ∧
      ¬ AllOrNothing refusingVolume M demoSuperblock demoData 0#32 r := by
  refine ⟨refusingVolume_reachable, ?_, ?_⟩
  · have hrun : (kfsWrite refusingVolume demoSuperblock demoName demoData 600#32).map
        (fun x => (x.1, x.2.disk.accepted.map Prod.fst,
          startLba x.2.mem demoSuperblock (fileCount refusingVolume.mem demoSuperblock))) =
        some (1, [0, 0], 1#32) := by decide +kernel
    obtain ⟨⟨r, M⟩, hw, hx⟩ := Option.map_eq_some_iff.mp hrun
    simp only [Prod.mk.injEq] at hx
    obtain ⟨rfl, haccepted, hlba⟩ := hx
    refine ⟨1, M, hw, fun hall => ?_⟩
    obtain ⟨stored, hstored, hsectors, -⟩ := hall.nonneg (by decide)
    obtain ⟨s, hs, -⟩ := hsectors 0 (by decide)
    have hmem : ((startLba M.mem demoSuperblock
        (fileCount refusingVolume.mem demoSuperblock)).toNat + 0) ∈
        M.disk.accepted.map Prod.fst := by
      rw [hstored]
      exact List.mem_map_of_mem (List.mem_append_left _ hs)
    rw [haccepted, hlba] at hmem
    exact absurd hmem (by decide)
  · have hrun : (kfsWrite refusingVolume demoSuperblock demoName demoData 0#32).map
        (fun x => (x.1, x.2.mem.get (demoSuperblock + 4),
          refusingVolume.mem.get (demoSuperblock + 4))) = some (-1, 1#8, 0#8) := by decide +kernel
    obtain ⟨⟨r, M⟩, hw, hx⟩ := Option.map_eq_some_iff.mp hrun
    simp only [Prod.mk.injEq] at hx
    obtain ⟨rfl, hnew, hold⟩ := hx
    refine ⟨-1, M, hw, fun hall => ?_⟩
    have hsame := hall.negative (by decide) 4 (by decide)
    rw [hnew, hold] at hsame
    exact absurd hsame (by decide)

end System44
