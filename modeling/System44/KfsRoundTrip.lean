import System44.KfsFind
import System44.KfsLayout

/-!
# Reading a file back

A file is written and read by transfers whose sector count is cut to eight bits and which leave a
gap behind every sector in memory. What a write has sent from some offset of its buffer a read
delivers at the same offset, so the gaps of the one are those of the other, and nothing of the file
that lies in them comes back.
-/

namespace System44

/-- Sectors that the disk has kept read as the memory they came from. -/
theorem Drive.Written.byteAt {d d' : Drive} {first lba k buf : ℕ} {m : Mem}
    {stored : List (ℕ × Sector)}
    (h : d.Written d' first lba k (fun i => sectorAt m (buf + 1024 * i)) stored)
    (hkept : ∀ i < k, (d.reply (first + i)).kept = true) {x : ℕ} (hx : x < 512 * k) :
    d'.byteAt lba x = m.get (buf + spread x) := by
  have hmem : ((lba + x / 512) % lbaLimit, sectorAt m (buf + 1024 * (x / 512))) ∈ stored :=
    (h.mem_stored _).mpr ⟨x / 512, by omega, hkept _ (by omega), rfl⟩
  rw [Drive.byteAt, h.sector _ hmem, byte_sectorAt, Nat.add_assoc, spread]

theorem kfsWrite_byteAt {M M₁ : Machine} {sb name data len : ℕ} {size : BitVec 32} {r : ℤ}
    (hdisk : M.disk.ErrorFree) (hcount : fileCount M.mem sb < kfsMaxFiles)
    (hname : NameAt M.mem sb (fileCount M.mem sb) name len)
    (hw : kfsWrite M sb name data size = some (r, M₁)) :
    0 ≤ r ∧ M₁.disk.ErrorFree ∧ ∀ x < 512 * ((kfsSectors size).toNat % 2 ^ 8),
      M₁.disk.byteAt (nextLba M.mem sb (fileCount M.mem sb)).toNat x =
        M₁.mem.get (data + spread x) := by
  obtain ⟨-, -, r', disk, hdata, hsuper⟩ := kfsWrite_entered hcount hname hw
  obtain ⟨-, stored, hwd⟩ := ataWriteSectors_some hdata
  obtain ⟨hr, stored', hws⟩ := ataWriteSectors_some hsuper
  have hmax : fileCount M.mem sb < 8 := hcount
  obtain ⟨hsum, hbound⟩ := toNat_nextLba M.mem sb (Nat.le_of_lt hcount)
  rw [hdisk.passed] at hwd
  have hdisk' : disk.ErrorFree := hdisk.congr hwd.reply
  refine ⟨?_, ?_, ?_⟩
  · rw [hr]
    exact hdisk'.answer_nonneg.mpr (by decide)
  · exact hdisk'.congr hws.reply
  · intro x hx
    have hmod := Nat.mod_lt (kfsSectors size).toNat (y := 2 ^ 8) (by decide)
    have hpassed : disk.passed 1 ≤ 1 := streak_le ..
    rw [← hwd.byteAt (fun i _ => Reply.kept_of_taken (hdisk _)) hx, Drive.byteAt, Drive.byteAt]
    congr 1
    have hlt : (nextLba M.mem sb (fileCount M.mem sb)).toNat + x / 512 < lbaLimit := by
      unfold lbaLimit
      omega
    rw [Nat.mod_eq_of_lt hlt]
    exact hws.below (by unfold lbaLimit; omega) (Or.inr (by omega))

theorem kfsRead_written {M M₁ : Machine} {sb name data len : ℕ} {size : BitVec 32} {r : ℤ}
    (hdisk : M.disk.ErrorFree) (hcount : fileCount M.mem sb < kfsMaxFiles)
    (hname : NameAt M.mem sb (fileCount M.mem sb) name len)
    (hnew : kfsFind M.mem sb name = some none)
    (hw : kfsWrite M sb name data size = some (r, M₁)) (buf : ℕ) :
    ∃ r' M₂, kfsRead M₁ sb name buf = some (r', M₂) ∧
      (0 ≤ r' ↔ (kfsSectors size).toNat % 2 ^ 8 ≠ 0) ∧
      M₂.mem = M₁.mem.blitBlocks buf ((kfsSectors size).toNat % 2 ^ 8)
        fun x => M₁.mem.get (data + spread x) := by
  obtain ⟨he, -, -⟩ := kfsWrite_entered hcount hname hw
  obtain ⟨-, hdisk₁, hbytes⟩ := kfsWrite_byteAt hdisk hcount hname hw
  obtain ⟨⟨r', disk, mem⟩, hread⟩ := ataReadSectors_of_errorFree hdisk₁ M₁.mem
    (nextLba M.mem sb (fileCount M.mem sb)).toNat (kfsSectors size).toNat buf
  obtain ⟨hr, -, hmem⟩ := ataReadSectors_some hread
  refine ⟨r', { M₁ with mem := mem, disk := disk }, ?_, ?_, ?_⟩
  · rw [kfsRead, kfsFind_entered hcount hname hnew he, Option.bind_eq_bind, Option.bind_some]
    simp only [he.fileSize, he.startLba, hread, Option.bind_eq_bind, Option.bind_some]
  · rw [hr]
    exact hdisk₁.answer_nonneg
  · rw [hdisk₁.passed] at hmem
    rw [hmem]
    exact Mem.blitBlocks_congr _ _ hbytes

/-- A written file is read back exactly when it has sectors at all after the count has been cut to
eight bits, and whatever lies in the gaps behind those or beyond them happens to be in the reader's
buffer already. -/
theorem kfsWrite_kfsRead_iff {M M₁ : Machine} {sb name data len : ℕ} {size : BitVec 32} {r : ℤ}
    (hdisk : M.disk.ErrorFree) (hcount : fileCount M.mem sb < kfsMaxFiles)
    (hname : NameAt M.mem sb (fileCount M.mem sb) name len)
    (hnew : kfsFind M.mem sb name = some none)
    (hdata : ∀ j < size.toNat, OffSlot sb (fileCount M.mem sb) (data + j))
    (hw : kfsWrite M sb name data size = some (r, M₁)) (buf : ℕ) :
    (0 ≤ r → ∃ r' M₂, kfsRead M₁ sb name buf = some (r', M₂) ∧ 0 ≤ r' ∧
        ∀ j < size.toNat, M₂.mem.get (buf + j) = M.mem.get (data + j)) ↔
      (kfsSectors size).toNat % 2 ^ 8 ≠ 0 ∧
        ∀ j < size.toNat, ¬ InBlock ((kfsSectors size).toNat % 2 ^ 8) j →
          M₁.mem.get (buf + j) = M.mem.get (data + j) := by
  obtain ⟨r', M₂, hread, hr', hmem⟩ := kfsRead_written hdisk hcount hname hnew hw buf
  obtain ⟨he, -, -⟩ := kfsWrite_entered hcount hname hw
  obtain ⟨hr, -, -⟩ := kfsWrite_byteAt hdisk hcount hname hw
  have hsize := size.isLt
  have hmod := Nat.mod_lt (kfsSectors size).toNat (y := 2 ^ 8) (by decide)
  have hreach : blockReach ((kfsSectors size).toNat % 2 ^ 8) ≤ 2 ^ 32 := by
    unfold blockReach
    omega
  have hin : ∀ j < size.toNat, InBlock ((kfsSectors size).toNat % 2 ^ 8) j →
      M₂.mem.get (buf + j) = M.mem.get (data + j) := by
    intro j hj hblock
    rw [hmem, Mem.get_blitBlocks _ _ _ _ hreach, Mem.offset_add _ (by omega), if_pos hblock,
      spread_gather hblock, he.frame _ (hdata j hj)]
  have hout : ∀ j < size.toNat, ¬ InBlock ((kfsSectors size).toNat % 2 ^ 8) j →
      M₂.mem.get (buf + j) = M₁.mem.get (buf + j) := by
    intro j hj hgap
    rw [hmem]
    apply Mem.get_blitBlocks_of_not _ _ hreach
    rwa [Mem.offset_add _ (by omega)]
  constructor
  · intro hread''
    obtain ⟨r'', M₂', hread', hr'', hbytes⟩ := hread'' hr
    obtain ⟨rfl, rfl⟩ := Prod.mk.inj (Option.some_inj.mp (hread.symm.trans hread'))
    refine ⟨hr'.mp hr'', fun j hj hgap => ?_⟩
    rw [← hout j hj hgap, hbytes j hj]
  · rintro ⟨h0, hbytes⟩ -
    refine ⟨r', M₂, hread, hr'.mpr h0, fun j hj => ?_⟩
    by_cases hblock : InBlock ((kfsSectors size).toNat % 2 ^ 8) j
    · exact hin j hj hblock
    · rw [hout j hj hblock, hbytes j hj hblock]

theorem demoName_new : kfsFind demoVolume.mem demoSuperblock demoName = some none := by
  rw [kfsFind, demoVolume_count]
  rfl

theorem demoFile_read : ∃ r M₁,
    kfsWrite demoVolume demoSuperblock demoName demoData 500#32 = some (r, M₁) ∧
      (0 ≤ r → ∃ r' M₂, kfsRead M₁ demoSuperblock demoName 0x40000 = some (r', M₂) ∧ 0 ≤ r' ∧
        ∀ j < (500#32).toNat, M₂.mem.get (0x40000 + j) = demoVolume.mem.get (demoData + j)) := by
  obtain ⟨⟨r, M₁⟩, hw⟩ := Option.isSome_iff_exists.mp demoSector_isSome
  refine ⟨r, M₁, hw, (kfsWrite_kfsRead_iff demoVolume_errorFree demoVolume_free demoName_at
    demoName_new demoSector_apart hw 0x40000).mpr ⟨by decide, fun j hj hgap => ?_⟩⟩
  have hsectors : (kfsSectors 500#32).toNat % 2 ^ 8 = 1 := by decide
  rw [hsectors, inBlock_one] at hgap
  exact absurd (hj.trans (by decide)) hgap

/-- What `touch` creates, `cat` cannot read: a transfer of no sectors is an error. -/
theorem emptyFile_unreadable : KfsReachable demoSuperblock demoVolume ∧
    demoVolume.disk.ErrorFree ∧ fileCount demoVolume.mem demoSuperblock < kfsMaxFiles ∧
    kfsFind demoVolume.mem demoSuperblock demoName = some none ∧
    ∃ r M₁, kfsWrite demoVolume demoSuperblock demoName demoData 0#32 = some (r, M₁) ∧ 0 ≤ r ∧
      ¬ ∃ r' M₂, kfsRead M₁ demoSuperblock demoName 0x40000 = some (r', M₂) ∧ 0 ≤ r' := by
  refine ⟨demoVolume_reachable, demoVolume_errorFree, demoVolume_free, demoName_new, ?_⟩
  have hrun : ((kfsWrite demoVolume demoSuperblock demoName demoData 0#32).bind fun x =>
      (kfsRead x.2 demoSuperblock demoName 0x40000).map fun y => (x.1, y.1)) =
      some (1, errFailed) := by decide +kernel
  obtain ⟨⟨r, M₁⟩, hw, h⟩ := Option.bind_eq_some_iff.mp hrun
  obtain ⟨⟨r', M₂⟩, hread, h⟩ := Option.map_eq_some_iff.mp h
  obtain ⟨rfl, rfl⟩ := Prod.mk.inj h
  refine ⟨1, M₁, hw, by decide, ?_⟩
  rintro ⟨r'', M₂', hread', hr''⟩
  obtain ⟨rfl, -⟩ := Prod.mk.inj (Option.some_inj.mp (hread.symm.trans hread'))
  exact absurd hr'' (by decide)

end System44
