import System44.Extents
import System44.Genkfs

/-!
# The layout of a volume

The image builder and `kfs_write` compute the position of a file by two different loops. Both place
it behind the files before it, so the directory of every volume is a layout in the sense of
`Extents`, whatever becomes of the disk writes, and a write goes to the end of it.
-/

namespace System44

/-- The sectors a file needs. -/
def ceilSectors (size : ℕ) : ℕ := (size + 511) / 512

def fileSectors (m : Mem) (sb j : ℕ) : ℕ := ceilSectors (fileSize m sb j).toNat

def fileExtent (m : Mem) (sb i : ℕ) : Set ℕ :=
  Set.Ico (startLba m sb i).toNat ((startLba m sb i).toNat + fileSectors m sb i)

def SmallSize (size : ℕ) : Prop := size + 511 < 2 ^ 32

/-- The arguments of a write leave the directory alone until it copies the name. -/
def NameOk (m : Mem) (sb name : ℕ) : Prop :=
  fileCount m sb < kfsMaxFiles → ∃ len, NameAt m sb (fileCount m sb) name len

/-- Every byte of the image is on the disk. -/
def Drive.Holds (d : Drive) (img : List Byte) : Prop :=
  ∀ x < img.length, d.byteAt 0 x = img.getD x 0#8

/-- A volume that was made or mounted and then written to. In between, the rest of the kernel may
use its own memory and may read the disk. -/
inductive KfsReachable (sb : ℕ) : Machine → Prop
  | mkfs {M M' : Machine} {r : ℤ} : kfsMkfs M sb = some (r, M') → KfsReachable sb M'
  | mount {M M' : Machine} {r : ℤ} {dir : List HostFile} {img : List Byte} :
      (∀ f ∈ dir.take kfsMaxFiles, SmallSize f.size) → genkfs dir = some img →
      M.disk.Holds img → kfsMount M sb = some (.ok (r, M')) → KfsReachable sb M'
  | write {M M' : Machine} {name data : ℕ} {size : BitVec 32} {r : ℤ} : KfsReachable sb M →
      NameOk M.mem sb name → SmallSize size.toNat →
      kfsWrite M sb name data size = some (r, M') → KfsReachable sb M'
  | elsewhere {M M' : Machine} {n : ℕ} : KfsReachable sb M →
      (∀ x < sizeofKfsSuperblock, M'.mem.get (sb + x) = M.mem.get (sb + x)) →
      M.disk.Unwritten M'.disk n → KfsReachable sb M'

/-- The directory is a layout. -/
structure Layout (m : Mem) (sb : ℕ) : Prop where
  count_le : fileCount m sb ≤ kfsMaxFiles
  start_eq : ∀ i < fileCount m sb, (startLba m sb i).toNat = Extents.start 1 (fileSectors m sb) i
  small : ∀ i < fileCount m sb, SmallSize (fileSize m sb i).toNat

theorem toNat_kfsSectors_of_small {size : BitVec 32} (h : SmallSize size.toNat) :
    (kfsSectors size).toNat = ceilSectors size.toNat := by
  rw [toNat_kfsSectors, ceilSectors, Nat.mod_eq_of_lt h]

theorem load32_of_word {m : Mem} {sb x n : ℕ} {bytes : List Byte} {v : BitVec 32}
    (hm : ∀ y < n, m.get (sb + y) = bytes.getD y 0#8) (hx : x + 4 ≤ n)
    (h : WordAt bytes x v) : m.load32 (sb + x) = v := by
  rw [← leWord_leBytes v]
  apply leWord_congr
  intro t ht
  rw [Nat.add_assoc, hm _ (by omega), h t ht]

theorem layout_mkfs {M M' : Machine} {sb : ℕ} {r : ℤ} (h : kfsMkfs M sb = some (r, M')) :
    Layout M'.mem sb := by
  obtain ⟨⟨r', disk⟩, -, h⟩ := Option.bind_eq_some_iff.mp h
  obtain ⟨-, rfl⟩ := Prod.mk.inj (Option.some_inj.mp h)
  have hzero : fileCount ((M.mem.blit sb sizeofKfsSuperblock fun _ => 0#8).store32 sb kfsMagic) sb =
      0 := by
    have hword : ((M.mem.blit sb sizeofKfsSuperblock fun _ => 0#8).store32 sb kfsMagic).load32
        (sb + 4) = leWord fun _ => 0#8 := by
      apply leWord_congr
      intro i hi
      have ho : Mem.offset sb (sb + (4 + i)) = 4 + i := Mem.offset_add sb (by omega)
      rw [Nat.add_assoc, Mem.get_store32_of_le _ _ (by omega)]
      exact Mem.get_blit_add _ _ _ (by decide) (by unfold sizeofKfsSuperblock; omega)
    rw [fileCount, hword]
    rfl
  constructor
  · rw [hzero]
    exact Nat.zero_le _
  · intro i hi
    rw [hzero] at hi
    exact absurd hi (Nat.not_lt_zero i)
  · intro i hi
    rw [hzero] at hi
    exact absurd hi (Nat.not_lt_zero i)

theorem kfsMkfs_errorFree {M M' : Machine} {sb : ℕ} {r : ℤ}
    (h : kfsMkfs M sb = some (r, M')) (hdisk : M.disk.ErrorFree) : M'.disk.ErrorFree := by
  obtain ⟨⟨r', disk⟩, hwrite, h⟩ := Option.bind_eq_some_iff.mp h
  obtain ⟨-, rfl⟩ := Prod.mk.inj (Option.some_inj.mp h)
  obtain ⟨-, stored, hw⟩ := ataWriteSectors_some hwrite
  exact hdisk.congr hw.reply

/-- A mount that succeeds has copied the first sector over the superblock. -/
theorem kfsMount_some {M M' : Machine} {sb : ℕ} {r : ℤ}
    (h : kfsMount M sb = some (.ok (r, M'))) :
    M'.mem = M.mem.blit sb 512 (M.disk.byteAt 0) ∧ ∃ n, M.disk.Unwritten M'.disk n := by
  obtain ⟨⟨r', disk, mem⟩, hread, h⟩ := Option.bind_eq_some_iff.mp h
  obtain ⟨hr, hunw, hmem⟩ := ataReadSectors_some hread
  by_cases hneg : r' < 0
  · simp [hneg] at h
  · have hpassed : M.disk.passed 1 = 1 := by
      by_contra hne
      rw [Drive.answer, if_neg fun hc => hne hc.2] at hr
      rw [hr] at hneg
      exact hneg (by decide)
    rw [hpassed] at hmem
    by_cases hmagic : magic mem sb = kfsMagic
    · obtain ⟨-, rfl⟩ : errSuccess = r ∧ { M with mem := mem, disk := disk } = M' := by
        simpa [hneg, hmagic] using h
      exact ⟨hmem, _, hunw⟩
    · simp [hneg, hmagic] at h

def HoldsSuperblock (m : Mem) (sb : ℕ) (img : List Byte) : Prop :=
  ∀ y < sizeofKfsSuperblock, m.get (sb + y) = img.getD y 0#8

theorem kfsMount_holdsSuperblock {M M' : Machine} {sb : ℕ} {r : ℤ} {img : List Byte}
    (hfits : 512 ≤ img.length) (hdisk : M.disk.Holds img)
    (h : kfsMount M sb = some (.ok (r, M'))) : HoldsSuperblock M'.mem sb img := by
  intro y hy
  have hlt : y < 512 := hy.trans_le (by decide)
  rw [(kfsMount_some h).1, Mem.get_blit_add _ _ _ (by decide) hlt, hdisk y (hlt.trans_le hfits)]

section

variable {m : Mem} {sb i : ℕ} {files : List HostFile} {img : List Byte}
  (hof : ImageOf files img) (hm : HoldsSuperblock m sb img)

include hof hm

theorem ImageOf.fileCount_eq : System44.fileCount m sb = files.length := by
  have hmax : files.length ≤ 8 := hof.le_max
  rw [System44.fileCount, load32_of_word hm (by decide) hof.fileCount, BitVec.toNat_ofNat]
  exact Nat.mod_eq_of_lt (by omega)

theorem ImageOf.fileSize_eq (hi : i < files.length) :
    (System44.fileSize m sb i).toNat = files[i].size := by
  have hmax : files.length ≤ 8 := hof.le_max
  obtain ⟨hlt, hword⟩ := hof.fileSize hi
  rw [System44.fileSize, kfsFile, Nat.add_assoc, load32_of_word hm
    (by unfold sizeofKfsFile sizeofKfsSuperblock; omega) hword, BitVec.toNat_ofNat,
    Nat.mod_eq_of_lt hlt]

theorem ImageOf.startLba_eq (hi : i < files.length) :
    (System44.startLba m sb i).toNat = 1 + ((files.map HostFile.sectors).take i).sum := by
  have hmax : files.length ≤ 8 := hof.le_max
  obtain ⟨lba, hlt, hlba, hword⟩ := hof.startLba hi
  rw [System44.startLba, kfsFile, Nat.add_assoc, load32_of_word hm
    (by unfold sizeofKfsFile sizeofKfsSuperblock; omega) hword, BitVec.toNat_ofNat,
    Nat.mod_eq_of_lt hlt, hlba]

end

theorem layout_mount {M M' : Machine} {sb : ℕ} {r : ℤ} {dir : List HostFile} {img : List Byte}
    (hsmall : ∀ f ∈ dir.take kfsMaxFiles, SmallSize f.size) (himg : genkfs dir = some img)
    (hdisk : M.disk.Holds img) (h : kfsMount M sb = some (.ok (r, M'))) : Layout M'.mem sb := by
  have hof := genkfs_image himg
  generalize dir.take kfsMaxFiles = files at *
  have hm := kfsMount_holdsSuperblock hof.fits hdisk h
  have hcount := hof.fileCount_eq hm
  constructor
  · rw [hcount]
    exact hof.le_max
  · intro i hi
    rw [hcount] at hi
    rw [hof.startLba_eq hm hi]
    refine (Extents.start_of_list (fun j hj _ => ?_) (by rw [List.length_map]; omega)).symm
    rw [List.length_map] at hj
    rw [List.getElem_map, fileSectors, hof.fileSize_eq hm hj]
    rfl
  · intro i hi
    rw [hcount] at hi
    rw [hof.fileSize_eq hm hi]
    exact hsmall _ (List.getElem_mem hi)

theorem layout_congr {m m' : Mem} {sb : ℕ} (hcount : fileCount m' sb = fileCount m sb)
    (hstart : ∀ i < fileCount m sb, startLba m' sb i = startLba m sb i)
    (hsize : ∀ i < fileCount m sb, fileSize m' sb i = fileSize m sb i) (h : Layout m sb) :
    Layout m' sb := by
  constructor
  · rw [hcount]
    exact h.count_le
  · intro i hi
    rw [hcount] at hi
    rw [hstart i hi, h.start_eq i hi]
    apply Extents.start_congr
    intro j hj
    rw [fileSectors, fileSectors, hsize j (by omega)]
  · intro i hi
    rw [hcount] at hi
    rw [hsize i hi]
    exact h.small i hi

theorem layout_elsewhere {m m' : Mem} {sb : ℕ} (h : Layout m sb)
    (hsame : ∀ x < sizeofKfsSuperblock, m'.get (sb + x) = m.get (sb + x)) : Layout m' sb := by
  have hword : ∀ x, x + 4 ≤ sizeofKfsSuperblock → m'.load32 (sb + x) = m.load32 (sb + x) := by
    intro x hx
    apply Mem.load32_congr
    intro i hi
    rw [Nat.add_assoc]
    exact hsame _ (by omega)
  have hle : fileCount m sb ≤ 8 := h.count_le
  have hfield : ∀ i < fileCount m sb, ∀ x, x + 4 ≤ sizeofKfsFile →
      m'.load32 (kfsFile sb i + x) = m.load32 (kfsFile sb i + x) := by
    intro i hi x hx
    rw [kfsFile, Nat.add_assoc]
    unfold sizeofKfsFile at *
    exact hword _ (by unfold sizeofKfsSuperblock; omega)
  have hcount : fileCount m' sb = fileCount m sb := by
    rw [fileCount, fileCount, hword 4 (by decide)]
  exact layout_congr hcount (fun i hi => hfield i hi 32 (by decide))
    (fun i hi => hfield i hi 36 (by decide)) h

/-- The kernel's 32-bit sum finds the end of the layout. -/
theorem Layout.toNat_nextLba {m : Mem} {sb : ℕ} (h : Layout m sb) :
    (nextLba m sb (fileCount m sb)).toNat =
      Extents.start 1 (fileSectors m sb) (fileCount m sb) := by
  rw [(System44.toNat_nextLba m sb h.count_le).1, Extents.start]
  refine congrArg (1 + ·) (Finset.sum_congr rfl fun j hj => ?_)
  exact toNat_kfsSectors_of_small (h.small j (Finset.mem_range.mp hj))

theorem layout_entered {m m' : Mem} {sb name len : ℕ} {size : BitVec 32} (h : Layout m sb)
    (hcount : fileCount m sb < kfsMaxFiles) (hsmall : SmallSize size.toNat)
    (he : Entered m m' sb (fileCount m sb) name len size) : Layout m' sb := by
  have hold : ∀ j < fileCount m sb, ∀ x, x + 4 ≤ sizeofKfsFile →
      m'.load32 (kfsFile sb j + x) = m.load32 (kfsFile sb j + x) := fun j hj x hx =>
    he.load32_kfsFile (by omega) (by omega) hx
  have hsectors : ∀ i ≤ fileCount m sb, Extents.start 1 (fileSectors m' sb) i =
      Extents.start 1 (fileSectors m sb) i := by
    intro i hi
    apply Extents.start_congr
    intro j hj
    rw [fileSectors, fileSectors, fileSize, hold j (by omega) 36 (by decide), fileSize]
  constructor
  · rw [he.fileCount]
    exact hcount
  · intro i hi
    rw [he.fileCount] at hi
    rw [hsectors i (by omega)]
    rcases Nat.lt_succ_iff_lt_or_eq.mp hi with hlt | rfl
    · rw [← h.start_eq i hlt, startLba, hold i hlt 32 (by decide), startLba]
    · rw [he.startLba, h.toNat_nextLba]
  · intro i hi
    rw [he.fileCount] at hi
    rcases Nat.lt_succ_iff_lt_or_eq.mp hi with hlt | rfl
    · rw [fileSize, hold i hlt 36 (by decide)]
      exact h.small i hlt
    · rw [he.fileSize]
      exact hsmall

theorem layout_write {M M' : Machine} {sb name data : ℕ} {size : BitVec 32} {r : ℤ}
    (h : Layout M.mem sb) (hname : NameOk M.mem sb name) (hsmall : SmallSize size.toNat)
    (hw : kfsWrite M sb name data size = some (r, M')) : Layout M'.mem sb := by
  rcases Nat.lt_or_ge (fileCount M.mem sb) kfsMaxFiles with hcount | hfull
  · obtain ⟨len, hname⟩ := hname hcount
    exact layout_entered h hcount hsmall (kfsWrite_entered hcount hname hw).1
  · obtain ⟨-, rfl⟩ := kfsWrite_full hfull hw
    exact h

theorem kfsReachable_inv {sb : ℕ} {M : Machine} (h : KfsReachable sb M) : Layout M.mem sb := by
  induction h with
  | mkfs h => exact layout_mkfs h
  | mount hsmall himg hdisk h => exact layout_mount hsmall himg hdisk h
  | write _ hname hsmall hw ih => exact layout_write ih hname hsmall hw
  | elsewhere _ hsame _ ih => exact layout_elsewhere ih hsame

theorem fileExtent_eq {m : Mem} {sb i : ℕ} (h : Layout m sb) (hi : i < fileCount m sb) :
    fileExtent m sb i = Extents.extent 1 (fileSectors m sb) i := by
  rw [fileExtent, h.start_eq i hi, Extents.extent]

theorem kfsWrite_sector {M M' : Machine} {sb name data : ℕ} {size : BitVec 32} {r : ℤ}
    (h : Layout M.mem sb) (hname : NameOk M.mem sb name)
    (hw : kfsWrite M sb name data size = some (r, M')) {i s : ℕ} (hi : i < fileCount M.mem sb)
    (hs : s ∈ fileExtent M.mem sb i) : M'.disk.sector s = M.disk.sector s := by
  rcases Nat.lt_or_ge (fileCount M.mem sb) kfsMaxFiles with hcount | hfull
  · obtain ⟨len, hname⟩ := hname hcount
    obtain ⟨-, -, r', disk, hdata, hsuper⟩ := kfsWrite_entered hcount hname hw
    obtain ⟨-, stored, hwd⟩ := ataWriteSectors_some hdata
    obtain ⟨-, stored', hws⟩ := ataWriteSectors_some hsuper
    have hbound := (System44.toNat_nextLba M.mem sb h.count_le).2
    have hpassed : M.disk.passed (kfsSectors size).toNat < 2 ^ 8 :=
      (streak_le ..).trans_lt (Nat.mod_lt _ (by decide))
    have hpassed' : disk.passed 1 ≤ 1 := streak_le ..
    rw [fileExtent_eq h hi] at hs
    have hlo := Extents.base_le_of_mem hs
    have hhi := Extents.lt_start_of_mem hi hs
    rw [← h.toNat_nextLba] at hhi
    have hmax : fileCount M.mem sb < 8 := hcount
    rw [hws.below (by unfold lbaLimit; omega) (Or.inr (by omega)),
      hwd.below (by unfold lbaLimit; omega) (Or.inl hhi)]
  · obtain ⟨-, rfl⟩ := kfsWrite_full hfull hw
    rfl

theorem kfsWrite_entry {M M' : Machine} {sb name data : ℕ} {size : BitVec 32} {r : ℤ}
    (hname : NameOk M.mem sb name) (hw : kfsWrite M sb name data size = some (r, M')) {i t : ℕ}
    (hi : i < kfsMaxFiles) (hne : i ≠ fileCount M.mem sb) (ht : t < sizeofKfsFile) :
    M'.mem.get (kfsFile sb i + t) = M.mem.get (kfsFile sb i + t) := by
  rcases Nat.lt_or_ge (fileCount M.mem sb) kfsMaxFiles with hcount | hfull
  · obtain ⟨len, hname⟩ := hname hcount
    exact (kfsWrite_entered hcount hname hw).1.get_kfsFile hi hne ht
  · obtain ⟨-, rfl⟩ := kfsWrite_full hfull hw
    rfl

/-- The files of a volume do not run into each other, nor into the superblock, and the next write
will not run into them. -/
structure VolumeKept (sb : ℕ) (M : Machine) : Prop where
  count_le : fileCount M.mem sb ≤ 8
  start_eq : ∀ i < fileCount M.mem sb, (startLba M.mem sb i).toNat =
    1 + ∑ j ∈ Finset.range i, ((fileSize M.mem sb j).toNat + 511) / 512
  disjoint : ∀ i < fileCount M.mem sb, ∀ j < fileCount M.mem sb, i ≠ j →
    Disjoint (fileExtent M.mem sb i) (fileExtent M.mem sb j)
  superblock : ∀ i < fileCount M.mem sb, 0 ∉ fileExtent M.mem sb i
  write : ∀ (name data : ℕ) (size : BitVec 32) (r : ℤ) (M' : Machine), NameOk M.mem sb name →
    SmallSize size.toNat → kfsWrite M sb name data size = some (r, M') →
    (∀ i < kfsMaxFiles, i ≠ fileCount M.mem sb → ∀ t < sizeofKfsFile,
      M'.mem.get (kfsFile sb i + t) = M.mem.get (kfsFile sb i + t)) ∧
    ∀ i < fileCount M.mem sb, ∀ s ∈ fileExtent M.mem sb i, M'.disk.sector s = M.disk.sector s

/-- In every state a volume can reach, its files are laid out one behind the other. -/
theorem kfsReachable_volumeKept {sb : ℕ} {M : Machine} (h : KfsReachable sb M) :
    VolumeKept sb M := by
  have hl := kfsReachable_inv h
  constructor
  · exact hl.count_le
  · exact hl.start_eq
  · intro i hi j hj hne
    rw [fileExtent_eq hl hi, fileExtent_eq hl hj]
    exact Extents.disjoint_extent _ _ hne
  · intro i hi h0
    rw [fileExtent_eq hl hi] at h0
    exact absurd (Extents.base_le_of_mem h0) (by decide)
  · intro name data size r M' hname _ hw
    exact ⟨fun i hi hne t ht => kfsWrite_entry hname hw hi hne ht,
      fun i hi s hs => kfsWrite_sector hl hname hw hi hs⟩

/-- A disk that answers at once and keeps everything. -/
def steadyDisk : Drive := .blank ⟨0, 0, true, false, true⟩

def demoSuperblock : ℕ := 0x18000

def demoName : ℕ := 0x20000

def demoData : ℕ := 0x30000

/-- The name `a` lies at `demoName`, and the rest is zero. -/
def demoMachine : Machine where
  mem := ⟨fun a => if a = demoName then 0x61#8 else 0#8, []⟩
  disk := steadyDisk
  pmm := Pmm.boot

def demoMkfs : ℤ × Machine := (kfsMkfs demoMachine demoSuperblock).get (by decide +kernel)

def demoVolume : Machine := demoMkfs.2

theorem demoMkfs_eq : kfsMkfs demoMachine demoSuperblock = some demoMkfs :=
  (Option.some_get _).symm

theorem demoVolume_count : fileCount demoVolume.mem demoSuperblock = 0 := by decide +kernel

theorem demoName_at :
    NameAt demoVolume.mem demoSuperblock (fileCount demoVolume.mem demoSuperblock) demoName 1 := by
  rw [demoVolume_count]
  refine ⟨?_, by decide, by decide⟩
  unfold StringAt
  decide +kernel

theorem demoName_ok : NameOk demoVolume.mem demoSuperblock demoName := by
  intro _
  exact ⟨1, demoName_at⟩

theorem demoVolume_free : fileCount demoVolume.mem demoSuperblock < kfsMaxFiles := by
  rw [demoVolume_count]
  decide

theorem demoData_apart : ∀ j < (600#32).toNat,
    OffSlot demoSuperblock (fileCount demoVolume.mem demoSuperblock) (demoData + j) := by
  rw [demoVolume_count]
  decide +kernel

theorem demoVolume_errorFree : demoVolume.disk.ErrorFree :=
  kfsMkfs_errorFree demoMkfs_eq fun _ => rfl

theorem demoWrite_isSome :
    (kfsWrite demoVolume demoSuperblock demoName demoData 600#32).isSome = true := by
  decide +kernel

theorem demoSector_isSome :
    (kfsWrite demoVolume demoSuperblock demoName demoData 500#32).isSome = true := by
  decide +kernel

theorem demoSector_apart : ∀ j < (500#32).toNat,
    OffSlot demoSuperblock (fileCount demoVolume.mem demoSuperblock) (demoData + j) :=
  fun j hj => demoData_apart j (hj.trans (by decide))

theorem demoVolume_reachable : KfsReachable demoSuperblock demoVolume :=
  .mkfs demoMkfs_eq

theorem demoFile_volumeKept : ∃ r M,
    kfsWrite demoVolume demoSuperblock demoName demoData 600#32 = some (r, M) ∧
      VolumeKept demoSuperblock M := by
  obtain ⟨⟨r, M⟩, hw⟩ := Option.isSome_iff_exists.mp demoWrite_isSome
  have hsmall : SmallSize (600#32).toNat := by simp [SmallSize]
  exact ⟨r, M, hw, kfsReachable_volumeKept (.write demoVolume_reachable demoName_ok hsmall hw)⟩

end System44
