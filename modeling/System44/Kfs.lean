import System44.AtaTransfer
import System44.CString
import System44.Pmm
import Mathlib.Algebra.BigOperators.Intervals

/-!
# The file system

The superblock is the object at address `sb` of the kernel's memory, 328 bytes long, and the disk
transfers of it move a whole sector. The functions are those of `kfs.c` and read and change the
directory where it lies, so a store elsewhere that hits it is seen by them. A call that waits for
the disk or for the end of a string for ever has no result.
-/

namespace System44

structure Machine where
  mem : Mem
  disk : Drive
  pmm : Pmm

def kfsMagic : BitVec 32 := 0x3053464B#32
def kfsMaxFiles : ℕ := 8
def sizeofKfsFile : ℕ := 40
def sizeofKfsSuperblock : ℕ := 328

def errSuccess : ℤ := 0
def errNotFound : ℤ := 1

/-- `superblock.magic`. -/
def magic (m : Mem) (sb : ℕ) : BitVec 32 := m.load32 sb

/-- `superblock.file_count`. -/
def fileCount (m : Mem) (sb : ℕ) : ℕ := (m.load32 (sb + 4)).toNat

/-- `&superblock.files[i]`, which is also where the name of the file begins. -/
def kfsFile (sb i : ℕ) : ℕ := sb + (8 + sizeofKfsFile * i)

/-- `superblock.files[i].start_lba`. -/
def startLba (m : Mem) (sb i : ℕ) : BitVec 32 := m.load32 (kfsFile sb i + 32)

/-- `superblock.files[i].size`. -/
def fileSize (m : Mem) (sb i : ℕ) : BitVec 32 := m.load32 (kfsFile sb i + 36)

/-- `(size + 511) / 512` in 32 bits. -/
def kfsSectors (size : BitVec 32) : BitVec 32 := (size + 511#32) / 512#32

inductive KfsPanic where
  | diskRead
  | invalidMagic
  deriving DecidableEq

def KfsPanic.message : KfsPanic → String
  | .diskRead => "i have no root and i must scream. (disk read failure)"
  | .invalidMagic => "i have no root and i must scream. (invalid magic, not a KFS volume)"

def kfsMount (M : Machine) (sb : ℕ) : Option (Except KfsPanic (ℤ × Machine)) := do
  let (r, disk, mem) ← ataReadSectors M.disk M.mem 0 1 sb
  if r < 0 then some (.error .diskRead)
  else if magic mem sb ≠ kfsMagic then some (.error .invalidMagic)
  else some (.ok (errSuccess, { M with mem := mem, disk := disk }))

def kfsMkfs (M : Machine) (sb : ℕ) : Option (ℤ × Machine) := do
  let m := M.mem.blit sb sizeofKfsSuperblock fun _ => 0#8
  let m := m.store32 sb kfsMagic
  let (r, disk) ← ataWriteSectors M.disk m 0 1 sb
  some (r, { M with mem := m, disk := disk })

/-- The loop of `kfs_find` from index `i` on, with `n` files left to look at. -/
def kfsFindFrom (m : Mem) (sb name : ℕ) : ℕ → ℕ → Option (Option ℕ)
  | 0, _ => some none
  | n + 1, i => do
    let c ← strcmp m (kfsFile sb i) name
    if c = 0 then some (some i) else kfsFindFrom m sb name n (i + 1)

/-- The index of the entry that `kfs_find` points to; its `NULL` is the inner `none`. -/
def kfsFind (m : Mem) (sb name : ℕ) : Option (Option ℕ) :=
  kfsFindFrom m sb name (fileCount m sb) 0

def kfsRead (M : Machine) (sb name buf : ℕ) : Option (ℤ × Machine) := do
  match ← kfsFind M.mem sb name with
  | none => some (errNotFound, M)
  | some i =>
    let sectors := kfsSectors (fileSize M.mem sb i)
    let (r, disk, mem) ← ataReadSectors M.disk M.mem (startLba M.mem sb i).toNat sectors.toNat buf
    some (r, { M with mem := mem, disk := disk })

/-- The value of `lba` after `i` rounds of the loop of `kfs_write`. -/
def nextLba (m : Mem) (sb : ℕ) : ℕ → BitVec 32
  | 0 => 1#32
  | i + 1 => nextLba m sb i + kfsSectors (fileSize m sb i)

def kfsWrite (M : Machine) (sb name data : ℕ) (size : BitVec 32) : Option (ℤ × Machine) := do
  if kfsMaxFiles ≤ fileCount M.mem sb then some (-1, M)
  else
    let f := kfsFile sb (fileCount M.mem sb)
    let m := M.mem.store32 (sb + 4) (M.mem.load32 (sb + 4) + 1#32)
    let m ← strcpy m f name
    let m := m.store32 (f + 36) size
    let lba := nextLba m sb (m.load32 (sb + 4) - 1#32).toNat
    let m := m.store32 (f + 32) lba
    let sectors := kfsSectors size
    let (_, disk) ← ataWriteSectors M.disk m (m.load32 (f + 32)).toNat sectors.toNat data
    let (r, disk) ← ataWriteSectors disk m 0 1 sb
    some (r, { M with mem := m, disk := disk })

theorem toNat_kfsSectors (size : BitVec 32) :
    (kfsSectors size).toNat = (size.toNat + 511) % 2 ^ 32 / 512 := by
  rw [kfsSectors, BitVec.toNat_udiv, BitVec.toNat_add]
  rfl

theorem kfsSectors_lt (size : BitVec 32) : (kfsSectors size).toNat < 2 ^ 23 := by
  rw [toNat_kfsSectors]
  omega

/-- Eight files never reach the end of the 32-bit sector numbers, nor that of the disk. -/
theorem toNat_nextLba (m : Mem) (sb : ℕ) {n : ℕ} (hn : n ≤ kfsMaxFiles) :
    (nextLba m sb n).toNat =
      1 + ∑ j ∈ Finset.range n, (kfsSectors (fileSize m sb j)).toNat ∧
    (nextLba m sb n).toNat ≤ 1 + n * (2 ^ 23 - 1) := by
  induction n with
  | zero => exact ⟨rfl, Nat.le_refl 1⟩
  | succ n ih =>
      obtain ⟨hsum, hle⟩ := ih (by omega)
      have hlt := kfsSectors_lt (fileSize m sb n)
      have hn' : n ≤ 7 := by
        unfold kfsMaxFiles at hn
        omega
      have hadd : (nextLba m sb (n + 1)).toNat =
          (nextLba m sb n).toNat + (kfsSectors (fileSize m sb n)).toNat := by
        rw [nextLba, BitVec.toNat_add, Nat.mod_eq_of_lt (by omega)]
      constructor
      · rw [hadd, hsum, Finset.sum_range_succ, Nat.add_assoc]
      · rw [hadd, Nat.succ_mul]
        omega

/-- The address is outside `file_count` and outside directory slot `k`. -/
def OffSlot (sb k a : ℕ) : Prop :=
  (Mem.offset sb a < 4 ∨ 8 ≤ Mem.offset sb a) ∧
    (Mem.offset sb a < 8 + sizeofKfsFile * k ∨ 8 + sizeofKfsFile * (k + 1) ≤ Mem.offset sb a)

instance (sb k a : ℕ) : Decidable (OffSlot sb k a) := inferInstanceAs (Decidable (_ ∧ _))

/-- A name of at most 31 bytes lies at `name`, where the write of slot `k` does not reach it. -/
structure NameAt (m : Mem) (sb k name len : ℕ) : Prop where
  string : StringAt m name len
  short : len ≤ 31
  apart : ∀ i ≤ len, OffSlot sb k (name + i)

/-- The directory and the file's buffer once slot `k` has been filled in. -/
structure Entered (m m' : Mem) (sb k name len : ℕ) (size : BitVec 32) : Prop where
  fileCount : fileCount m' sb = k + 1
  fileSize : fileSize m' sb k = size
  startLba : startLba m' sb k = nextLba m sb k
  nameBytes : ∀ i ≤ len, m'.get (kfsFile sb k + i) = m.get (name + i)
  frame : ∀ a, OffSlot sb k a → m'.get a = m.get a

theorem nextLba_congr {m m' : Mem} {sb n : ℕ} (h : ∀ j < n, fileSize m' sb j = fileSize m sb j) :
    nextLba m' sb n = nextLba m sb n := by
  induction n with
  | zero => rfl
  | succ n ih => rw [nextLba, nextLba, ih fun j hj => h j (by omega), h n (by omega)]

theorem offSlot_kfsFile {sb k j i : ℕ} (hj : j < kfsMaxFiles) (hne : j ≠ k)
    (hi : i < sizeofKfsFile) : OffSlot sb k (kfsFile sb j + i) := by
  have ho : Mem.offset sb (kfsFile sb j + i) = 8 + sizeofKfsFile * j + i := by
    rw [kfsFile, Nat.add_assoc]
    apply Mem.offset_add
    unfold kfsMaxFiles at hj
    unfold sizeofKfsFile at *
    omega
  rw [OffSlot, ho]
  unfold sizeofKfsFile at *
  omega

section

variable {m : Mem} {sb k a : ℕ}

theorem get_store_fileCount (v : BitVec 32) (h : OffSlot sb k a) :
    (m.store32 (sb + 4) v).get a = m.get a :=
  Mem.get_store32_of_le m v (Mem.le_offset_shift h.1 (by decide))

theorem get_blit_slot {x n : ℕ} (src : ℕ → Byte) (hk : k < kfsMaxFiles) (hx : x + n ≤ sizeofKfsFile)
    (h : OffSlot sb k a ∨ Mem.offset sb a < 8) :
    (m.blit (kfsFile sb k + x) n src).get a = m.get a := by
  unfold kfsMaxFiles at hk
  unfold OffSlot sizeofKfsFile at *
  apply Mem.get_blit_of_le m src (by omega)
  rw [kfsFile, Nat.add_assoc]
  exact Mem.le_offset_shift (by unfold sizeofKfsFile; omega) (by unfold sizeofKfsFile; omega)

end

theorem strcpy_name {m m₂ : Mem} {sb k name len : ℕ} {v : BitVec 32} (hcount : k < kfsMaxFiles)
    (hname : NameAt m sb k name len)
    (h : strcpy (m.store32 (sb + 4) v) (kfsFile sb k) name = some m₂) :
    (m.store32 (sb + 4) v).blit (kfsFile sb k) (len + 1)
      (fun i => (m.store32 (sb + 4) v).get (name + i)) = m₂ := by
  have hshort := hname.short
  have hmax : k < 8 := hcount
  have hstring : StringAt (m.store32 (sb + 4) v) name len :=
    hname.string.congr fun i hi => get_store_fileCount _ (hname.apart i hi)
  refine Option.some_inj.mp ((strcpy_of_string (kfsFile sb k) hstring ?_ ?_).symm.trans h)
  · unfold addressSpace
    omega
  · intro i hi
    have happart := (hname.apart i hi).2
    unfold sizeofKfsFile at happart
    exact Mem.le_offset_shift (n := len + 1) (by unfold sizeofKfsFile; omega)
      (by unfold sizeofKfsFile; omega)

theorem load32_fileCount {m m' : Mem} {sb : ℕ}
    (h : ∀ a, Mem.offset sb a < 8 → m'.get a = m.get a) :
    m'.load32 (sb + 4) = m.load32 (sb + 4) := by
  apply Mem.load32_congr
  intro i hi
  apply h
  rw [Nat.add_assoc, Mem.offset_add sb (by omega)]
  omega

theorem entered_of_stores {m m₁ m₂ m₃ : Mem} {sb k name len : ℕ} {size : BitVec 32}
    (hk : fileCount m sb = k) (hcount : k < kfsMaxFiles) (hname : NameAt m sb k name len)
    (h₁ : m₁ = m.store32 (sb + 4) (m.load32 (sb + 4) + 1#32))
    (h₂ : strcpy m₁ (kfsFile sb k) name = some m₂)
    (h₃ : m₃ = m₂.store32 (kfsFile sb k + 36) size) :
    nextLba m₃ sb (m₃.load32 (sb + 4) - 1#32).toNat = nextLba m sb k ∧
      Entered m (m₃.store32 (kfsFile sb k + 32) (nextLba m sb k)) sb k name len size := by
  have hshort := hname.short
  have hmax : k < 8 := hcount
  have hget₁ : ∀ a, OffSlot sb k a → m₁.get a = m.get a := by
    intro a ha
    rw [h₁]
    exact get_store_fileCount _ ha
  obtain rfl : m₁.blit (kfsFile sb k) (len + 1) (fun i => m₁.get (name + i)) = m₂ := by
    rw [h₁] at h₂ ⊢
    exact strcpy_name hcount hname h₂
  have hget₃ : ∀ a, OffSlot sb k a ∨ Mem.offset sb a < 8 → m₃.get a = m₁.get a := by
    intro a ha
    rw [h₃, Mem.store32, get_blit_slot _ hcount (by decide) ha]
    exact get_blit_slot (x := 0) _ hcount (by unfold sizeofKfsFile; omega) ha
  have hget₄ : ∀ a, OffSlot sb k a ∨ Mem.offset sb a < 8 →
      (m₃.store32 (kfsFile sb k + 32) (nextLba m sb k)).get a = m₁.get a := by
    intro a ha
    rw [Mem.store32, get_blit_slot _ hcount (by decide) ha, hget₃ a ha]
  have hcountOf : ∀ m' : Mem, (∀ a, Mem.offset sb a < 8 → m'.get a = m₁.get a) →
      m'.load32 (sb + 4) = m.load32 (sb + 4) + 1#32 := by
    intro m' hm'
    rw [load32_fileCount hm', h₁, Mem.load32_store32]
  have hcount₃ := hcountOf m₃ fun a ha => hget₃ a (Or.inr ha)
  have hcount₄ := hcountOf _ fun a ha => hget₄ a (Or.inr ha)
  have hsizes : ∀ j < k, fileSize m₃ sb j = fileSize m sb j := by
    intro j hj
    apply Mem.load32_congr
    intro i hi
    have hoff : OffSlot sb k (kfsFile sb j + 36 + i) := by
      rw [Nat.add_assoc]
      exact offSlot_kfsFile (by unfold kfsMaxFiles; omega) (by omega)
        (by unfold sizeofKfsFile; omega)
    rw [hget₃ _ (Or.inl hoff), hget₁ _ hoff]
  have hslot : ∀ i < sizeofKfsFile, Mem.offset (kfsFile sb k) (kfsFile sb k + i) = i := by
    intro i hi
    exact Mem.offset_add _ (by unfold sizeofKfsFile at hi; omega)
  have hkeep {m' : Mem} {v : BitVec 32} {x i : ℕ} (hx : x + 4 ≤ 2 ^ 32) (hi : i < sizeofKfsFile)
      (hne : i < x ∨ x + 4 ≤ i) :
      (m'.store32 (kfsFile sb k + x) v).get (kfsFile sb k + i) = m'.get (kfsFile sb k + i) :=
    Mem.get_store32_of_le _ _ (Mem.le_offset_shift (by rwa [hslot i hi]) hx)
  refine ⟨?_, ?_, ?_, Mem.load32_store32 .., ?_, ?_⟩
  · rw [hcount₃, BitVec.add_sub_cancel]
    change nextLba m₃ sb (fileCount m sb) = _
    rw [hk]
    exact nextLba_congr hsizes
  · have hnat : (m.load32 (sb + 4)).toNat = k := hk
    rw [fileCount, hcount₄, BitVec.toNat_add, hnat]
    change (k + 1) % 2 ^ 32 = k + 1
    omega
  · have hsize : m₃.load32 (kfsFile sb k + 36) = size := by rw [h₃, Mem.load32_store32]
    refine (Mem.load32_congr fun i hi => ?_).trans hsize
    rw [Nat.add_assoc]
    exact hkeep (by decide) (by unfold sizeofKfsFile; omega) (by omega)
  · intro i hi
    have hi' : i < sizeofKfsFile := by
      unfold sizeofKfsFile
      omega
    rw [hkeep (by decide) hi' (by omega), h₃, hkeep (by decide) hi' (by omega),
      Mem.get_blit_add _ _ _ (by omega) (by omega), hget₁ _ (hname.apart i hi)]
  · intro a ha
    rw [hget₄ a (Or.inl ha), hget₁ a ha]

theorem kfsWrite_entered {M M' : Machine} {sb name data len : ℕ} {size : BitVec 32} {r : ℤ}
    (hcount : fileCount M.mem sb < kfsMaxFiles)
    (hname : NameAt M.mem sb (fileCount M.mem sb) name len)
    (h : kfsWrite M sb name data size = some (r, M')) :
    Entered M.mem M'.mem sb (fileCount M.mem sb) name len size ∧ M'.pmm = M.pmm ∧
      ∃ r' disk, ataWriteSectors M.disk M'.mem (nextLba M.mem sb (fileCount M.mem sb)).toNat
          (kfsSectors size).toNat data = some (r', disk) ∧
        ataWriteSectors disk M'.mem 0 1 sb = some (r, M'.disk) := by
  rw [kfsWrite, if_neg (Nat.not_le_of_lt hcount)] at h
  obtain ⟨m₂, hcopy, h⟩ := Option.bind_eq_some_iff.mp h
  obtain ⟨⟨r', disk⟩, hdata, h⟩ := Option.bind_eq_some_iff.mp h
  obtain ⟨⟨r'', disk'⟩, hsuper, h⟩ := Option.bind_eq_some_iff.mp h
  obtain ⟨hlba, hentered⟩ := entered_of_stores rfl hcount hname rfl hcopy rfl
  rw [hlba] at hdata hsuper h
  rw [Mem.load32_store32] at hdata
  obtain ⟨rfl, rfl⟩ := Prod.mk.inj (Option.some_inj.mp h)
  exact ⟨hentered, rfl, r', disk, hdata, hsuper⟩

/-- The memory once the slot behind the last file has been filled in under a name of `len` bytes. -/
def entryAdded (m : Mem) (sb name len : ℕ) (size : BitVec 32) : Mem :=
  let f := kfsFile sb (fileCount m sb)
  let m₁ := m.store32 (sb + 4) (m.load32 (sb + 4) + 1#32)
  ((m₁.blit f (len + 1) fun t => m.get (name + t)).store32 (f + 36) size).store32 (f + 32)
    (nextLba m sb (fileCount m sb))

theorem kfsWrite_mem {M M' : Machine} {sb name data len : ℕ} {size : BitVec 32} {r : ℤ}
    (hcount : fileCount M.mem sb < kfsMaxFiles)
    (hname : NameAt M.mem sb (fileCount M.mem sb) name len)
    (h : kfsWrite M sb name data size = some (r, M')) :
    M'.mem = entryAdded M.mem sb name len size := by
  rw [kfsWrite, if_neg (Nat.not_le_of_lt hcount)] at h
  obtain ⟨m₂, hcopy, h⟩ := Option.bind_eq_some_iff.mp h
  obtain ⟨⟨r', disk⟩, hdata, h⟩ := Option.bind_eq_some_iff.mp h
  obtain ⟨⟨r'', disk'⟩, hsuper, h⟩ := Option.bind_eq_some_iff.mp h
  obtain ⟨hlba, -⟩ := entered_of_stores rfl hcount hname rfl hcopy rfl
  have hname' : ∀ i < len + 1,
      (M.mem.store32 (sb + 4) (M.mem.load32 (sb + 4) + 1#32)).get (name + i) =
        M.mem.get (name + i) :=
    fun i hi => get_store_fileCount _ (hname.apart i (Nat.le_of_lt_succ hi))
  rw [hlba, ← strcpy_name hcount hname hcopy, Mem.blit_congr _ _ hname'] at h
  obtain ⟨-, rfl⟩ := Prod.mk.inj (Option.some_inj.mp h)
  rfl

theorem kfsWrite_full {M M' : Machine} {sb name data : ℕ} {size : BitVec 32} {r : ℤ}
    (hfull : kfsMaxFiles ≤ fileCount M.mem sb) (h : kfsWrite M sb name data size = some (r, M')) :
    r = -1 ∧ M' = M := by
  rw [kfsWrite, if_pos hfull] at h
  obtain ⟨rfl, rfl⟩ := Prod.mk.inj (Option.some_inj.mp h)
  exact ⟨rfl, rfl⟩

theorem Entered.get_kfsFile {m m' : Mem} {sb k name len j i : ℕ} {size : BitVec 32}
    (h : Entered m m' sb k name len size) (hj : j < kfsMaxFiles) (hne : j ≠ k)
    (hi : i < sizeofKfsFile) : m'.get (kfsFile sb j + i) = m.get (kfsFile sb j + i) :=
  h.frame _ (offSlot_kfsFile hj hne hi)

theorem Entered.load32_kfsFile {m m' : Mem} {sb k name len j x : ℕ} {size : BitVec 32}
    (h : Entered m m' sb k name len size) (hj : j < kfsMaxFiles) (hne : j ≠ k)
    (hx : x + 4 ≤ sizeofKfsFile) :
    m'.load32 (kfsFile sb j + x) = m.load32 (kfsFile sb j + x) := by
  apply Mem.load32_congr
  intro i hi
  rw [Nat.add_assoc]
  exact h.get_kfsFile hj hne (by omega)

end System44
