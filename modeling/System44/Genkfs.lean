import System44.Kfs
import Mathlib.Data.List.GetD

/-!
# The image builder

`scripts/genkfs.py` in the order in which it runs: the first eight regular files of the directory
listing get an entry and their data, each rounded up to whole sectors, and the superblock is padded
to a sector. `struct.pack` refuses a number that does not fit 32 bits and `encode` a character
outside ASCII; the script then builds no image.
-/

namespace System44

structure HostFile where
  name : List Char
  data : List Byte
  deriving DecidableEq

def kfsSectorSize : ℕ := 512

def HostFile.size (f : HostFile) : ℕ := f.data.length

/-- `(size + KFS_SECTOR_SIZE - 1) // KFS_SECTOR_SIZE`. -/
def HostFile.sectors (f : HostFile) : ℕ := (f.size + kfsSectorSize - 1) / kfsSectorSize

def encodeAscii (name : List Char) : Option (List Byte) :=
  name.mapM fun c => if c.toNat < 128 then some (BitVec.ofNat 8 c.toNat) else none

def wordBytes (v : BitVec 32) : List Byte := (List.range 4).map (leBytes v)

def packWord (n : ℕ) : Option (List Byte) :=
  if n < 2 ^ 32 then some (wordBytes (BitVec.ofNat 32 n)) else none

/-- `struct.pack("<32sII", name_bytes, current_lba, size)`. -/
def packEntry (f : HostFile) (currentLba : ℕ) : Option (List Byte) := do
  let name ← encodeAscii f.name
  let nameBytes := (name.take 32).rightpad 32 0#8
  let lba ← packWord currentLba
  let size ← packWord f.size
  some (nameBytes ++ lba ++ size)

/-- The loop over the files, with `current_lba`, `file_entries` and `file_data`. -/
def genkfsLoop : List HostFile → ℕ → List Byte → List Byte → Option (List Byte × List Byte)
  | [], _, fileEntries, fileData => some (fileEntries, fileData)
  | f :: files, currentLba, fileEntries, fileData => do
    let entry ← packEntry f currentLba
    genkfsLoop files (currentLba + f.sectors) (fileEntries ++ entry)
      (fileData ++ f.data ++ List.replicate (f.sectors * kfsSectorSize - f.size) 0#8)

/-- The image built from the regular files that `os.listdir` names, in its order. -/
def genkfs (dir : List HostFile) : Option (List Byte) := do
  let files := dir.take kfsMaxFiles
  let (fileEntries, fileData) ← genkfsLoop files 1 [] []
  let superblock := wordBytes kfsMagic ++ wordBytes (BitVec.ofNat 32 files.length)
  let fileEntries := fileEntries ++ List.replicate (40 * (kfsMaxFiles - files.length)) 0#8
  let superblock := superblock ++ fileEntries
  let superblock := superblock ++ List.replicate (kfsSectorSize - superblock.length) 0#8
  some (superblock ++ fileData)

theorem length_wordBytes (v : BitVec 32) : (wordBytes v).length = 4 := by
  rw [wordBytes, List.length_map, List.length_range]

theorem getD_wordBytes (v : BitVec 32) {i : ℕ} (hi : i < 4) :
    (wordBytes v).getD i 0#8 = leBytes v i := by
  simp [wordBytes, hi]

theorem packWord_some {n : ℕ} {bytes : List Byte} (h : packWord n = some bytes) :
    n < 2 ^ 32 ∧ bytes = wordBytes (BitVec.ofNat 32 n) := by
  unfold packWord at h
  split at h
  · exact ⟨‹_›, (Option.some_inj.mp h).symm⟩
  · cases h

theorem packEntry_some {f : HostFile} {lba : ℕ} {entry : List Byte}
    (h : packEntry f lba = some entry) :
    lba < 2 ^ 32 ∧ f.size < 2 ^ 32 ∧ ∃ name : List Byte, name.length = 32 ∧
      entry = name ++ wordBytes (BitVec.ofNat 32 lba) ++ wordBytes (BitVec.ofNat 32 f.size) := by
  obtain ⟨name, -, h⟩ := Option.bind_eq_some_iff.mp h
  obtain ⟨lbaBytes, hlba, h⟩ := Option.bind_eq_some_iff.mp h
  obtain ⟨sizeBytes, hsize, h⟩ := Option.bind_eq_some_iff.mp h
  obtain ⟨hlba', rfl⟩ := packWord_some hlba
  obtain ⟨hsize', rfl⟩ := packWord_some hsize
  refine ⟨hlba', hsize', (name.take 32).rightpad 32 0#8, ?_, (Option.some_inj.mp h).symm⟩
  rw [List.length_rightpad, List.length_take]
  omega

theorem length_packEntry {f : HostFile} {lba : ℕ} {entry : List Byte}
    (h : packEntry f lba = some entry) : entry.length = sizeofKfsFile := by
  obtain ⟨-, -, name, hname, rfl⟩ := packEntry_some h
  rw [List.length_append, List.length_append, length_wordBytes, length_wordBytes, hname]
  rfl

theorem genkfsLoop_some {files : List HostFile} {lba : ℕ} {es es' ds ds' : List Byte}
    (h : genkfsLoop files lba es ds = some (es', ds')) :
    ∃ new, es' = es ++ new ∧ new.length = sizeofKfsFile * files.length ∧
      ∀ (i : ℕ) (_ : i < files.length), ∃ entry,
        packEntry files[i] (lba + ((files.map HostFile.sectors).take i).sum) = some entry ∧
        ∀ t < sizeofKfsFile, new.getD (sizeofKfsFile * i + t) 0#8 = entry.getD t 0#8 := by
  induction files generalizing lba es ds with
  | nil =>
      obtain ⟨rfl, rfl⟩ := Prod.mk.inj (Option.some_inj.mp h)
      exact ⟨[], (List.append_nil _).symm, rfl, fun i hi => absurd hi (Nat.not_lt_zero i)⟩
  | cons f files ih =>
      obtain ⟨entry, hentry, hrest⟩ := Option.bind_eq_some_iff.mp h
      obtain ⟨new, hnew, hlen, hall⟩ := ih hrest
      have hentryLen := length_packEntry hentry
      refine ⟨entry ++ new, by rw [hnew, List.append_assoc], ?_, ?_⟩
      · rw [List.length_append, hentryLen, hlen, List.length_cons, Nat.mul_succ, Nat.add_comm]
      · intro i hi
        cases i with
        | zero =>
            refine ⟨entry, hentry, fun t ht => ?_⟩
            rw [Nat.mul_zero, Nat.zero_add, List.getD_append _ _ _ _ (by omega)]
        | succ i =>
            obtain ⟨e, he, hbytes⟩ := hall i (Nat.lt_of_succ_lt_succ hi)
            refine ⟨e, ?_, fun t ht => ?_⟩
            · rw [List.map_cons, List.take_succ_cons, List.sum_cons, ← Nat.add_assoc]
              exact he
            · rw [List.getD_append_right _ _ _ _ (by rw [hentryLen, Nat.mul_succ]; omega),
                hentryLen, ← hbytes t ht, Nat.mul_succ]
              congr 1
              omega

def WordAt (bytes : List Byte) (x : ℕ) (v : BitVec 32) : Prop :=
  ∀ t < 4, bytes.getD (x + t) 0#8 = leBytes v t

theorem wordAt_append (pre post : List Byte) (v : BitVec 32) {x : ℕ}
    (hx : pre.length = x) : WordAt (pre ++ wordBytes v ++ post) x v := by
  intro t ht
  rw [List.append_assoc, List.getD_append_right _ _ _ _ (by omega),
    List.getD_append _ _ _ _ (by rw [length_wordBytes]; omega), hx, Nat.add_sub_cancel_left]
  exact getD_wordBytes v ht

/-- What the kernel will find in the first sector of an image. -/
structure ImageOf (files : List HostFile) (img : List Byte) : Prop where
  le_max : files.length ≤ kfsMaxFiles
  fits : 512 ≤ img.length
  magic : WordAt img 0 kfsMagic
  fileCount : WordAt img 4 (BitVec.ofNat 32 files.length)
  entry : ∀ (i : ℕ) (_ : i < files.length), ∃ entry,
    packEntry files[i] (1 + ((files.map HostFile.sectors).take i).sum) = some entry ∧
      ∀ t < sizeofKfsFile, img.getD (8 + sizeofKfsFile * i + t) 0#8 = entry.getD t 0#8

theorem genkfs_image {dir : List HostFile} {img : List Byte} (h : genkfs dir = some img) :
    ImageOf (dir.take kfsMaxFiles) img := by
  obtain ⟨⟨es, ds⟩, hloop, h⟩ := Option.bind_eq_some_iff.mp h
  obtain ⟨new, rfl, hlen, hentry⟩ := genkfsLoop_some hloop
  have hmax : (dir.take kfsMaxFiles).length ≤ kfsMaxFiles := List.length_take_le ..
  generalize dir.take kfsMaxFiles = files at *
  obtain rfl := Option.some_inj.mp h
  have hmul : sizeofKfsFile * files.length = 40 * files.length := rfl
  refine ⟨hmax, ?_, ?_, ?_, ?_⟩
  · simp only [List.length_append, length_wordBytes, List.length_replicate, kfsSectorSize]
    omega
  · simp only [List.append_assoc]
    exact wordAt_append [] _ _ rfl
  · simp only [List.append_assoc]
    rw [← List.append_assoc]
    exact wordAt_append _ _ _ (length_wordBytes _)
  · intro i hi
    obtain ⟨entry, hpack, hbytes⟩ := hentry i hi
    refine ⟨entry, hpack, fun t ht => ?_⟩
    have hin : sizeofKfsFile * i + t < es.length := by
      have hle : sizeofKfsFile * (i + 1) ≤ sizeofKfsFile * files.length := Nat.mul_le_mul_left _ hi
      rw [Nat.mul_succ] at hle
      omega
    rw [← hbytes t ht]
    simp only [List.append_assoc]
    rw [← List.append_assoc (wordBytes _), List.getD_append_right _ _ _ _ (by
        rw [List.length_append, length_wordBytes, length_wordBytes]
        omega),
      List.getD_append _ _ _ _ (by
        rw [List.length_append, length_wordBytes, length_wordBytes]
        omega)]
    rw [List.length_append, length_wordBytes, length_wordBytes]
    congr 1
    omega

theorem ImageOf.startLba {files : List HostFile} {img : List Byte} (h : ImageOf files img) {i : ℕ}
    (hi : i < files.length) : ∃ lba < 2 ^ 32, lba = 1 + ((files.map HostFile.sectors).take i).sum ∧
      WordAt img (8 + sizeofKfsFile * i + 32) (BitVec.ofNat 32 lba) := by
  obtain ⟨entry, hpack, hbytes⟩ := h.entry i hi
  obtain ⟨hlba, -, name, hname, rfl⟩ := packEntry_some hpack
  refine ⟨_, hlba, rfl, fun t ht => ?_⟩
  rw [Nat.add_assoc, hbytes _ (by unfold sizeofKfsFile; omega)]
  exact wordAt_append _ _ _ hname t ht

theorem ImageOf.fileSize {files : List HostFile} {img : List Byte} (h : ImageOf files img) {i : ℕ}
    (hi : i < files.length) : files[i].size < 2 ^ 32 ∧
      WordAt img (8 + sizeofKfsFile * i + 36) (BitVec.ofNat 32 files[i].size) := by
  obtain ⟨entry, hpack, hbytes⟩ := h.entry i hi
  obtain ⟨-, hsize, name, hname, rfl⟩ := packEntry_some hpack
  refine ⟨hsize, fun t ht => ?_⟩
  rw [Nat.add_assoc, hbytes _ (by unfold sizeofKfsFile; omega)]
  have hlen : (name ++ wordBytes (BitVec.ofNat 32 (1 + ((files.map HostFile.sectors).take i).sum))
      ).length = 36 := by
    rw [List.length_append, length_wordBytes, hname]
  have hword := wordAt_append _ [] (BitVec.ofNat 32 files[i].size) hlen t ht
  rwa [List.append_nil] at hword

end System44
