import System44.Catalog
import System44.KfsNames
import System44.KfsRoundTrip
import System44.StrcmpOrder

/-!
# What a volume holds

The directory and the sectors behind it stand for a catalogue of files, each with a name and its
data. Memory and disk both have the directory, and a change of either that leaves it and the
sectors of the files alone leaves the catalogue what it was.
-/

namespace System44

/-- A file that can be written: its name leaves room for a NUL, and its size can be rounded up. -/
structure StoredFile where
  name : List Byte
  data : List Byte
  short : name.length ≤ 31
  ne_zero : ∀ b ∈ name, b ≠ 0#8
  small : SmallSize data.length

theorem smallSize_zero : SmallSize 0 := by simp [SmallSize]

instance : Inhabited StoredFile := ⟨⟨[], [], Nat.zero_le _, by simp, smallSize_zero⟩⟩

abbrev Files := Catalog StoredFile kfsMaxFiles

namespace StoredFile

variable (f : StoredFile)

def size : BitVec 32 := BitVec.ofNat 32 f.data.length

/-- The sectors that a transfer of the file moves: their count is cut to eight bits. -/
def moved : ℕ := ceilSectors f.data.length % 2 ^ 8

/-- What a read of the file returns. -/
def answer : ℤ := if f.moved = 0 then errFailed else f.moved

theorem toNat_size : f.size.toNat = f.data.length := by
  have hsmall := f.small
  rw [size, BitVec.toNat_ofNat]
  unfold SmallSize at hsmall
  exact Nat.mod_eq_of_lt (by omega)

theorem toNat_kfsSectors_size : (kfsSectors f.size).toNat = ceilSectors f.data.length := by
  have hsmall : SmallSize f.size.toNat := by
    rw [toNat_size]
    exact f.small
  rw [toNat_kfsSectors_of_small hsmall, toNat_size]

theorem moved_lt : f.moved < 2 ^ 8 := Nat.mod_lt _ (by decide)

theorem blockReach_moved : blockReach f.moved ≤ 2 ^ 32 := by
  have hlt := f.moved_lt
  unfold blockReach
  omega

theorem moved_eq (h : ceilSectors f.data.length ≤ 255) : f.moved = ceilSectors f.data.length :=
  Nat.mod_eq_of_lt (by omega)

theorem length_le_moved (h : ceilSectors f.data.length ≤ 255) : f.data.length ≤ 512 * f.moved := by
  rw [f.moved_eq h, ceilSectors]
  omega

def DataAt (d : Drive) (lba : ℕ) : Prop :=
  ∀ x < f.data.length, x < 512 * f.moved → d.byteAt lba x = f.data.getD x 0#8

/-- Slot `i` has the name and the size of the file. -/
structure EntryAt (m : Mem) (sb i : ℕ) : Prop where
  name : Spells m (kfsFile sb i) f.name
  size : fileSize m sb i = f.size

end StoredFile

/-- Memory and disk stand for the files. -/
structure Represents (sb : ℕ) (M : Machine) (c : Files) : Prop where
  errorFree : M.disk.ErrorFree
  layout : Layout M.mem sb
  magic : magic M.mem sb = kfsMagic
  count : fileCount M.mem sb = c.items.length
  entry : ∀ (i : ℕ) (hi : i < c.items.length), c.items[i].EntryAt M.mem sb i
  data : ∀ (i : ℕ) (hi : i < c.items.length), c.items[i].DataAt M.disk (startLba M.mem sb i).toNat
  saved : ∀ x < sizeofKfsSuperblock, M.mem.get (sb + x) = M.disk.byteAt 0 x

def endLba (m : Mem) (sb : ℕ) : ℕ := (nextLba m sb (fileCount m sb)).toNat

theorem Layout.endLba_pos {m : Mem} {sb : ℕ} (h : Layout m sb) : 0 < endLba m sb := by
  rw [endLba, h.toNat_nextLba]
  exact Extents.base_le_start 1 _ _

theorem Layout.endLba_lt {m : Mem} {sb : ℕ} (h : Layout m sb) : endLba m sb + 2 ^ 8 < lbaLimit := by
  have hbound := (System44.toNat_nextLba m sb h.count_le).2
  have hmax : fileCount m sb ≤ 8 := h.count_le
  unfold endLba lbaLimit
  omega

theorem Layout.lt_endLba {m : Mem} {sb i x : ℕ} (h : Layout m sb) (hi : i < fileCount m sb)
    (hx : x < (fileSize m sb i).toNat) : (startLba m sb i).toNat + x / 512 < endLba m sb := by
  rw [endLba, h.toNat_nextLba]
  apply Extents.lt_start_of_mem hi
  rw [← fileExtent_eq h hi]
  refine ⟨Nat.le_add_right _ _, Nat.add_lt_add_left ?_ _⟩
  rw [fileSectors, ceilSectors]
  omega

theorem Layout.startLba_pos {m : Mem} {sb i : ℕ} (h : Layout m sb) (hi : i < fileCount m sb) :
    0 < (startLba m sb i).toNat := by
  rw [h.start_eq i hi]
  exact Extents.base_le_start 1 _ _

theorem Layout.byteAt_congr {m : Mem} {sb i x : ℕ} {d d' : Drive} (h : Layout m sb)
    (hsector : ∀ s, 0 < s → s < endLba m sb → d'.sector s = d.sector s) (hi : i < fileCount m sb)
    (hx : x < (fileSize m sb i).toNat) :
    d'.byteAt (startLba m sb i).toNat x = d.byteAt (startLba m sb i).toNat x := by
  have hpos := h.startLba_pos hi
  have hlt := h.lt_endLba hi hx
  have hend := h.endLba_lt
  rw [Drive.byteAt, Drive.byteAt, Nat.mod_eq_of_lt (by omega), hsector _ (by omega) hlt]

theorem byteAt_first {d : Drive} {x : ℕ} (hx : x < sizeofKfsSuperblock) :
    d.byteAt 0 x = (d.sector 0).byte x :=
  Drive.byteAt_of_lt (by decide) (hx.trans (by decide))

section

variable {sb : ℕ} {M M' : Machine} {c : Files} (h : Represents sb M c)

include h

theorem Represents.lt_count {i : ℕ} (hi : i < c.items.length) : i < fileCount M.mem sb := by
  rwa [h.count]

theorem Represents.transport (hdisk : M'.disk.ErrorFree)
    (hmem : ∀ x < sizeofKfsSuperblock, M'.mem.get (sb + x) = M.mem.get (sb + x))
    (hsector : ∀ s < endLba M.mem sb, M'.disk.sector s = M.disk.sector s) :
    Represents sb M' c := by
  have hmax : c.items.length ≤ 8 := c.length_le
  have hfield : ∀ i < c.items.length, ∀ x, x + 4 ≤ sizeofKfsFile →
      M'.mem.load32 (kfsFile sb i + x) = M.mem.load32 (kfsFile sb i + x) := by
    intro i hi x hx
    apply Mem.load32_congr
    intro t ht
    rw [kfsFile, Nat.add_assoc, Nat.add_assoc]
    unfold sizeofKfsFile at *
    exact hmem _ (by unfold sizeofKfsSuperblock; omega)
  have hword : ∀ x, x + 4 ≤ sizeofKfsSuperblock →
      M'.mem.load32 (sb + x) = M.mem.load32 (sb + x) := by
    intro x hx
    apply Mem.load32_congr
    intro t ht
    rw [Nat.add_assoc]
    exact hmem _ (by omega)
  refine ⟨hdisk, layout_elsewhere h.layout hmem, ?_, ?_, ?_, ?_, ?_⟩
  · exact (hword 0 (by decide)).trans h.magic
  · exact (congrArg BitVec.toNat (hword 4 (by decide))).trans h.count
  · intro i hi
    obtain ⟨hname, hsize⟩ := h.entry i hi
    have hshort := c.items[i].short
    refine ⟨hname.congr fun t ht => ?_, (hfield i hi 36 (by decide)).trans hsize⟩
    rw [kfsFile, Nat.add_assoc]
    unfold sizeofKfsFile
    exact hmem _ (by unfold sizeofKfsSuperblock; omega)
  · intro i hi x hx hmoved
    have hstart : startLba M'.mem sb i = startLba M.mem sb i := hfield i hi 32 (by decide)
    rw [hstart, h.layout.byteAt_congr (fun s _ hs => hsector s hs) (h.lt_count hi)]
    · exact h.data i hi x hx hmoved
    · rwa [(h.entry i hi).size, StoredFile.toNat_size]
  · intro x hx
    rw [hmem x hx, h.saved x hx, byteAt_first hx, byteAt_first hx, hsector 0 h.layout.endLba_pos]

theorem Represents.namedDirectory :
    NamedDirectory M.mem sb fun i => (c.items.getD i default).name := by
  constructor
  · exact h.layout.count_le
  · intro i _
    exact Nat.lt_succ_of_le (StoredFile.short _)
  · intro i hi
    rw [h.count] at hi
    rw [List.getD_eq_getElem _ _ hi]
    exact (h.entry i hi).name

variable {name : ℕ} {bs : List Byte} (hname : Spells M.mem name bs)

include hname

theorem Represents.kfsFind_none (hnone : c.lookup StoredFile.name bs = none) :
    kfsFind M.mem sb name = some none := by
  rw [kfsFind_eq_none_iff h.namedDirectory hname, h.count]
  intro i hi
  rw [List.getD_eq_getElem _ _ hi]
  exact Catalog.lookup_eq_none_iff.mp hnone _ (List.getElem_mem hi)

theorem Represents.kfsFind_some {f : StoredFile} (hsome : c.lookup StoredFile.name bs = some f) :
    ∃ (i : ℕ) (hi : i < c.items.length), c.items[i] = f ∧
      kfsFind M.mem sb name = some (some i) := by
  obtain ⟨i, hi, hf, hkey, hfirst⟩ := Catalog.lookup_eq_some_iff.mp hsome
  refine ⟨i, hi, hf, (kfsFind_eq_some_iff h.namedDirectory hname).mpr ⟨h.lt_count hi, ?_, ?_⟩⟩
  · rwa [List.getD_eq_getElem _ _ hi]
  · intro j hj
    rw [List.getD_eq_getElem _ _ (hj.trans hi)]
    exact hfirst j hj

theorem Represents.kfsRead_none (hnone : c.lookup StoredFile.name bs = none) (buf : ℕ) :
    kfsRead M sb name buf = some (errNotFound, M) := by
  rw [kfsRead, h.kfsFind_none hname hnone]
  rfl

/-- A read delivers the sectors of the file that a transfer moves, with gaps between them that it
leaves alone. -/
theorem Represents.kfsRead_some {f : StoredFile} (hsome : c.lookup StoredFile.name bs = some f)
    (buf : ℕ) : ∃ M' n, kfsRead M sb name buf = some (f.answer, M') ∧
      M.disk.Unwritten M'.disk n ∧ M'.pmm = M.pmm ∧
      (∀ x < f.data.length, x < 512 * f.moved →
        M'.mem.get (buf + spread x) = f.data.getD x 0#8) ∧
      ∀ a, ¬ InBlock f.moved (Mem.offset buf a) → M'.mem.get a = M.mem.get a := by
  obtain ⟨i, hi, rfl, hfind⟩ := h.kfsFind_some hname hsome
  have hsectors : (kfsSectors (fileSize M.mem sb i)).toNat =
      ceilSectors c.items[i].data.length := by
    rw [(h.entry i hi).size, StoredFile.toNat_kfsSectors_size]
  obtain ⟨⟨r, disk, mem⟩, hread⟩ := ataReadSectors_of_errorFree h.errorFree M.mem
    (startLba M.mem sb i).toNat (kfsSectors (fileSize M.mem sb i)).toNat buf
  obtain ⟨hr, hunw, hmem⟩ := ataReadSectors_some hread
  have hpassed : M.disk.passed (kfsSectors (fileSize M.mem sb i)).toNat = c.items[i].moved := by
    rw [h.errorFree.passed, hsectors, StoredFile.moved]
  have hanswer : r = c.items[i].answer := by
    rw [hr, Drive.answer, hpassed, hsectors]
    change (if c.items[i].moved ≠ 0 ∧ c.items[i].moved = c.items[i].moved then _ else _) = _
    rw [StoredFile.answer]
    by_cases h0 : c.items[i].moved = 0
    · rw [if_pos h0, if_neg fun hc => hc.1 h0]
    · rw [if_neg h0, if_pos ⟨h0, rfl⟩]
      rfl
  refine ⟨{ M with mem := mem, disk := disk }, _, ?_, hunw, rfl, ?_, ?_⟩
  · rw [kfsRead, hfind, Option.bind_eq_bind, Option.bind_some]
    simp only [hread, Option.bind_eq_bind, Option.bind_some, hanswer]
  · intro x hx hlt
    rw [hmem, hpassed, Mem.get_blitBlocks_spread _ _ _ c.items[i].blockReach_moved hlt]
    exact h.data i hi x hx hlt
  · intro a ha
    rw [hmem, hpassed]
    exact Mem.get_blitBlocks_of_not _ _ c.items[i].blockReach_moved ha

end

end System44
