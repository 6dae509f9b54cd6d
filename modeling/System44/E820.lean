import System44.ByteMemory

/-!
# The E820 memory map as the kernel reads it

The boot sector leaves the number of entries at `mmapCount` and the entries themselves from
`mmapAddr` on, and the kernel reads them there as an array of `struct e820_entry`. Nothing
protects the table: a store to its bytes changes what the next reading finds.
-/

namespace System44

structure E820Entry where
  baseLow : BitVec 32
  baseHigh : BitVec 32
  lengthLow : BitVec 32
  lengthHigh : BitVec 32
  type : BitVec 32
  deriving DecidableEq

def mmapAddr : ℕ := 0x8000
def mmapCount : ℕ := 0x7DFE
def sizeofE820Entry : ℕ := 20
def pageSize : ℕ := 4096

namespace E820Entry

variable (e : E820Entry)

def base : ℕ := e.baseHigh.toNat * 2 ^ 32 + e.baseLow.toNat

def length : ℕ := e.lengthHigh.toNat * 2 ^ 32 + e.lengthLow.toNat

def Usable : Prop := e.type = 1#32

instance : Decidable e.Usable := inferInstanceAs (Decidable (e.type = 1#32))

/-- The words of the entry in the order in which they lie in memory. -/
def word : ℕ → BitVec 32
  | 0 => e.baseLow
  | 1 => e.baseHigh
  | 2 => e.lengthLow
  | 3 => e.lengthHigh
  | _ => e.type

def byte (k : ℕ) : Byte := leBytes (e.word (k / 4)) (k % 4)

/-- The page lies entirely inside the 64-bit address range of the entry. -/
def Contains (page : ℕ) : Prop :=
  e.base ≤ pageSize * page ∧ pageSize * (page + 1) ≤ e.base + e.length

instance (page : ℕ) : Decidable (e.Contains page) :=
  inferInstanceAs (Decidable (_ ∧ _))

end E820Entry

/-- `(struct e820_entry *)addr` dereferenced. -/
def loadE820Entry (m : Mem) (addr : ℕ) : E820Entry where
  baseLow := m.load32 addr
  baseHigh := m.load32 (addr + 4)
  lengthLow := m.load32 (addr + 8)
  lengthHigh := m.load32 (addr + 12)
  type := m.load32 (addr + 16)

/-- `*(uint16_t*)MMAPCOUNT`. -/
def readCount (m : Mem) : ℕ := m.load16 mmapCount

def readEntry (m : Mem) (i : ℕ) : E820Entry := loadE820Entry m (mmapAddr + i * sizeofE820Entry)

def readMap (m : Mem) : List E820Entry := (List.range (readCount m)).map (readEntry m)

theorem readCount_lt (m : Mem) : readCount m < 2 ^ 16 := m.load16_lt mmapCount

theorem load32_word {m : Mem} {a : ℕ} {e : E820Entry} {w : ℕ} :
    (∀ i < 4, m.get (a + 4 * w + i) = e.byte (4 * w + i)) ↔ m.load32 (a + 4 * w) = e.word w := by
  have hbyte : ∀ i < 4, e.byte (4 * w + i) = leBytes (e.word w) i := by
    intro i hi
    rw [E820Entry.byte, show (4 * w + i) / 4 = w by omega, show (4 * w + i) % 4 = i by omega]
  rw [Mem.load32, ← leWord_leBytes (e.word w)]
  constructor
  · intro h
    apply leWord_congr
    intro i hi
    rw [h i hi, hbyte i hi]
  · intro h i hi
    rw [hbyte i hi]
    exact leWord_inj h i hi

theorem loadE820Entry_eq_iff {m : Mem} {a : ℕ} {e : E820Entry} :
    loadE820Entry m a = e ↔ ∀ k < sizeofE820Entry, m.get (a + k) = e.byte k := by
  have hwords : loadE820Entry m a = e ↔ ∀ w < 5, m.load32 (a + 4 * w) = e.word w := by
    constructor
    · rintro rfl w hw
      interval_cases w <;> rfl
    · intro h
      have h0 := h 0 (by decide)
      have h1 := h 1 (by decide)
      have h2 := h 2 (by decide)
      have h3 := h 3 (by decide)
      have h4 := h 4 (by decide)
      simp only [Nat.mul_zero, Nat.add_zero, Nat.reduceMul] at h0 h1 h2 h3 h4
      rw [loadE820Entry, h0, h1, h2, h3, h4]
      rfl
  rw [hwords]
  constructor
  · intro h k hk
    have hk' : k < 20 := hk
    have hw := load32_word.mpr (h (k / 4) (by omega)) (k % 4) (by omega)
    rwa [Nat.add_assoc, Nat.div_add_mod] at hw
  · intro h w hw
    apply load32_word.mp
    intro i hi
    rw [Nat.add_assoc]
    exact h (4 * w + i) (by unfold sizeofE820Entry; omega)

theorem loadE820Entry_congr {m m' : Mem} {a : ℕ}
    (h : ∀ i < sizeofE820Entry, m.get (a + i) = m'.get (a + i)) :
    loadE820Entry m a = loadE820Entry m' a := by
  have hw (k : ℕ) (hk : k + 4 ≤ 20) : m.load32 (a + k) = m'.load32 (a + k) := by
    apply Mem.load32_congr
    intro i hi
    rw [Nat.add_assoc]
    exact h (k + i) (by unfold sizeofE820Entry; omega)
  have h0 := hw 0 (by decide)
  have h4 := hw 4 (by decide)
  have h8 := hw 8 (by decide)
  have h12 := hw 12 (by decide)
  have h16 := hw 16 (by decide)
  simp only [Nat.add_zero] at h0
  simp only [loadE820Entry, h0, h4, h8, h12, h16]

/-- The addresses that hold the map: the count word and every entry it announces. -/
def InTable (m : Mem) (a : ℕ) : Prop :=
  mmapCount ≤ a ∧ a < mmapCount + 2 ∨
    mmapAddr ≤ a ∧ a < mmapAddr + readCount m * sizeofE820Entry

section

variable {m m' : Mem} (h : ∀ a, InTable m a → m.get a = m'.get a)

include h

theorem readCount_eq_of_table : readCount m' = readCount m := by
  have h0 := h mmapCount (Or.inl ⟨Nat.le_refl _, by omega⟩)
  have h1 := h (mmapCount + 1) (Or.inl ⟨by omega, by omega⟩)
  simp only [readCount, Mem.load16, h0, h1]

theorem readEntry_eq_of_table {i : ℕ} (hi : i < readCount m) : readEntry m' i = readEntry m i := by
  apply loadE820Entry_congr
  intro k hk
  refine (h _ (Or.inr ⟨by omega, ?_⟩)).symm
  have hmul : (i + 1) * sizeofE820Entry ≤ readCount m * sizeofE820Entry :=
    Nat.mul_le_mul_right _ hi
  rw [Nat.succ_mul] at hmul
  omega

end

/-- A memory that holds the given map and is zero elsewhere. -/
def tableMemory (es : List E820Entry) : Mem where
  bytes a :=
    if a = mmapCount then BitVec.ofNat 8 es.length
    else if a = mmapCount + 1 then BitVec.ofNat 8 (es.length / 256)
    else if a < mmapAddr then 0#8
    else match es[(a - mmapAddr) / sizeofE820Entry]? with
      | some e => e.byte ((a - mmapAddr) % sizeofE820Entry)
      | none => 0#8
  writes := []

theorem readCount_tableMemory (es : List E820Entry) (hlen : es.length < 2 ^ 16) :
    readCount (tableMemory es) = es.length := by
  have hne : mmapCount + 1 ≠ mmapCount := by omega
  have h0 : mmapCount % 2 ^ 32 = mmapCount := by decide
  have h1 : (mmapCount + 1) % 2 ^ 32 = mmapCount + 1 := by decide
  simp only [readCount, Mem.load16, Mem.get, tableMemory, h0, h1, if_true, if_neg hne,
    BitVec.toNat_ofNat]
  omega

theorem readEntry_tableMemory {es : List E820Entry} (hlen : es.length < 2 ^ 16) {i : ℕ}
    (hi : i < es.length) : readEntry (tableMemory es) i = es[i] := by
  apply loadE820Entry_eq_iff.mpr
  intro k hk
  have hk' : k < 20 := hk
  have hmod : (mmapAddr + i * sizeofE820Entry + k) % 2 ^ 32 =
      mmapAddr + (i * sizeofE820Entry + k) := by
    unfold mmapAddr sizeofE820Entry
    omega
  have hdiv : (i * sizeofE820Entry + k) / sizeofE820Entry = i := by
    unfold sizeofE820Entry
    omega
  have hrem : (i * sizeofE820Entry + k) % sizeofE820Entry = k := by
    unfold sizeofE820Entry
    omega
  have hcount : ∀ x, mmapAddr + x ≠ mmapCount ∧ mmapAddr + x ≠ mmapCount + 1 := by
    unfold mmapAddr mmapCount
    omega
  simp only [Mem.get, hmod, tableMemory, if_neg (hcount _).1, if_neg (hcount _).2,
    Nat.not_lt.mpr (Nat.le_add_right mmapAddr _), if_false, Nat.add_sub_cancel_left, hdiv, hrem,
    List.getElem?_eq_getElem hi]

theorem readMap_tableMemory {es : List E820Entry} (hlen : es.length < 2 ^ 16) :
    readMap (tableMemory es) = es := by
  apply List.ext_getElem
  · rw [readMap, List.length_map, List.length_range, readCount_tableMemory es hlen]
  · intro i h1 h2
    simp only [readMap, List.getElem_map, List.getElem_range]
    exact readEntry_tableMemory hlen h2

end System44
