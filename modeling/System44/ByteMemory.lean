import Mathlib.Data.Nat.Init
import Mathlib.Tactic.IntervalCases

/-!
# Byte memory with 32-bit addresses

A memory is a total map from addresses to bytes. Addresses are natural numbers read modulo
`2 ^ 32`, so pointer arithmetic wraps around as it does on a 32-bit machine. Every store is also
recorded in `writes`, newest first, so that a frame statement can speak of the stores themselves
and not only of the bytes they happened to change.
-/

abbrev Byte := BitVec 8

/-- The four bytes of a 32-bit word, least significant first. -/
def leBytes (v : BitVec 32) (i : ℕ) : Byte := BitVec.ofNat 8 (v.toNat / 256 ^ i)

/-- The 32-bit word whose little-endian bytes are `src 0`, ..., `src 3`. -/
def leWord (src : ℕ → Byte) : BitVec 32 :=
  BitVec.ofNat 32 ((src 0).toNat + 256 * (src 1).toNat + 65536 * (src 2).toNat +
    16777216 * (src 3).toNat)

theorem toNat_leWord (src : ℕ → Byte) :
    (leWord src).toNat = (src 0).toNat + 256 * (src 1).toNat + 65536 * (src 2).toNat +
      16777216 * (src 3).toNat := by
  have h0 := (src 0).isLt
  have h1 := (src 1).isLt
  have h2 := (src 2).isLt
  have h3 := (src 3).isLt
  rw [leWord, BitVec.toNat_ofNat, Nat.mod_eq_of_lt (by omega)]

theorem leWord_leBytes (v : BitVec 32) : leWord (leBytes v) = v := by
  apply BitVec.eq_of_toNat_eq
  have hv := v.isLt
  rw [toNat_leWord]
  simp only [leBytes, BitVec.toNat_ofNat]
  omega

theorem leWord_congr {src src' : ℕ → Byte} (h : ∀ i < 4, src i = src' i) :
    leWord src = leWord src' := by
  simp only [leWord, h 0 (by omega), h 1 (by omega), h 2 (by omega), h 3 (by omega)]

theorem leWord_inj {src src' : ℕ → Byte} (h : leWord src = leWord src') :
    ∀ i < 4, src i = src' i := by
  have hn := congrArg BitVec.toNat h
  rw [toNat_leWord, toNat_leWord] at hn
  have hlt (i : ℕ) := (src i).isLt
  have hlt' (i : ℕ) := (src' i).isLt
  have := hlt 0; have := hlt 1; have := hlt 2; have := hlt 3
  have := hlt' 0; have := hlt' 1; have := hlt' 2; have := hlt' 3
  intro i hi
  apply BitVec.eq_of_toNat_eq
  interval_cases i <;> omega

theorem leBytes_leWord (src : ℕ → Byte) {k : ℕ} (hk : k < 4) : leBytes (leWord src) k = src k :=
  leWord_inj (leWord_leBytes (leWord src)) k hk

theorem leWord_eq_allOnes_iff (src : ℕ → Byte) :
    leWord src = BitVec.allOnes 32 ↔ ∀ i < 4, src i = BitVec.allOnes 8 := by
  have hw : leWord (fun _ => BitVec.allOnes 8) = BitVec.allOnes 32 := by decide
  constructor
  · intro h
    exact leWord_inj (h.trans hw.symm)
  · intro h
    rw [← hw]
    exact leWord_congr h

/-- The bytes of an address space, together with the addresses stored to so far. -/
structure Mem where
  bytes : ℕ → Byte
  writes : List ℕ

namespace Mem

def get (m : Mem) (a : ℕ) : Byte := m.bytes (a % 2 ^ 32)

def set (m : Mem) (a : ℕ) (v : Byte) : Mem where
  bytes b := if b = a % 2 ^ 32 then v else m.bytes b
  writes := a % 2 ^ 32 :: m.writes

theorem get_congr (m : Mem) {a b : ℕ} (h : a % 2 ^ 32 = b % 2 ^ 32) : m.get a = m.get b := by
  rw [get, get, h]

theorem get_set (m : Mem) (a b : ℕ) (v : Byte) :
    (m.set a v).get b = if b % 2 ^ 32 = a % 2 ^ 32 then v else m.get b := rfl

@[simp] theorem get_set_self (m : Mem) (a : ℕ) (v : Byte) : (m.set a v).get a = v := by
  rw [get_set, if_pos rfl]

theorem get_set_of_ne (m : Mem) {a b : ℕ} (v : Byte) (h : b % 2 ^ 32 ≠ a % 2 ^ 32) :
    (m.set a v).get b = m.get b := by
  rw [get_set, if_neg h]

@[simp] theorem writes_set (m : Mem) (a : ℕ) (v : Byte) :
    (m.set a v).writes = a % 2 ^ 32 :: m.writes := rfl

/-- How far above `a` the address `b` lies, going round the end of the address space. -/
def offset (a b : ℕ) : ℕ := (b + (2 ^ 32 - a % 2 ^ 32)) % 2 ^ 32

theorem offset_lt (a b : ℕ) : offset a b < 2 ^ 32 := Nat.mod_lt _ (by decide)

theorem offset_add_mod (a i : ℕ) : offset a (a + i) = i % 2 ^ 32 := by
  unfold offset
  omega

theorem offset_add (a : ℕ) {i : ℕ} (h : i < 2 ^ 32) : offset a (a + i) = i := by
  rw [offset_add_mod, Nat.mod_eq_of_lt h]

theorem mod_add_offset (a b : ℕ) : (a + offset a b) % 2 ^ 32 = b % 2 ^ 32 := by
  unfold offset
  omega

theorem offset_eq_iff (a b : ℕ) {i : ℕ} (h : i < 2 ^ 32) :
    offset a b = i ↔ b % 2 ^ 32 = (a + i) % 2 ^ 32 := by
  unfold offset
  omega

theorem offset_congr (a : ℕ) {b c : ℕ} (h : b % 2 ^ 32 = c % 2 ^ 32) :
    offset a b = offset a c := by
  unfold offset
  omega

theorem le_offset {a b n : ℕ} (hb : b < 2 ^ 32) (h : b < a ∨ a + n ≤ b) (ha : a + n ≤ 2 ^ 32) :
    n ≤ offset a b := by
  unfold offset
  omega

theorem le_offset_shift {base a x n : ℕ} (h : offset base a < x ∨ x + n ≤ offset base a)
    (hx : x + n ≤ 2 ^ 32) : n ≤ offset (base + x) a := by
  unfold offset at *
  omega

/-- Store `src 0`, ..., `src (n - 1)` at `a`, `a + 1`, ..., in this order. -/
def blit (m : Mem) (a : ℕ) : ℕ → (ℕ → Byte) → Mem
  | 0, _ => m
  | n + 1, src => (blit m a n src).set (a + n) (src n)

@[simp] theorem blit_zero (m : Mem) (a : ℕ) (src : ℕ → Byte) : m.blit a 0 src = m := rfl

theorem blit_succ (m : Mem) (a n : ℕ) (src : ℕ → Byte) :
    m.blit a (n + 1) src = (m.blit a n src).set (a + n) (src n) := rfl

theorem get_blit (m : Mem) (a b : ℕ) {n : ℕ} (src : ℕ → Byte) (hn : n ≤ 2 ^ 32) :
    (m.blit a n src).get b = if offset a b < n then src (offset a b) else m.get b := by
  induction n with
  | zero => simp
  | succ n ih =>
      rw [blit_succ, get_set, ih (by omega)]
      by_cases h : b % 2 ^ 32 = (a + n) % 2 ^ 32
      · have ho := (offset_eq_iff a b (by omega)).mpr h
        rw [if_pos h, if_pos (by omega), ho]
      · have ho : offset a b ≠ n := fun ho => h ((offset_eq_iff a b (by omega)).mp ho)
        rw [if_neg h]
        by_cases hlt : offset a b < n
        · rw [if_pos hlt, if_pos (by omega)]
        · rw [if_neg hlt, if_neg (by omega)]

theorem get_blit_add (m : Mem) (a : ℕ) {n i : ℕ} (src : ℕ → Byte) (hn : n ≤ 2 ^ 32)
    (hi : i < n) : (m.blit a n src).get (a + i) = src i := by
  rw [get_blit m a _ src hn, offset_add a (by omega), if_pos hi]

theorem get_blit_of_le (m : Mem) {a b n : ℕ} (src : ℕ → Byte) (hn : n ≤ 2 ^ 32)
    (h : n ≤ offset a b) : (m.blit a n src).get b = m.get b := by
  rw [get_blit m a b src hn, if_neg (by omega)]

theorem get_blit_beside (m : Mem) {base p n x : ℕ} (src : ℕ → Byte) (hp : p + n ≤ 2 ^ 32)
    (hx : x < 2 ^ 32) (h : x < p ∨ p + n ≤ x) :
    (m.blit (base + p) n src).get (base + x) = m.get (base + x) :=
  get_blit_of_le m src (by omega) (le_offset_shift (by rwa [offset_add base hx]) hp)

theorem blit_congr (m : Mem) (a : ℕ) {n : ℕ} {src src' : ℕ → Byte} (h : ∀ i < n, src i = src' i) :
    m.blit a n src = m.blit a n src' := by
  induction n with
  | zero => rfl
  | succ n ih =>
      rw [blit_succ, blit_succ, ih fun i hi => h i (by omega), h n (by omega)]

theorem blit_blit (m : Mem) (a n k : ℕ) (src src' : ℕ → Byte) :
    (m.blit a n src).blit (a + n) k src' =
      m.blit a (n + k) fun i => if i < n then src i else src' (i - n) := by
  induction k with
  | zero =>
      rw [blit_zero, Nat.add_zero]
      apply blit_congr
      intro i hi
      rw [if_pos hi]
  | succ k ih =>
      rw [blit_succ, ih, ← Nat.add_assoc n k 1, blit_succ, if_neg (by omega), Nat.add_assoc a,
        Nat.add_sub_cancel_left]

/-- The addresses of the `n` bytes from `a` on, last first. -/
def span (a : ℕ) : ℕ → List ℕ
  | 0 => []
  | n + 1 => (a + n) % 2 ^ 32 :: span a n

theorem mem_span {a n x : ℕ} : x ∈ span a n ↔ ∃ i < n, x = (a + i) % 2 ^ 32 := by
  induction n with
  | zero => simp [span]
  | succ n ih =>
      rw [span, List.mem_cons, ih]
      constructor
      · rintro (h | ⟨i, hi, h⟩)
        · exact ⟨n, Nat.lt_succ_self n, h⟩
        · exact ⟨i, by omega, h⟩
      · rintro ⟨i, hi, h⟩
        rcases Nat.lt_succ_iff_lt_or_eq.mp hi with hlt | rfl
        · exact Or.inr ⟨i, hlt, h⟩
        · exact Or.inl h

theorem length_span (a n : ℕ) : (span a n).length = n := by
  induction n with
  | zero => rfl
  | succ n ih => rw [span, List.length_cons, ih]

/-- A copy stores to exactly the addresses of its destination. -/
theorem writes_blit (m : Mem) (a n : ℕ) (src : ℕ → Byte) :
    (m.blit a n src).writes = span a n ++ m.writes := by
  induction n with
  | zero => rfl
  | succ n ih => rw [blit_succ, writes_set, ih, span, List.cons_append]

theorem length_eq_of_blit_eq {m : Mem} {a n k : ℕ} {src src' : ℕ → Byte}
    (h : m.blit a n src = m.blit a k src') : n = k := by
  have hwrites := congrArg Mem.writes h
  rw [writes_blit, writes_blit, List.append_cancel_right_eq] at hwrites
  rw [← length_span a n, hwrites, length_span]

def load16 (m : Mem) (a : ℕ) : ℕ := (m.get a).toNat + 256 * (m.get (a + 1)).toNat

def load32 (m : Mem) (a : ℕ) : BitVec 32 := leWord fun i => m.get (a + i)

def store16 (m : Mem) (a v : ℕ) : Mem := m.blit a 2 fun i => BitVec.ofNat 8 (v / 256 ^ i)

def store32 (m : Mem) (a : ℕ) (v : BitVec 32) : Mem := m.blit a 4 (leBytes v)

theorem load16_lt (m : Mem) (a : ℕ) : m.load16 a < 2 ^ 16 := by
  have h0 := (m.get a).isLt
  have h1 := (m.get (a + 1)).isLt
  unfold load16
  omega

theorem load16_store16 (m : Mem) (a : ℕ) {v : ℕ} (hv : v < 2 ^ 16) :
    (m.store16 a v).load16 a = v := by
  have h0 := get_blit_add m a (i := 0) (fun i => BitVec.ofNat 8 (v / 256 ^ i)) (n := 2)
    (by decide) (by decide)
  have h1 := get_blit_add m a (i := 1) (fun i => BitVec.ofNat 8 (v / 256 ^ i)) (n := 2)
    (by decide) (by decide)
  rw [Nat.add_zero] at h0
  rw [load16, store16, h0, h1, BitVec.toNat_ofNat, BitVec.toNat_ofNat]
  omega

theorem get_store16_of_le (m : Mem) {a b : ℕ} (v : ℕ) (h : 2 ≤ offset a b) :
    (m.store16 a v).get b = m.get b := get_blit_of_le m _ (by decide) h

theorem load32_congr {m m' : Mem} {a : ℕ} (h : ∀ i < 4, m.get (a + i) = m'.get (a + i)) :
    m.load32 a = m'.load32 a := leWord_congr h

@[simp] theorem load32_store32 (m : Mem) (a : ℕ) (v : BitVec 32) :
    (m.store32 a v).load32 a = v := by
  rw [load32, ← leWord_leBytes v]
  apply leWord_congr
  intro i hi
  rw [leWord_leBytes, store32, get_blit_add m a _ (by decide) hi]

theorem get_store32_beside (m : Mem) {base p x : ℕ} (v : BitVec 32) (hp : p + 4 ≤ 2 ^ 32)
    (hx : x < 2 ^ 32) (h : x < p ∨ p + 4 ≤ x) :
    (m.store32 (base + p) v).get (base + x) = m.get (base + x) :=
  get_blit_beside m _ hp hx h

theorem get_store32_of_le (m : Mem) {a b : ℕ} (v : BitVec 32) (h : 4 ≤ offset a b) :
    (m.store32 a v).get b = m.get b := get_blit_of_le m _ (by decide) h

end Mem
