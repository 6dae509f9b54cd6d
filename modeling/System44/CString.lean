import System44.ByteMemory

/-!
# The string functions

`strcmp` and `strcpy` walk memory until a NUL byte stops them. Once a walk has gone round the whole
address space without one it goes on for ever, so `addressSpace` steps decide whether it ends.
-/

namespace System44

def addressSpace : ℕ := 2 ^ 32

def strcmpLoop (m : Mem) : ℕ → ℕ → ℕ → Option ℤ
  | 0, _, _ => none
  | fuel + 1, s1, s2 =>
    if m.get s1 ≠ 0#8 ∧ m.get s1 = m.get s2 then strcmpLoop m fuel (s1 + 1) (s2 + 1)
    else some ((m.get s1).toNat - (m.get s2).toNat)

def strcmp (m : Mem) (s1 s2 : ℕ) : Option ℤ := strcmpLoop m addressSpace s1 s2

def strcpyLoop : ℕ → Mem → ℕ → ℕ → Option Mem
  | 0, _, _, _ => none
  | fuel + 1, m, dest, src =>
    let c := m.get src
    let m := m.set dest c
    if c ≠ 0#8 then strcpyLoop fuel m (dest + 1) (src + 1) else some m

def strcpy (m : Mem) (dest src : ℕ) : Option Mem := strcpyLoop addressSpace m dest src

/-- A string of `len` characters and its NUL lie at `s`. -/
def StringAt (m : Mem) (s len : ℕ) : Prop :=
  (∀ i < len, m.get (s + i) ≠ 0#8) ∧ m.get (s + len) = 0#8

theorem StringAt.tail {m : Mem} {s len : ℕ} (h : StringAt m s (len + 1)) :
    StringAt m (s + 1) len := by
  constructor
  · intro i hi
    rw [Nat.add_assoc, Nat.add_comm 1 i]
    exact h.1 (i + 1) (by omega)
  · rw [Nat.add_assoc, Nat.add_comm 1 len]
    exact h.2

theorem StringAt.congr {m m' : Mem} {s s' len : ℕ} (h : StringAt m s len)
    (heq : ∀ i ≤ len, m'.get (s' + i) = m.get (s + i)) : StringAt m' s' len := by
  constructor
  · intro i hi
    rw [heq i (by omega)]
    exact h.1 i hi
  · rw [heq len (Nat.le_refl _)]
    exact h.2

theorem strcmpLoop_of_string {m : Mem} (s1 : ℕ) {s2 len fuel : ℕ} (h : StringAt m s2 len)
    (hfuel : len < fuel) :
    ∃ r, strcmpLoop m fuel s1 s2 = some r ∧
      (r = 0 ↔ ∀ i ≤ len, m.get (s1 + i) = m.get (s2 + i)) := by
  obtain ⟨fuel, rfl⟩ : ∃ n, fuel = n + 1 := ⟨fuel - 1, by omega⟩
  induction len generalizing s1 s2 fuel with
  | zero =>
      have hnul : m.get s2 = 0#8 := h.2
      have hstop : ¬ (m.get s1 ≠ 0#8 ∧ m.get s1 = m.get s2) := fun hc => hc.1 (hc.2.trans hnul)
      refine ⟨_, by rw [strcmpLoop, if_neg hstop], ?_⟩
      rw [sub_eq_zero, Int.ofNat_inj, BitVec.toNat_inj]
      simp
  | succ len ih =>
      have hne : m.get s2 ≠ 0#8 := h.1 0 (by omega)
      by_cases hgo : m.get s1 = m.get s2
      · obtain ⟨r, hr, hiff⟩ := ih (s1 + 1) h.tail (fuel - 1) (by omega)
        have hs : fuel - 1 + 1 = fuel := by omega
        rw [hs] at hr
        refine ⟨r, by rw [strcmpLoop, if_pos ⟨hgo ▸ hne, hgo⟩, hr], hiff.trans ?_⟩
        constructor
        · intro hall i hi
          cases i with
          | zero => exact hgo
          | succ i =>
              have := hall i (by omega)
              rwa [Nat.add_right_comm, Nat.add_right_comm s2] at this
        · intro hall i hi
          rw [Nat.add_right_comm, Nat.add_right_comm s2]
          exact hall (i + 1) (by omega)
      · refine ⟨_, by rw [strcmpLoop, if_neg fun hc => hgo hc.2], ?_⟩
        rw [sub_eq_zero, Int.ofNat_inj, BitVec.toNat_inj]
        exact ⟨fun h0 => absurd h0 hgo, fun hall => hall 0 (by omega)⟩

theorem strcmp_of_string {m : Mem} (s1 : ℕ) {s2 len : ℕ} (h : StringAt m s2 len)
    (hlen : len < addressSpace) :
    ∃ r, strcmp m s1 s2 = some r ∧ (r = 0 ↔ ∀ i ≤ len, m.get (s1 + i) = m.get (s2 + i)) :=
  strcmpLoop_of_string s1 h hlen

theorem strcpyLoop_of_string {m : Mem} {dest src len : ℕ} (h : StringAt m src len)
    (hlen : len < addressSpace) (hahead : ∀ i ≤ len, i ≤ Mem.offset dest (src + i))
    {n fuel : ℕ} (hn : n ≤ len) (hfuel : len - n < fuel) :
    strcpyLoop fuel (m.blit dest n fun i => m.get (src + i)) (dest + n) (src + n) =
      some (m.blit dest (len + 1) fun i => m.get (src + i)) := by
  have hspace : addressSpace = 2 ^ 32 := rfl
  induction fuel generalizing n with
  | zero => omega
  | succ fuel ih =>
      have hread : (m.blit dest n fun i => m.get (src + i)).get (src + n) = m.get (src + n) :=
        Mem.get_blit_of_le m _ (by omega) (hahead n hn)
      rw [strcpyLoop]
      simp only [hread]
      rw [← Mem.blit_succ m dest n fun i => m.get (src + i)]
      rcases Nat.lt_or_eq_of_le hn with hlt | rfl
      · rw [if_pos (h.1 n hlt)]
        exact ih hlt (by omega)
      · rw [if_neg (not_not_intro h.2)]

theorem strcpy_ahead {m : Mem} (dest : ℕ) {src len : ℕ} (h : StringAt m src len)
    (hlen : len < addressSpace) (hahead : ∀ i ≤ len, i ≤ Mem.offset dest (src + i)) :
    strcpy m dest src = some (m.blit dest (len + 1) fun i => m.get (src + i)) :=
  strcpyLoop_of_string h hlen hahead (Nat.zero_le len) hlen

theorem strcpy_of_string {m : Mem} (dest : ℕ) {src len : ℕ} (h : StringAt m src len)
    (hlen : len < addressSpace) (happart : ∀ i ≤ len, len < Mem.offset dest (src + i)) :
    strcpy m dest src = some (m.blit dest (len + 1) fun i => m.get (src + i)) :=
  strcpy_ahead dest h hlen fun i hi => hi.trans (happart i hi).le

theorem strcmpLoop_zero {m : Mem} {fuel s1 s2 : ℕ} (h : strcmpLoop m fuel s1 s2 = some 0) :
    ∃ len < fuel, StringAt m s2 len ∧ ∀ i ≤ len, m.get (s1 + i) = m.get (s2 + i) := by
  induction fuel generalizing s1 s2 with
  | zero => cases h
  | succ fuel ih =>
      rw [strcmpLoop] at h
      by_cases hgo : m.get s1 ≠ 0#8 ∧ m.get s1 = m.get s2
      · rw [if_pos hgo] at h
        obtain ⟨len, hlen, hstring, hsame⟩ := ih h
        refine ⟨len + 1, by omega, ⟨?_, ?_⟩, ?_⟩
        · intro i hi
          cases i with
          | zero => exact hgo.2 ▸ hgo.1
          | succ i =>
              rw [← Nat.add_assoc, Nat.add_right_comm]
              exact hstring.1 i (by omega)
        · rw [← Nat.add_assoc, Nat.add_right_comm]
          exact hstring.2
        · intro i hi
          cases i with
          | zero => exact hgo.2
          | succ i =>
              rw [← Nat.add_assoc, Nat.add_right_comm, ← Nat.add_assoc, Nat.add_right_comm s2]
              exact hsame i (by omega)
      · rw [if_neg hgo, Option.some_inj, sub_eq_zero, Int.ofNat_inj, BitVec.toNat_inj] at h
        have hnul : m.get s1 = 0#8 := by
          by_contra hne
          exact hgo ⟨hne, h⟩
        refine ⟨0, Nat.succ_pos fuel, ⟨fun i hi => absurd hi (Nat.not_lt_zero i), ?_⟩, ?_⟩
        · exact h.symm.trans hnul
        · intro i hi
          obtain rfl : i = 0 := Nat.le_zero.mp hi
          exact h

/-- A copy whose destination lies within the source never meets the NUL. -/
theorem strcpyLoop_overrun {d : ℕ} (fuel : ℕ) (m : Mem) (src : ℕ) (hd : 0 < d)
    (hne : ∀ t < d, m.get (src + t) ≠ 0#8) : strcpyLoop fuel m (src + d) src = none := by
  induction fuel generalizing m src with
  | zero => rfl
  | succ fuel ih =>
      have hc : m.get src ≠ 0#8 := hne 0 hd
      rw [strcpyLoop, if_pos hc, Nat.add_right_comm]
      apply ih
      intro t ht
      rw [Mem.get_set]
      split
      · exact hc
      · rename_i hoff
        have hlt : t + 1 < d := by
          rcases Nat.lt_or_eq_of_le (Nat.succ_le_of_lt ht) with hlt | heq
          · exact hlt
          · rw [Nat.add_assoc, Nat.add_comm 1 t] at hoff
            exact absurd (by rw [← heq]) hoff
        rw [Nat.add_assoc, Nat.add_comm 1 t]
        exact hne (t + 1) hlt

/-- The bytes of a literal, without the NUL. -/
def asciiBytes (s : List Char) : List Byte := s.map fun c => BitVec.ofNat 8 c.toNat

def strcmpLit (m : Mem) : ℕ → List Byte → ℤ
  | s1, [] => (m.get s1).toNat
  | s1, b :: bs =>
    if m.get s1 ≠ 0#8 ∧ m.get s1 = b then strcmpLit m (s1 + 1) bs
    else (m.get s1).toNat - b.toNat

theorem strcmpLit_congr {m m' : Mem} {s s' len : ℕ} (h : StringAt m s len)
    (heq : ∀ i ≤ len, m'.get (s' + i) = m.get (s + i)) (bs : List Byte) :
    strcmpLit m' s' bs = strcmpLit m s bs := by
  induction bs generalizing s s' len with
  | nil =>
      have hfirst : m'.get s' = m.get s := heq 0 (Nat.zero_le len)
      rw [strcmpLit, strcmpLit, hfirst]
  | cons b bs ih =>
      have hfirst : m'.get s' = m.get s := heq 0 (Nat.zero_le len)
      rw [strcmpLit, strcmpLit, hfirst]
      cases len with
      | zero =>
          have hstop : ¬ (m.get s ≠ 0#8 ∧ m.get s = b) := fun hc => hc.1 h.2
          rw [if_neg hstop, if_neg hstop]
      | succ len =>
          have hrest : strcmpLit m' (s' + 1) bs = strcmpLit m (s + 1) bs := by
            refine ih h.tail fun i hi => ?_
            rw [Nat.add_right_comm, Nat.add_right_comm s]
            exact heq (i + 1) (by omega)
          rw [hrest]

def bytesFrom (m : Mem) (a k : ℕ) : List Byte := (List.range k).map fun t => m.get (a + t)

theorem bytesFrom_append (m : Mem) (a k n : ℕ) :
    bytesFrom m a (k + n) = bytesFrom m a k ++ bytesFrom m (a + k) n := by
  rw [bytesFrom, List.range_add, List.map_append, List.map_map]
  refine congrArg (bytesFrom m a k ++ ·) (List.map_congr_left fun t _ => ?_)
  rw [Function.comp_apply, Nat.add_assoc]

theorem bytesFrom_congr {m m' : Mem} {a k : ℕ} (h : ∀ t < k, m.get (a + t) = m'.get (a + t)) :
    bytesFrom m a k = bytesFrom m' a k :=
  List.map_congr_left fun t ht => h t (List.mem_range.mp ht)

theorem bytesFrom_succ (m : Mem) (a k : ℕ) :
    bytesFrom m a (k + 1) = bytesFrom m a k ++ [m.get (a + k)] := by
  rw [bytesFrom, List.range_succ, List.map_append]
  rfl

end System44
