import Mathlib.Data.Nat.Init
import Mathlib.Tactic.Common

/-!
# First fit by a counting scan

Positions are natural numbers, some of them free. `scan` walks upwards with a running count of
consecutive free positions and stops at the first run of `n` of them below `limit`. Whenever the
count is zero it may jump ahead by `jump`, which is sound as long as every position jumped over is
occupied. The answer is then the least run of `n` free positions, whatever `jump` does.
-/

namespace FirstFit

def IsRun (free : ℕ → Bool) (a n : ℕ) : Prop := ∀ j < n, free (a + j) = true

structure IsFirstFit (free : ℕ → Bool) (lo limit n a : ℕ) : Prop where
  lo_le : lo ≤ a
  le_limit : a + n ≤ limit
  run : IsRun free a n
  least : ∀ b, lo ≤ b → b < a → ¬ IsRun free b n

def Answer (free : ℕ → Bool) (lo limit n : ℕ) : Option ℕ → Prop
  | some a => IsFirstFit free lo limit n a
  | none => ∀ a, lo ≤ a → a + n ≤ limit → ¬ IsRun free a n

section

variable {free : ℕ → Bool} {lo limit n a b i count start : ℕ}

theorem IsRun.sub_run (h : IsRun free a n) {k m : ℕ} (hk : k + m ≤ n) : IsRun free (a + k) m := by
  intro j hj
  rw [Nat.add_assoc]
  exact h (k + j) (by omega)

theorem IsRun.free_of_mem (h : IsRun free a n) {p : ℕ} (hap : a ≤ p) (hpn : p < a + n) :
    free p = true := by
  have hp := h (p - a) (by omega)
  rwa [Nat.add_sub_cancel' hap] at hp

theorem IsFirstFit.unique (ha : IsFirstFit free lo limit n a) (hb : IsFirstFit free lo limit n b) :
    a = b := by
  rcases Nat.lt_trichotomy a b with hlt | heq | hgt
  · exact absurd ha.run (hb.least a ha.lo_le hlt)
  · exact heq
  · exact absurd hb.run (ha.least b hb.lo_le hgt)

/-- A search has only one right answer. -/
theorem Answer.unique {x y : Option ℕ} (hx : Answer free lo limit n x)
    (hy : Answer free lo limit n y) : x = y := by
  cases x with
  | none =>
      cases y with
      | none => rfl
      | some b => exact absurd hy.run (hx b hy.lo_le hy.le_limit)
  | some a =>
      cases y with
      | none => exact absurd hx.run (hy a hx.lo_le hx.le_limit)
      | some b => exact congrArg some (IsFirstFit.unique hx hy)

end

def scan (free : ℕ → Bool) (jump : ℕ → ℕ) (limit n : ℕ) : ℕ → ℕ → ℕ → ℕ → Option ℕ
  | 0, _, _, _ => none
  | fuel + 1, i, count, start =>
    let i := if count = 0 then jump i else i
    if limit ≤ i then none
    else if free i then
      let start := if count = 0 then i else start
      if count + 1 = n then some start
      else scan free jump limit n fuel (i + 1) (count + 1) start
    else scan free jump limit n fuel (i + 1) 0 start

/-- Everything below `i` has been examined: `count` free positions end there, they cannot be
extended downwards, and no run of `n` ends at or below `i`. -/
structure ScanInv (free : ℕ → Bool) (lo n i count start : ℕ) : Prop where
  count_le : lo + count ≤ i
  count_lt : count < n
  start_eq : count ≠ 0 → start + count = i
  run : IsRun free (i - count) count
  maximal : ∀ a, lo ≤ a → a ≤ i → IsRun free a (i - a) → i ≤ a + count
  fresh : ∀ a, lo ≤ a → a + n ≤ i → ¬ IsRun free a n

section

variable {free : ℕ → Bool} {jump : ℕ → ℕ} {lo limit n i count start : ℕ}

theorem scanInv_init (hn : 0 < n) (start : ℕ) : ScanInv free lo n lo 0 start where
  count_le := Nat.le_refl _
  count_lt := hn
  start_eq h := absurd rfl h
  run j hj := absurd hj (Nat.not_lt_zero j)
  maximal a ha _ _ := ha
  fresh a ha hle _ := by omega

theorem ScanInv.occupied (h : ScanInv free lo n i count start) (hi : free i = false) :
    ScanInv free lo n (i + 1) 0 start where
  count_le := by have := h.count_le; omega
  count_lt := by have := h.count_lt; omega
  start_eq h0 := absurd rfl h0
  run j hj := absurd hj (Nat.not_lt_zero j)
  maximal a ha hle hrun := by
    by_contra hlt
    have hfree := hrun.free_of_mem (p := i) (by omega) (by omega)
    rw [hi] at hfree
    cases hfree
  fresh a ha hle hrun := by
    rcases Nat.lt_or_ge i (a + n) with hin | hout
    · have hpos := h.count_lt
      have hfree := hrun.free_of_mem (p := i) (by omega) hin
      rw [hi] at hfree
      cases hfree
    · exact h.fresh a ha hout hrun

/-- Occupied positions may be passed over in one jump as long as no run is being counted. -/
theorem ScanInv.skip (h : ScanInv free lo n i 0 start) {k : ℕ}
    (hk : ∀ p, i ≤ p → p < i + k → free p = false) : ScanInv free lo n (i + k) 0 start := by
  induction k with
  | zero => exact h
  | succ k ih =>
      exact (ih fun p hp hlt => hk p hp (by omega)).occupied (hk (i + k) (by omega) (by omega))

theorem ScanInv.advance (h : ScanInv free lo n i count start) (hi : free i = true)
    (hne : count + 1 ≠ n) :
    ScanInv free lo n (i + 1) (count + 1) (if count = 0 then i else start) where
  count_le := by have := h.count_le; omega
  count_lt := by have := h.count_lt; omega
  start_eq _ := by
    have := h.start_eq
    split <;> omega
  run j hj := by
    have hle := h.count_le
    rcases Nat.lt_succ_iff_lt_or_eq.mp hj with hlt | rfl
    · have := h.run j hlt
      rwa [show i - count + j = i + 1 - (count + 1) + j by omega] at this
    · rwa [show i + 1 - (j + 1) + j = i by omega]
  maximal a ha hle hrun := by
    rcases Nat.lt_succ_iff_lt_or_eq.mp (Nat.lt_succ_of_le hle) with hlt | rfl
    · have hsub : IsRun free a (i - a) := by
        simpa using hrun.sub_run (k := 0) (m := i - a) (by omega)
      have := h.maximal a ha (by omega) hsub
      omega
    · omega
  fresh a ha hle hrun := by
    rcases Nat.lt_or_ge i (a + n) with hin | hout
    · have hlt := h.count_lt
      have hsub : IsRun free a (i - a) := by
        simpa using hrun.sub_run (k := 0) (m := i - a) (by omega)
      have := h.maximal a ha (by omega) hsub
      omega
    · exact h.fresh a ha hout hrun

theorem ScanInv.found (h : ScanInv free lo n i count start) (hi : free i = true)
    (hlim : i < limit) (hn : count + 1 = n) :
    IsFirstFit free lo limit n (if count = 0 then i else start) := by
  have hle := h.count_le
  have hstart : (if count = 0 then i else start) + count = i := by
    have := h.start_eq
    split <;> omega
  generalize (if count = 0 then i else start) = a at hstart ⊢
  refine ⟨by omega, by omega, ?_, ?_⟩
  · intro j hj
    rcases Nat.lt_or_ge j count with hlt | hge
    · have := h.run j hlt
      rwa [show i - count + j = a + j by omega] at this
    · rwa [show a + j = i by omega]
  · intro b hb hba hrun
    exact h.fresh b hb (by omega) hrun

theorem ScanInv.exhausted (h : ScanInv free lo n i count start) (hlim : limit ≤ i) :
    Answer free lo limit n none := fun a ha hle => h.fresh a ha (by omega)

/-- A scan that jumps only over occupied positions finds the least run, or shows there is none. -/
theorem scan_answer (hjump : ∀ i, i ≤ jump i ∧ ∀ p, i ≤ p → p < jump i → free p = false)
    {fuel : ℕ} (hinv : ScanInv free lo n i count start) (hfuel : limit ≤ i + fuel) :
    Answer free lo limit n (scan free jump limit n fuel i count start) := by
  induction fuel generalizing i count start with
  | zero => exact hinv.exhausted (by omega)
  | succ fuel ih =>
      have hjumped : ScanInv free lo n (if count = 0 then jump i else i) count start := by
        by_cases hc : count = 0
        · subst hc
          obtain ⟨hle, hocc⟩ := hjump i
          have hk := hinv.skip (k := jump i - i) fun p hp hlt => hocc p hp (by omega)
          rwa [if_pos rfl, ← Nat.add_sub_cancel' hle]
        · rwa [if_neg hc]
      have hge : i ≤ if count = 0 then jump i else i := by
        split
        · exact (hjump i).1
        · exact Nat.le_refl i
      simp only [scan]
      generalize (if count = 0 then jump i else i) = i' at hjumped hge ⊢
      by_cases hlim : limit ≤ i'
      · rw [if_pos hlim]
        exact hjumped.exhausted hlim
      · rw [if_neg hlim]
        cases hfree : free i' with
        | true =>
            rw [if_pos rfl]
            by_cases hn : count + 1 = n
            · rw [if_pos hn]
              exact hjumped.found hfree (by omega) hn
            · rw [if_neg hn]
              exact ih (hjumped.advance hfree hn) (by omega)
        | false =>
            rw [if_neg (by simp)]
            exact ih (hjumped.occupied hfree) (by omega)

end

end FirstFit
