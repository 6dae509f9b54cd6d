import System44.FirstFit
import System44.Pmm

/-!
# The search of the page allocator is first fit

Both passes of `pmm_alloc` are instances of the counting scan: a word that is skipped has all its
bits set, so the skips jump over occupied pages only. Hence `pmmAlloc` takes the least run at or
above the hint, failing that the least run that ends at or below the hint, and otherwise fails.
-/

namespace System44

def clearBit (m : Mem) (p : Pmm) (page : ℕ) : Bool := !bitmapTest m p page

theorem clearBit_eq_true {m : Mem} {p : Pmm} {page : ℕ} :
    clearBit m p page = true ↔ bitmapTest m p page = false := by
  rw [clearBit, Bool.not_eq_true']

def wordJump (full : ℕ → Bool) (limit i : ℕ) : ℕ :=
  if i % 32 = 0 then skipWords full limit i else i

theorem le_skipWords (full : ℕ → Bool) (fuel i : ℕ) : i ≤ skipWords full fuel i := by
  induction fuel generalizing i with
  | zero => exact Nat.le_refl i
  | succ fuel ih =>
      rw [skipWords]
      split
      · exact (Nat.le_add_right i 32).trans (ih (i + 32))
      · exact Nat.le_refl i

theorem le_wordJump (full : ℕ → Bool) (limit i : ℕ) : i ≤ wordJump full limit i := by
  unfold wordJump
  split
  · exact le_skipWords full limit i
  · exact Nat.le_refl i

theorem skipWords_taken {full taken : ℕ → Bool}
    (hfull : ∀ i, i % 32 = 0 → full i = true → ∀ k < 32, taken (i + k) = true)
    (fuel : ℕ) {i q : ℕ} (hi : i % 32 = 0) (hle : i ≤ q) (hlt : q < skipWords full fuel i) :
    taken q = true := by
  induction fuel generalizing i with
  | zero => exact absurd hlt (Nat.not_lt.mpr hle)
  | succ fuel ih =>
      rw [skipWords] at hlt
      by_cases hf : full i = true
      · rw [if_pos hf] at hlt
        rcases Nat.lt_or_ge q (i + 32) with hin | hout
        · have hq := hfull i hi hf (q - i) (by omega)
          rwa [Nat.add_sub_cancel' hle] at hq
        · exact ih (by omega) hout hlt
      · rw [if_neg hf] at hlt
        exact absurd hlt (Nat.not_lt.mpr hle)

theorem wordJump_valid {full taken : ℕ → Bool}
    (hfull : ∀ i, i % 32 = 0 → full i = true → ∀ k < 32, taken (i + k) = true) (limit i : ℕ) :
    i ≤ wordJump full limit i ∧
      ∀ q, i ≤ q → q < wordJump full limit i → (!taken q) = false := by
  refine ⟨le_wordJump full limit i, ?_⟩
  intro q hle hlt
  unfold wordJump at hlt
  by_cases hi : i % 32 = 0
  · rw [if_pos hi] at hlt
    rw [skipWords_taken hfull limit hi hle hlt, Bool.not_true]
  · rw [if_neg hi] at hlt
    exact absurd hlt (Nat.not_lt.mpr hle)

theorem searchPass_eq_scan (full taken : ℕ → Bool) (limit pages fuel i consecutive startBit : ℕ) :
    searchPass full taken limit pages fuel i consecutive startBit =
      FirstFit.scan (fun q => !taken q) (wordJump full limit) limit pages fuel i consecutive
        startBit := by
  induction fuel generalizing i consecutive startBit with
  | zero => rfl
  | succ fuel ih =>
      have hskip : (if i % 32 = 0 ∧ consecutive = 0 then skipWords full limit i else i) =
          if consecutive = 0 then wordJump full limit i else i := by
        by_cases hc : consecutive = 0
        · simp only [hc, and_true, if_true, wordJump]
        · simp only [hc, and_false, if_false]
      have hge : i ≤ if consecutive = 0 then wordJump full limit i else i := by
        split
        · exact le_wordJump full limit i
        · exact Nat.le_refl i
      simp only [searchPass, FirstFit.scan, hskip, ih]
      by_cases hlim : i < limit
      · rw [if_pos hlim]
      · rw [if_neg hlim, if_pos (by omega)]

theorem fullWord_taken {m : Mem} {p : Pmm} {i : ℕ} (hi : i % 32 = 0)
    (hfull : fullWord m p i = true) {k : ℕ} (hk : k < 32) : bitmapTest m p (i + k) = true := by
  have hword : m.load32 (p.bitmap + 4 * (i / 32)) = BitVec.allOnes 32 := by
    unfold fullWord at hfull
    exact eq_of_beq (Bool.and_eq_true_iff.mp hfull).2
  have hbyte := (leWord_eq_allOnes_iff _).mp hword (k / 8) (by omega)
  have haddr : p.bitmap + (i + k) / 8 = p.bitmap + 4 * (i / 32) + k / 8 := by omega
  rw [bitmapTest_eq, haddr, hbyte, BitVec.getLsbD_allOnes]
  exact decide_eq_true (Nat.mod_lt _ (by decide))

theorem firstPass_answer (m : Mem) (p : Pmm) {pages : ℕ} (hpages : 0 < pages) :
    FirstFit.Answer (clearBit m p) p.lastFreePage p.maxPages pages (firstPass m p pages) := by
  rw [firstPass, searchPass_eq_scan]
  exact FirstFit.scan_answer
    (wordJump_valid (fun i hi hf k hk => fullWord_taken hi hf hk) p.maxPages)
    (FirstFit.scanInv_init hpages 0) (by omega)

theorem secondPass_answer (m : Mem) (p : Pmm) {pages : ℕ} (hpages : 0 < pages)
    (searchLimit : ℕ) :
    FirstFit.Answer (clearBit m p) 0 searchLimit pages (secondPass m p pages searchLimit) := by
  rw [secondPass, searchPass_eq_scan]
  refine FirstFit.scan_answer (wordJump_valid ?_ searchLimit) (FirstFit.scanInv_init hpages 0)
    (by omega)
  intro i hi hf k hk
  exact fullWord_taken hi (Bool.and_eq_true_iff.mp hf).2 hk

def OnOneSide (p : Pmm) (a pages : ℕ) : Prop :=
  p.lastFreePage ≤ a ∧ a + pages ≤ p.maxPages ∨ a + pages ≤ p.lastFreePage

/-- What one allocation can do, with the guards of each outcome. -/
theorem pmmAlloc_cases (m : Mem) (p : Pmm) {pages : ℕ} (hpages : 0 < pages) :
    (∃ a, pmmAlloc m p pages = takePages m p a pages ∧
        FirstFit.IsFirstFit (clearBit m p) p.lastFreePage p.maxPages pages a) ∨
    (∃ a, pmmAlloc m p pages = takePages m p a pages ∧
        FirstFit.IsFirstFit (clearBit m p) 0 p.lastFreePage pages a ∧
        ∀ b, p.lastFreePage ≤ b → b + pages ≤ p.maxPages →
          ¬ FirstFit.IsRun (clearBit m p) b pages) ∨
    (pmmAlloc m p pages = (m, { p with lastFreePage := 0 }, 0) ∧
        ∀ a, OnOneSide p a pages → ¬ FirstFit.IsRun (clearBit m p) a pages) := by
  have h1 := firstPass_answer m p hpages
  have h2 := secondPass_answer m p hpages p.lastFreePage
  unfold pmmAlloc
  rw [if_neg (by omega)]
  cases hfirst : firstPass m p pages with
  | some a =>
      rw [hfirst] at h1
      exact Or.inl ⟨a, rfl, h1⟩
  | none =>
      rw [hfirst] at h1
      refine Or.inr ?_
      by_cases hhint : 0 < p.lastFreePage
      · simp only [if_pos hhint]
        cases hsecond : secondPass m p pages p.lastFreePage with
        | some a =>
            rw [hsecond] at h2
            exact Or.inl ⟨a, rfl, h2, h1⟩
        | none =>
            rw [hsecond] at h2
            refine Or.inr ⟨rfl, ?_⟩
            rintro a (⟨hlo, hhi⟩ | hhi)
            · exact h1 a hlo hhi
            · exact h2 a (Nat.zero_le a) hhi
      · have hzero : p.lastFreePage = 0 := by omega
        simp only [if_neg hhint]
        refine Or.inr ⟨by rw [← hzero], ?_⟩
        rintro a (⟨hlo, hhi⟩ | hhi)
        · exact h1 a hlo hhi
        · omega

/-- A successful search marks a run of clear pages that lies on one side of the hint. -/
theorem pmmAlloc_take_or_null (m : Mem) (p : Pmm) {pages : ℕ} (hpages : 0 < pages) :
    (∃ a, pmmAlloc m p pages = takePages m p a pages ∧ OnOneSide p a pages ∧
        FirstFit.IsRun (clearBit m p) a pages) ∨
    (pmmAlloc m p pages = (m, { p with lastFreePage := 0 }, 0) ∧
        ∀ a, OnOneSide p a pages → ¬ FirstFit.IsRun (clearBit m p) a pages) := by
  rcases pmmAlloc_cases m p hpages with ⟨a, heq, hfit⟩ | ⟨a, heq, hfit, _⟩ | hnull
  · exact Or.inl ⟨a, heq, Or.inl ⟨hfit.lo_le, hfit.le_limit⟩, hfit.run⟩
  · exact Or.inl ⟨a, heq, Or.inr hfit.le_limit, hfit.run⟩
  · exact Or.inr hnull

end System44
