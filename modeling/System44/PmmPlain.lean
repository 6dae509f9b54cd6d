import System44.PmmSearch

/-!
# The search without word skips

`plainAlloc` is `pmm_alloc` with its two word-skip loops deleted: both passes test every page bit
one by one. A skip only ever passes over pages that are taken, and while no run is being counted
such pages leave no trace in the search, so both searches have the same answer.
-/

namespace System44

def plainPass (taken : ℕ → Bool) (limit pages : ℕ) : ℕ → ℕ → ℕ → ℕ → Option ℕ
  | 0, _, _, _ => none
  | fuel + 1, i, consecutive, startBit =>
    if i < limit then
      if !taken i then
        let startBit := if consecutive = 0 then i else startBit
        if consecutive + 1 = pages then some startBit
        else plainPass taken limit pages fuel (i + 1) (consecutive + 1) startBit
      else plainPass taken limit pages fuel (i + 1) 0 startBit
    else none

def plainFirstPass (m : Mem) (p : Pmm) (pages : ℕ) : Option ℕ :=
  plainPass (bitmapTest m p) p.maxPages pages p.maxPages p.lastFreePage 0 0

def plainSecondPass (m : Mem) (p : Pmm) (pages searchLimit : ℕ) : Option ℕ :=
  plainPass (bitmapTest m p) searchLimit pages searchLimit 0 0 0

def plainAlloc (m : Mem) (p : Pmm) (pages : ℕ) : Mem × Pmm × ℕ :=
  if pages = 0 then (m, p, 0)
  else
    match plainFirstPass m p pages with
    | some startBit => takePages m p startBit pages
    | none =>
      if 0 < p.lastFreePage then
        match plainSecondPass m p pages p.lastFreePage with
        | some startBit => takePages m p startBit pages
        | none => (m, { p with lastFreePage := 0 }, 0)
      else (m, p, 0)

theorem plainPass_eq_scan (taken : ℕ → Bool) (limit pages fuel i consecutive startBit : ℕ) :
    plainPass taken limit pages fuel i consecutive startBit =
      FirstFit.scan (fun q => !taken q) id limit pages fuel i consecutive startBit := by
  induction fuel generalizing i consecutive startBit with
  | zero => rfl
  | succ fuel ih =>
      have hskip : (if consecutive = 0 then id i else i) = i := by
        split <;> rfl
      simp only [plainPass, FirstFit.scan, hskip, ih]
      by_cases hlim : i < limit
      · rw [if_pos hlim, if_neg (Nat.not_le.mpr hlim)]
      · rw [if_neg hlim, if_pos (Nat.le_of_not_lt hlim)]

theorem plainPass_answer (taken : ℕ → Bool) {limit pages lo : ℕ} (hpages : 0 < pages) {fuel : ℕ}
    (hfuel : limit ≤ lo + fuel) :
    FirstFit.Answer (fun q => !taken q) lo limit pages
      (plainPass taken limit pages fuel lo 0 0) := by
  rw [plainPass_eq_scan]
  refine FirstFit.scan_answer (fun i => ⟨Nat.le_refl i, ?_⟩) (FirstFit.scanInv_init hpages 0) hfuel
  intro q hle hlt
  exact absurd hlt (Nat.not_lt.mpr hle)

theorem firstPass_eq_plain (m : Mem) (p : Pmm) {pages : ℕ} (hpages : 0 < pages) :
    firstPass m p pages = plainFirstPass m p pages := by
  have hplain := plainPass_answer (bitmapTest m p) hpages
    (show p.maxPages ≤ p.lastFreePage + p.maxPages by omega)
  exact FirstFit.Answer.unique (firstPass_answer m p hpages) hplain

theorem secondPass_eq_plain (m : Mem) (p : Pmm) {pages : ℕ} (hpages : 0 < pages)
    (searchLimit : ℕ) :
    secondPass m p pages searchLimit = plainSecondPass m p pages searchLimit := by
  have hplain := plainPass_answer (bitmapTest m p) hpages
    (show searchLimit ≤ 0 + searchLimit by omega)
  exact FirstFit.Answer.unique (secondPass_answer m p hpages searchLimit) hplain

theorem full_skipWords {full : ℕ → Bool} (limit : ℕ) (hfull : ∀ i, full i = true → i < limit)
    {fuel i : ℕ} (hfuel : limit ≤ i + fuel) : full (skipWords full fuel i) = false := by
  induction fuel generalizing i with
  | zero =>
      rw [skipWords]
      by_contra hi
      have := hfull i (Bool.eq_true_of_not_eq_false hi)
      omega
  | succ fuel ih =>
      rw [skipWords]
      split
      · exact ih (by omega)
      · rename_i hi
        exact Bool.eq_false_of_not_eq_true hi

theorem lt_of_fullWord {m : Mem} {p : Pmm} {i : ℕ} (h : fullWord m p i = true) :
    i < p.maxPages := by
  have hword : i / 32 < p.maxPages / 32 :=
    of_decide_eq_true (Bool.and_eq_true_iff.mp h).1
  omega

/-- The skip of the first pass runs to its own end. -/
theorem fullWord_skipWords (m : Mem) (p : Pmm) (i : ℕ) :
    fullWord m p (skipWords (fullWord m p) p.maxPages i) = false :=
  full_skipWords p.maxPages (fun _ hi => lt_of_fullWord hi) (by omega)

/-- So does that of the second pass. -/
theorem fullWord_skipWords_below (m : Mem) (p : Pmm) (searchLimit i : ℕ) {full : ℕ → Bool}
    (hfull : full = fun i => decide (i + 32 ≤ searchLimit) && fullWord m p i) :
    full (skipWords full searchLimit i) = false := by
  apply full_skipWords searchLimit _ (by omega)
  intro i hi
  rw [hfull] at hi
  have hle : i + 32 ≤ searchLimit := of_decide_eq_true (Bool.and_eq_true_iff.mp hi).1
  omega

/-- The address, the bitmap and the hint are those of the search without skips. -/
theorem pmmAlloc_eq_plainAlloc (m : Mem) (p : Pmm) (pages : ℕ) :
    pmmAlloc m p pages = plainAlloc m p pages := by
  unfold pmmAlloc plainAlloc
  by_cases hzero : pages = 0
  · rw [if_pos hzero, if_pos hzero]
  · have hpages : 0 < pages := Nat.pos_of_ne_zero hzero
    rw [if_neg hzero, if_neg hzero, firstPass_eq_plain m p hpages]
    exact secondPass_eq_plain m p hpages p.lastFreePage ▸ rfl

end System44
