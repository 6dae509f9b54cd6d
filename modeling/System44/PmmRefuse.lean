import System44.BootMap
import System44.PmmInit

/-!
# The allocator after `pmm_init` has given up

The kernel goes on after an error of `pmm_init` and may still call the allocator. As long as
`max_pages` is 0 every call is refused. When only the place for the bitmap is missing, `max_pages`
has already been set and `bitmap` is still the null pointer, so the memory at address 0 is taken for
the bitmap.
-/

namespace System44

/-- Any later calls with any arguments, and any stores of the rest of the kernel between them. -/
inductive PmmCalls (m₀ : Mem) (p₀ : Pmm) : Mem → Pmm → Prop
  | init : PmmCalls m₀ p₀ m₀ p₀
  | alloc {m p} (pages : ℕ) (hcalls : PmmCalls m₀ p₀ m p) :
      PmmCalls m₀ p₀ (pmmAlloc m p pages).1 (pmmAlloc m p pages).2.1
  | free {m p} (ptr pages : ℕ) (hcalls : PmmCalls m₀ p₀ m p) :
      PmmCalls m₀ p₀ (pmmFree m p ptr pages).1 (pmmFree m p ptr pages).2
  | store {m p} (m' : Mem) (hcalls : PmmCalls m₀ p₀ m p) : PmmCalls m₀ p₀ m' p

/-- No request is granted and no call stores anything: the list of stores is part of a memory. -/
structure Refuses (m : Mem) (p : Pmm) : Prop where
  alloc_null : ∀ pages, (pmmAlloc m p pages).2.2 = 0
  alloc_mem : ∀ pages, (pmmAlloc m p pages).1 = m
  free_mem : ∀ ptr pages, (pmmFree m p ptr pages).1 = m

section

variable {m : Mem} {p : Pmm}

theorem clearPages_of_maxPages_zero (hmax : p.maxPages = 0) (m : Mem) (start n : ℕ) :
    clearPages m p start n = m := by
  induction n with
  | zero => rfl
  | succ n ih =>
      simp only [clearPages]
      rw [if_neg (by omega), ih]

theorem pmmAlloc_of_maxPages_zero (hmax : p.maxPages = 0) (hhint : p.lastFreePage = 0) (m : Mem)
    (pages : ℕ) : pmmAlloc m p pages = (m, p, 0) := by
  have hfirst : firstPass m p pages = none := by
    rw [firstPass, hmax]
    rfl
  unfold pmmAlloc
  split
  · rfl
  · simp only [hfirst, hhint, Nat.lt_irrefl, if_false]

theorem pmmFree_of_maxPages_zero (hmax : p.maxPages = 0) (hhint : p.lastFreePage = 0) (m : Mem)
    (ptr pages : ℕ) : pmmFree m p ptr pages = (m, p) := by
  unfold pmmFree
  split
  · rfl
  · simp only [clearPages_of_maxPages_zero hmax, hhint, Nat.not_lt_zero, if_false]

theorem PmmCalls.unchanged {m₀ : Mem} {p₀ : Pmm} (hmax : p₀.maxPages = 0)
    (hhint : p₀.lastFreePage = 0) (hcalls : PmmCalls m₀ p₀ m p) : p = p₀ := by
  induction hcalls with
  | init => rfl
  | alloc pages _ ih =>
      subst ih
      rw [pmmAlloc_of_maxPages_zero hmax hhint]
  | free ptr pages _ ih =>
      subst ih
      rw [pmmFree_of_maxPages_zero hmax hhint]
  | store m' _ ih => exact ih

theorem refuses_of_maxPages_zero (hmax : p.maxPages = 0) (hhint : p.lastFreePage = 0) :
    Refuses m p where
  alloc_null pages := by rw [pmmAlloc_of_maxPages_zero hmax hhint]
  alloc_mem pages := by rw [pmmAlloc_of_maxPages_zero hmax hhint]
  free_mem ptr pages := by rw [pmmFree_of_maxPages_zero hmax hhint]

theorem not_refuses_of_maxPages_pos (hmax : 0 < p.maxPages) : ¬ Refuses m p := by
  intro hrefuses
  have hstored : (pmmFree m p 1 1).1.writes = (p.bitmap + 0 / 8) % 2 ^ 32 :: m.writes := by
    have hclear : clearPages m p 0 1 = bitmapClear m p 0 := if_pos hmax
    change (clearPages m p 0 1).writes = _
    rw [hclear, bitmapClear, Mem.writes_set]
  rw [hrefuses.free_mem] at hstored
  exact List.cons_ne_self _ _ hstored.symm

theorem pmmInit_failed {m' : Mem} {p' : Pmm} {err : PmmError}
    (h : pmmInit m Pmm.boot = (m', p', some err)) :
    m' = m ∧ p'.bitmap = 0 ∧ p'.lastFreePage = 0 ∧ p'.maxPages = maxAddr m / pageSize := by
  unfold pmmInit at h
  rw [if_neg (by decide)] at h
  by_cases hzero : maxAddr m = 0
  · rw [if_pos hzero] at h
    obtain ⟨rfl, rfl, -⟩ := h
    rw [hzero, Nat.zero_div]
    exact ⟨rfl, rfl, rfl, rfl⟩
  · rw [if_neg hzero] at h
    cases hfind : findBitmap m (bitmapBytes (maxAddr m / pageSize)) with
    | none =>
        simp only [hfind] at h
        obtain ⟨rfl, rfl, -⟩ := h
        exact ⟨rfl, rfl, rfl, rfl⟩
    | some e => simp [hfind] at h

theorem maxAddr_lt_iff {bound : ℕ} (hbound : 0 < bound) :
    maxAddr m < bound ↔ ∀ e ∈ readMap m, e.Usable → e.regionEnd < bound := by
  constructor
  · intro hlt e he hu
    exact (regionEnd_le_maxAddr he hu).trans_lt hlt
  · intro hall
    by_cases hzero : maxAddr m = 0
    · rwa [hzero]
    · obtain ⟨e, he, hu, heq⟩ := exists_regionEnd_eq_maxAddr hzero
      rw [← heq]
      exact hall e he hu

end

/-- After an error every call is refused, whatever follows, exactly when no usable entry reaches the
end of the first page. -/
theorem pmmInit_failed_refuses_iff {m₀ m₁ : Mem} {p₁ : Pmm} {err : PmmError}
    (h : pmmInit m₀ Pmm.boot = (m₁, p₁, some err)) :
    (∀ m p, PmmCalls m₁ p₁ m p → Refuses m p) ↔
      ∀ e ∈ readMap m₀, e.Usable → e.regionEnd < pageSize := by
  obtain ⟨-, -, hhint, hmax⟩ := pmmInit_failed h
  rw [← maxAddr_lt_iff (show 0 < pageSize by decide)]
  constructor
  · intro hrefuses
    by_contra hge
    refine not_refuses_of_maxPages_pos ?_ (hrefuses m₁ p₁ .init)
    rw [hmax]
    exact Nat.div_pos (Nat.le_of_not_lt hge) (by decide)
  · intro hlt m p hcalls
    have hzero : p₁.maxPages = 0 := by rw [hmax, Nat.div_eq_of_lt hlt]
    rw [hcalls.unchanged hzero hhint]
    exact refuses_of_maxPages_zero hzero hhint

def halfPage : List E820Entry := [⟨0#32, 0#32, 0x800#32, 0#32, 1#32⟩]

def halfPageInit : Mem × Pmm × Option PmmError := pmmInit (tableMemory halfPage) Pmm.boot

theorem halfPage_init : pmmInit (tableMemory halfPage) Pmm.boot =
    (halfPageInit.1, halfPageInit.2.1, some .noLocation) := by
  have hnone : halfPageInit.2.2 = some .noLocation := by decide +kernel
  rw [← hnone]
  rfl

theorem halfPage_refuses :
    pmmInit (tableMemory halfPage) Pmm.boot =
      (halfPageInit.1, halfPageInit.2.1, some .noLocation) ∧
    ∀ m p, PmmCalls halfPageInit.1 halfPageInit.2.1 m p → Refuses m p := by
  refine ⟨halfPage_init, (pmmInit_failed_refuses_iff halfPage_init).mpr ?_⟩
  rw [readMap_tableMemory (by decide)]
  decide

/-- What the boot sector leaves when the BIOS knows conventional memory only. -/
def int12Init : Mem × Pmm × Option PmmError := pmmInit (int12 639#16 blankMemory) Pmm.boot

/-- The single entry at base 0 gives no place for the bitmap, yet the second request for a page is
granted, and the bits that were set for it lie at address 0. -/
theorem int12_not_refusing :
    int12Init.2.2 = some .noLocation ∧
    ∃ m p, PmmCalls int12Init.1 int12Init.2.1 m p ∧ ¬ Refuses m p ∧
      (pmmAlloc m p 1).2.2 = 0x1000 ∧ (pmmAlloc m p 1).1.writes.head? = some 0 := by
  have hgranted : (pmmAlloc (pmmAlloc int12Init.1 int12Init.2.1 1).1
      (pmmAlloc int12Init.1 int12Init.2.1 1).2.1 1).2.2 = 0x1000 := by decide +kernel
  refine ⟨by decide +kernel, _, _, PmmCalls.init.alloc 1, ?_, hgranted, by decide +kernel⟩
  intro hrefuses
  rw [hrefuses.alloc_null 1] at hgranted
  cases hgranted

end System44
