import Mathlib.Algebra.BigOperators.Intervals
import Mathlib.Algebra.BigOperators.Group.List.Basic
import Mathlib.Order.SuccPred.IntervalSucc
import Mathlib.Order.Interval.Set.Nat
import Mathlib.Data.Set.Lattice
import Mathlib.Order.CompletePartialOrder

/-!
# Extents laid out one behind the other

A layout that is given by its lengths alone: extent `i` has `len i` units and starts where extent
`i - 1` ends, the first one at `base`. Two layouts with the same lengths are the same, so whoever
recomputes the positions from the lengths finds the extents that are already there.
-/

namespace Extents

variable (base : ℕ) (len : ℕ → ℕ)

def start (i : ℕ) : ℕ := base + ∑ j ∈ Finset.range i, len j

def extent (i : ℕ) : Set ℕ := Set.Ico (start base len i) (start base len i + len i)

@[simp] theorem start_zero : start base len 0 = base := by
  rw [start, Finset.sum_range_zero, Nat.add_zero]

theorem start_succ (i : ℕ) : start base len (i + 1) = start base len i + len i := by
  rw [start, Finset.sum_range_succ, ← Nat.add_assoc, start]

theorem extent_eq (i : ℕ) :
    extent base len i = Set.Ico (start base len i) (start base len (i + 1)) := by
  rw [extent, start_succ]

theorem start_mono : Monotone (start base len) :=
  monotone_nat_of_le_succ fun i => by
    rw [start_succ]
    exact Nat.le_add_right _ _

theorem base_le_start (i : ℕ) : base ≤ start base len i := Nat.le_add_right ..

theorem disjoint_extent {i j : ℕ} (h : i ≠ j) :
    Disjoint (extent base len i) (extent base len j) := by
  rw [extent_eq, extent_eq]
  exact (start_mono base len).pairwise_disjoint_on_Ico_succ h

variable {base len}

theorem base_le_of_mem {i a : ℕ} (h : a ∈ extent base len i) : base ≤ a :=
  (base_le_start base len i).trans h.1

theorem lt_start_of_mem {i j a : ℕ} (hij : i < j) (h : a ∈ extent base len i) :
    a < start base len j := by
  rw [extent_eq] at h
  exact h.2.trans_le (start_mono base len hij)

theorem start_congr {len' : ℕ → ℕ} {i : ℕ} (h : ∀ j < i, len j = len' j) :
    start base len i = start base len' i := by
  rw [start, start, Finset.sum_congr rfl fun j hj => h j (Finset.mem_range.mp hj)]

theorem start_of_list {l : List ℕ} {i : ℕ} (h : ∀ (j : ℕ) (_ : j < l.length), j < i → len j = l[j])
    (hi : i ≤ l.length) : start base len i = base + (l.take i).sum := by
  induction i with
  | zero => simp
  | succ i ih =>
      rw [start_succ, ih (fun j hj hji => h j hj (by omega)) (by omega), List.sum_take_succ l i hi,
        h i hi (Nat.lt_succ_self i), Nat.add_assoc]

end Extents
