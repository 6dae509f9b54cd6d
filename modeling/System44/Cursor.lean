import Mathlib.Logic.Function.Basic
import Mathlib.Data.Nat.Init
import Mathlib.Tactic.Common

/-!
# An array filled through a cursor

Records are stored in an array one behind the other, and a cursor says where the next one goes.
`Appends c c' l` is what a program has done that stored the records of `l` and nothing else; a loop
whose rounds each append some records appends all of them in order.
-/

structure Cursor (α : Type) where
  out : ℕ → α
  pos : ℕ

namespace Cursor

variable {α : Type}

def push (c : Cursor α) (a : α) : Cursor α := ⟨Function.update c.out c.pos a, c.pos + 1⟩

/-- The records of `l` have been stored at the cursor, which is now behind them. -/
structure Appends (c c' : Cursor α) (l : List α) : Prop where
  pos_eq : c'.pos = c.pos + l.length
  stored : ∀ (i : ℕ) (_ : i < l.length), c'.out (c.pos + i) = l[i]
  kept : ∀ i, i < c.pos ∨ c.pos + l.length ≤ i → c'.out i = c.out i

theorem Appends.refl (c : Cursor α) : c.Appends c [] where
  pos_eq := rfl
  stored i hi := absurd hi (Nat.not_lt_zero i)
  kept _ _ := rfl

theorem appends_push (c : Cursor α) (a : α) : c.Appends (c.push a) [a] where
  pos_eq := rfl
  stored i hi := by
    obtain rfl : i = 0 := Nat.lt_one_iff.mp hi
    exact Function.update_self ..
  kept i hi := by
    rw [List.length_singleton] at hi
    exact Function.update_of_ne (by omega) ..

theorem Appends.trans {c c₁ c₂ : Cursor α} {l l₁ : List α} (h : c.Appends c₁ l)
    (h₁ : c₁.Appends c₂ l₁) : c.Appends c₂ (l ++ l₁) where
  pos_eq := by rw [h₁.pos_eq, h.pos_eq, List.length_append, Nat.add_assoc]
  stored i hi := by
    rw [List.length_append] at hi
    by_cases hlt : i < l.length
    · rw [List.getElem_append_left hlt, h₁.kept _ (Or.inl (by rw [h.pos_eq]; omega))]
      exact h.stored i hlt
    · have hi₁ : i - l.length < l₁.length := by omega
      have hpos : c.pos + i = c₁.pos + (i - l.length) := by
        rw [h.pos_eq]
        omega
      rw [List.getElem_append_right (Nat.le_of_not_lt hlt), hpos]
      exact h₁.stored _ hi₁
  kept i hi := by
    rw [List.length_append] at hi
    rw [h₁.kept i (by rw [h.pos_eq]; omega), h.kept i (by omega)]

/-- The rule for loops: `view` is the cursor in the state of the loop. -/
theorem Appends.foldl {σ β : Type} (view : σ → Cursor α) {f : σ → β → σ} {g : β → List α}
    {xs : List β} (hstep : ∀ s, ∀ b ∈ xs, (view s).Appends (view (f s b)) (g b)) (s : σ) :
    (view s).Appends (view (xs.foldl f s)) (xs.flatMap g) := by
  induction xs generalizing s with
  | nil => exact Appends.refl (view s)
  | cons b xs ih =>
      rw [List.foldl_cons, List.flatMap_cons]
      exact (hstep s b List.mem_cons_self).trans
        (ih (fun s b hb => hstep s b (List.mem_cons_of_mem _ hb)) (f s b))

end Cursor
