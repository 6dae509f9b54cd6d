import Mathlib.Data.List.Infix
import Mathlib.Logic.Relation
import Mathlib.Order.Basic

/-!
# Append-only catalogues

A catalogue has room for a fixed number of items and takes new ones at its end. Nothing is ever
changed or removed, and whoever looks a key up gets the oldest item that has it, so an answer once
given is given for ever.
-/

/-- Items in the order in which they were added. -/
structure Catalog (α : Type*) (room : ℕ) where
  items : List α
  length_le : items.length ≤ room

namespace Catalog

variable {α κ : Type*} {room : ℕ}

theorem ext {c c' : Catalog α room} (h : c.items = c'.items) : c = c' := by
  cases c
  cases c'
  cases h
  rfl

def empty : Catalog α room := ⟨[], Nat.zero_le room⟩

/-- A full catalogue stays as it is. -/
def add (c : Catalog α room) (a : α) : Catalog α room :=
  if h : c.items.length < room then ⟨c.items ++ [a], by simpa using Nat.succ_le_of_lt h⟩ else c

theorem items_add {c : Catalog α room} (h : c.items.length < room) (a : α) :
    (c.add a).items = c.items ++ [a] := by
  rw [add, dif_pos h]

theorem add_full {c : Catalog α room} (h : room ≤ c.items.length) (a : α) : c.add a = c :=
  dif_neg (not_lt.mpr h)

/-- A later state of a catalogue is above an earlier one. -/
instance : PartialOrder (Catalog α room) where
  le c c' := c.items <+: c'.items
  le_refl c := List.prefix_rfl
  le_trans _ _ _ h h' := h.trans h'
  le_antisymm _ _ h h' := ext (h.eq_of_length_le h'.length_le)

theorem le_add (c : Catalog α room) (a : α) : c ≤ c.add a := by
  rcases Nat.lt_or_ge c.items.length room with hlt | hfull
  · change c.items <+: (c.add a).items
    rw [items_add hlt]
    exact List.prefix_append _ _
  · rw [add_full hfull]

theorem le_of_run {σ : Type*} (view : σ → Catalog α room) {step : σ → σ → Prop}
    (hstep : ∀ s s', step s s' → view s' = view s ∨ ∃ a, view s' = (view s).add a) {s s' : σ}
    (h : Relation.ReflTransGen step s s') : view s ≤ view s' := by
  induction h with
  | refl => exact le_refl (view s)
  | tail _ hlast ih =>
      rcases hstep _ _ hlast with hsame | ⟨a, hadd⟩
      · rwa [hsame]
      · rw [hadd]
        exact ih.trans (le_add _ a)

variable [DecidableEq κ] (key : α → κ)

def lookup (c : Catalog α room) (k : κ) : Option α := c.items.find? fun a => key a = k

variable {key} {c c' : Catalog α room} {k : κ} {a : α}

theorem key_of_lookup (h : c.lookup key k = some a) : key a = k := by
  simpa using List.find?_some h

theorem lookup_mono (h : c ≤ c') (hk : c.lookup key k = some a) : c'.lookup key k = some a := by
  obtain ⟨new, hnew⟩ := h
  rw [lookup, ← hnew, List.find?_append]
  rw [lookup] at hk
  rw [hk]
  rfl

theorem lookup_add (hroom : c.items.length < room) (a : α) (k : κ) :
    (c.add a).lookup key k = (c.lookup key k).or (if key a = k then some a else none) := by
  rw [lookup, items_add hroom, List.find?_append, lookup]
  congr 1
  by_cases h : key a = k <;> simp [h]

theorem lookup_eq_some_iff : c.lookup key k = some a ↔
    ∃ (i : ℕ) (hi : i < c.items.length), c.items[i] = a ∧ key c.items[i] = k ∧
      ∀ (j : ℕ) (hj : j < i), key (c.items.get ⟨j, hj.trans hi⟩) ≠ k := by
  rw [lookup, List.find?_eq_some_iff_getElem]
  simp only [decide_eq_true_eq, Bool.not_eq_true', decide_eq_false_iff_not]
  constructor
  · rintro ⟨hk, i, hi, rfl, hlt⟩
    exact ⟨i, hi, rfl, hk, hlt⟩
  · rintro ⟨i, hi, rfl, hk, hlt⟩
    exact ⟨hk, i, hi, rfl, hlt⟩

theorem lookup_eq_none_iff : c.lookup key k = none ↔ ∀ a ∈ c.items, key a ≠ k := by
  simp [lookup, List.find?_eq_none]

end Catalog
