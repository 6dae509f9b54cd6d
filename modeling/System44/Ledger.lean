import Mathlib.Data.Set.Lattice
import Mathlib.Order.CompletePartialOrder
import Mathlib.Data.List.Perm.Basic
import Mathlib.Tactic.Common

/-!
# A ledger of exclusively owned units

Units of type `ι` are either reserved for ever, or owned by one of the live claims, or free. A claim
of type `κ` covers the units `span b`. A ledger carries the proof that no unit has two owners, so
granting a claim needs evidence that everything it covers is free, and revoking one gives back
exactly what it covered.
-/

structure Ledger {κ ι : Type*} (span : κ → Set ι) where
  reserved : Set ι
  live : List κ
  apart : live.Pairwise fun a b => Disjoint (span a) (span b)
  unreserved : ∀ b ∈ live, Disjoint (span b) reserved

namespace Ledger

variable {κ ι : Type*} {span : κ → Set ι}

def owned (L : Ledger span) : Set ι := {i | i ∈ L.reserved ∨ ∃ b ∈ L.live, i ∈ span b}

theorem mem_owned {L : Ledger span} {i : ι} :
    i ∈ L.owned ↔ i ∈ L.reserved ∨ ∃ b ∈ L.live, i ∈ span b := Iff.rfl

def fresh (span : κ → Set ι) (reserved : Set ι) : Ledger span where
  reserved := reserved
  live := []
  apart := List.Pairwise.nil
  unreserved _ hb := absurd hb List.not_mem_nil

@[simp] theorem owned_fresh (reserved : Set ι) : (fresh span reserved).owned = reserved := by
  ext i
  simp [mem_owned, fresh]

theorem disjoint_owned_iff {L : Ledger span} {s : Set ι} :
    Disjoint s L.owned ↔ Disjoint s L.reserved ∧ ∀ b ∈ L.live, Disjoint s (span b) := by
  simp only [Set.disjoint_left, mem_owned]
  constructor
  · intro h
    exact ⟨fun i hi hr => h hi (Or.inl hr), fun b hb i hi hs => h hi (Or.inr ⟨b, hb, hs⟩)⟩
  · rintro ⟨hr, hb⟩ i hi (h | ⟨b, hlive, h⟩)
    · exact hr hi h
    · exact hb b hlive hi h

def grant (L : Ledger span) (b : κ) (h : Disjoint (span b) L.owned) : Ledger span where
  reserved := L.reserved
  live := b :: L.live
  apart := List.Pairwise.cons (disjoint_owned_iff.mp h).2 L.apart
  unreserved c hc := by
    rcases List.mem_cons.mp hc with rfl | hc
    · exact (disjoint_owned_iff.mp h).1
    · exact L.unreserved c hc

theorem mem_owned_grant {L : Ledger span} {b : κ} (h : Disjoint (span b) L.owned) {i : ι} :
    i ∈ (L.grant b h).owned ↔ i ∈ span b ∨ i ∈ L.owned := by
  simp only [mem_owned, grant, List.exists_mem_cons_iff]
  exact or_left_comm

theorem disjoint_of_mem_erase [DecidableEq κ] (L : Ledger span) {b c : κ} (hb : b ∈ L.live)
    (hc : c ∈ L.live.erase b) : Disjoint (span b) (span c) := by
  have hperm := List.perm_cons_erase hb
  have hpair := (hperm.pairwise_iff (fun h => h.symm)).mp L.apart
  exact List.rel_of_pairwise_cons hpair hc

def revoke [DecidableEq κ] (L : Ledger span) (b : κ) : Ledger span where
  reserved := L.reserved
  live := L.live.erase b
  apart := L.apart.sublist List.erase_sublist
  unreserved c hc := L.unreserved c (List.mem_of_mem_erase hc)

theorem mem_owned_revoke [DecidableEq κ] {L : Ledger span} {b : κ} (hb : b ∈ L.live) {i : ι} :
    i ∈ (L.revoke b).owned ↔ i ∉ span b ∧ i ∈ L.owned := by
  simp only [mem_owned, revoke]
  constructor
  · rintro (h | ⟨c, hc, hi⟩)
    · exact ⟨fun hs => Set.disjoint_left.mp (L.unreserved b hb) hs h, Or.inl h⟩
    · exact ⟨fun hs => Set.disjoint_left.mp (L.disjoint_of_mem_erase hb hc) hs hi,
        Or.inr ⟨c, List.mem_of_mem_erase hc, hi⟩⟩
  · rintro ⟨hs, h | ⟨c, hc, hi⟩⟩
    · exact Or.inl h
    · have hne : c ≠ b := fun he => hs (he ▸ hi)
      exact Or.inr ⟨c, (List.mem_erase_of_ne hne).mpr hc, hi⟩

end Ledger
