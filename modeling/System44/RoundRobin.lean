import Mathlib.Data.List.Basic
import Mathlib.Data.List.Range

/-!
# Round robin

A cursor goes round `n` slots and gives a turn to every slot in use that it passes; slots come into
use at any time and stay in use. Between two turns of a slot every other slot in use gets one turn,
in cyclic order.
-/

namespace RoundRobin

/-- A turn, with the slots in use when it was given. -/
structure Turn where
  slot : ℕ
  used : List ℕ

structure Scan where
  cursor : ℕ
  used : List ℕ
  log : List Turn

variable {n : ℕ}

inductive Step (n : ℕ) : Scan → Scan → Prop
  | turn {c : ℕ} {used : List ℕ} {log : List Turn} : c < n → c ∈ used →
      Step n ⟨c, used, log⟩ ⟨c + 1, used, log ++ [⟨c, used⟩]⟩
  | skip {c : ℕ} {used : List ℕ} {log : List Turn} : c < n → c ∉ used →
      Step n ⟨c, used, log⟩ ⟨c + 1, used, log⟩
  | wrap {used : List ℕ} {log : List Turn} : Step n ⟨n, used, log⟩ ⟨0, used, log⟩
  | grow {c : ℕ} {used used' : List ℕ} {log : List Turn} : used ⊆ used' →
      Step n ⟨c, used, log⟩ ⟨c, used', log⟩

/-- The slots that the cursor passes from behind slot `i` until it stands at `c`. -/
def passed (n i c : ℕ) : List ℕ :=
  if i < c then List.range' (i + 1) (c - (i + 1))
  else List.range' (i + 1) (n - (i + 1)) ++ List.range c

def around (n i : ℕ) : List ℕ := List.range' (i + 1) (n - (i + 1)) ++ List.range i

theorem passed_self (n i : ℕ) : passed n i i = around n i := if_neg (Nat.lt_irrefl i)

theorem passed_next (n i : ℕ) : passed n i (i + 1) = [] := by
  rw [passed, if_pos (Nat.lt_succ_self i), Nat.sub_self]
  rfl

theorem passed_succ {i c : ℕ} (h : c ≠ i) : passed n i (c + 1) = passed n i c ++ [c] := by
  rcases Nat.lt_or_ge i c with hlt | hge
  · have hs : c + 1 - (i + 1) = (c - (i + 1)) + 1 := by omega
    have hc : i + 1 + 1 * (c - (i + 1)) = c := by omega
    rw [passed, passed, if_pos (by omega), if_pos hlt, hs, List.range'_concat, hc]
  · rw [passed, passed, if_neg (by omega), if_neg (by omega), List.range_succ, List.append_assoc]

theorem passed_wrap {i : ℕ} (h : i < n) : passed n i n = passed n i 0 := by
  rw [passed, passed, if_pos h, if_neg (Nat.not_lt_zero i), List.range_zero, List.append_nil]

/-- Since its last turn the slot `d.slot` has seen those turns, up to slots that came into use. -/
structure Since (n : ℕ) (s : Scan) (d : Turn) (mid : List Turn) : Prop where
  slot_lt : d.slot < n
  slot_mem : d.slot ∈ d.used
  subset : d.used ⊆ s.used
  turns : (mid.map Turn.slot).filter (· ∈ d.used) = (passed n d.slot s.cursor).filter (· ∈ d.used)

def Fair (n : ℕ) (log : List Turn) : Prop :=
  ∀ (before : List Turn) (d : Turn) (mid : List Turn) (d' : Turn) (after : List Turn),
    log = before ++ d :: (mid ++ d' :: after) → d'.slot = d.slot → (∀ x ∈ mid, x.slot ≠ d.slot) →
    (mid.map Turn.slot).filter (· ∈ d.used) = (around n d.slot).filter (· ∈ d.used)

structure Inv (n : ℕ) (s : Scan) : Prop where
  since : ∀ before d mid, s.log = before ++ d :: mid → (∀ x ∈ mid, x.slot ≠ d.slot) →
    Since n s d mid
  fair : Fair n s.log

theorem inv_init (used : List ℕ) : Inv n ⟨0, used, []⟩ where
  since before d mid h := by simp at h
  fair before d mid d' after h := by simp at h

/-- A step that gives no turn. -/
theorem Inv.move {c c' : ℕ} {used used' : List ℕ} {log : List Turn} (h : Inv n ⟨c, used, log⟩)
    (hsub : used ⊆ used')
    (hpassed : ∀ d : Turn, d.slot < n → d.slot ∈ used → d.used ⊆ used →
      (passed n d.slot c').filter (· ∈ d.used) = (passed n d.slot c).filter (· ∈ d.used)) :
    Inv n ⟨c', used', log⟩ where
  since before d mid hlog hmid := by
    have hs := h.since before d mid hlog hmid
    refine ⟨hs.slot_lt, hs.slot_mem, List.Subset.trans hs.subset hsub, ?_⟩
    rw [hpassed d hs.slot_lt (hs.subset hs.slot_mem) hs.subset]
    exact hs.turns
  fair := h.fair

theorem Inv.turn {c : ℕ} {used : List ℕ} {log : List Turn} (h : Inv n ⟨c, used, log⟩)
    (hc : c < n) (hmem : c ∈ used) : Inv n ⟨c + 1, used, log ++ [⟨c, used⟩]⟩ where
  since before d mid hlog hmid := by
    rcases List.eq_nil_or_concat mid with rfl | ⟨mid', t, rfl⟩
    · obtain ⟨-, heq⟩ := List.append_inj' hlog rfl
      obtain rfl : (⟨c, used⟩ : Turn) = d := by simpa using heq
      refine ⟨hc, hmem, List.Subset.refl _, ?_⟩
      rw [passed_next]
      rfl
    · rw [List.concat_eq_append, ← List.cons_append, ← List.append_assoc] at hlog
      obtain ⟨hrest, heq⟩ := List.append_inj' hlog rfl
      obtain rfl : (⟨c, used⟩ : Turn) = t := by simpa using heq
      rw [List.concat_eq_append] at hmid ⊢
      have hs := h.since before d mid' hrest fun x hx => hmid x (List.mem_append_left _ hx)
      have hne : c ≠ d.slot := hmid ⟨c, used⟩ (by simp)
      refine ⟨hs.slot_lt, hs.slot_mem, hs.subset, ?_⟩
      rw [passed_succ hne, List.map_append, List.filter_append, List.filter_append, hs.turns]
      rfl
  fair before d mid d' after hlog hslot hmid := by
    rcases List.eq_nil_or_concat after with rfl | ⟨after', t, rfl⟩
    · rw [← List.cons_append, ← List.append_assoc] at hlog
      obtain ⟨hrest, heq⟩ := List.append_inj' hlog rfl
      obtain rfl : (⟨c, used⟩ : Turn) = d' := by simpa using heq
      have hs := h.since before d mid hrest hmid
      have hcursor : c = d.slot := hslot
      rw [hs.turns, ← passed_self]
      exact congrArg (fun c => (passed n d.slot c).filter (· ∈ d.used)) hcursor
    · rw [List.concat_eq_append, ← List.cons_append, ← List.append_assoc, ← List.cons_append,
        ← List.append_assoc] at hlog
      obtain ⟨hrest, -⟩ := List.append_inj' hlog rfl
      rw [List.append_assoc, List.cons_append] at hrest
      exact h.fair before d mid d' after' hrest hslot hmid

theorem step_inv {s s' : Scan} (h : Inv n s) (hstep : Step n s s') : Inv n s' := by
  cases hstep with
  | turn hc hmem => exact h.turn hc hmem
  | @skip c used log hc hmem =>
      refine h.move (List.Subset.refl _) fun d _ hd hsub => ?_
      have hne : c ≠ d.slot := by
        rintro rfl
        exact hmem hd
      have hout : decide (c ∈ d.used) = false := decide_eq_false fun hin => hmem (hsub hin)
      rw [passed_succ hne, List.filter_append, List.filter_cons, hout, List.filter_nil]
      simp
  | wrap =>
      refine h.move (List.Subset.refl _) fun d hd _ _ => ?_
      rw [passed_wrap hd]
  | grow hsub => exact h.move hsub fun _ _ _ _ => rfl

end RoundRobin
