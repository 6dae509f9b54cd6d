import Mathlib.Data.List.Basic
import Mathlib.Logic.Function.Basic

/-!
# A queue in a ring of cells

What a bounded queue does is told by the events its users see. A run of it takes out what was put
in, in order, and refuses something only when it is full.

The queue is kept in a ring: `size` cells are used round and round by one side that fills the cell
at `head` and one that empties the cell at `tail`. The cells from `tail` up to `head` hold the
queue, and one cell stays free so that a full ring is not taken for an empty one.
-/

namespace Ring

variable {α : Type*}

/-- What happens to a queue: something is put in or refused, taken out or looked for in vain. -/
inductive Event (α : Type*)
  | silent
  | put (x : α)
  | refuse (x : α)
  | take (x : α)
  | miss

def Event.given : Event α → List α
  | put x => [x]
  | _ => []

def Event.taken : Event α → List α
  | take x => [x]
  | _ => []

def Event.offered : Event α → List α
  | put x => [x]
  | refuse x => [x]
  | _ => []

/-- What was put in by the events, in order. -/
def accepted (log : List (Event α)) : List α := log.flatMap Event.given

/-- What was taken out by the events, in order. -/
def returned (log : List (Event α)) : List α := log.flatMap Event.taken

def offered (log : List (Event α)) : List α := log.flatMap Event.offered

/-- How much of what was put in has not been taken out. -/
def unread (log : List (Event α)) : ℕ := (accepted log).length - (returned log).length

inductive Step (capacity : ℕ) : List α → Event α → List α → Prop
  | silent (q : List α) : Step capacity q .silent q
  | put (q : List α) (x : α) : q.length < capacity → Step capacity q (.put x) (q ++ [x])
  | refuse (q : List α) (x : α) : q.length = capacity → Step capacity q (.refuse x) q
  | take (x : α) (q : List α) : Step capacity (x :: q) (.take x) q
  | miss (q : List α) : Step capacity q .miss q

/-- A run of an empty queue with the given events that leaves `q` in it. -/
inductive Run (capacity : ℕ) : List (Event α) → List α → Prop
  | nil : Run capacity [] []
  | snoc {log : List (Event α)} {e : Event α} {q q' : List α} : Run capacity log q →
      Step capacity q e q' → Run capacity (log ++ [e]) q'

theorem accepted_concat (log : List (Event α)) (e : Event α) :
    accepted (log ++ [e]) = accepted log ++ e.given := by
  rw [accepted, List.flatMap_append, List.flatMap_singleton, accepted]

theorem returned_concat (log : List (Event α)) (e : Event α) :
    returned (log ++ [e]) = returned log ++ e.taken := by
  rw [returned, List.flatMap_append, List.flatMap_singleton, returned]

/-- What was put in is what was taken out and what is left, in this order. -/
theorem Run.accepted_eq {capacity : ℕ} {log : List (Event α)} {q : List α}
    (h : Run capacity log q) : accepted log = returned log ++ q := by
  induction h with
  | nil => rfl
  | snoc _ hstep ih =>
      rw [accepted_concat, returned_concat, ih]
      cases hstep with
      | silent => simp [Event.given, Event.taken]
      | put => simp [Event.given, Event.taken]
      | refuse => simp [Event.given, Event.taken]
      | take => simp [Event.given, Event.taken]
      | miss => simp [Event.given, Event.taken]

theorem offered_concat (log : List (Event α)) (e : Event α) :
    offered (log ++ [e]) = offered log ++ e.offered := by
  rw [offered, List.flatMap_append, List.flatMap_singleton, offered]

theorem accepted_eq_offered {log : List (Event α)} (h : ∀ x, .refuse x ∉ log) :
    accepted log = offered log := by
  induction log with
  | nil => rfl
  | cons e log ih =>
      rw [accepted, offered, List.flatMap_cons, List.flatMap_cons]
      have hrest := ih fun x hx => h x (List.mem_cons_of_mem e hx)
      rw [accepted, offered] at hrest
      cases e with
      | refuse x => exact absurd List.mem_cons_self (h x)
      | _ => rw [hrest]; rfl

theorem Run.not_refused {capacity : ℕ} {log : List (Event α)} {q : List α}
    (h : Run capacity log q) (hfew : (offered log).length ≤ capacity) :
    ∀ x, .refuse x ∉ log := by
  induction h with
  | nil => exact fun x => List.not_mem_nil
  | @snoc log e q q' hrun hstep ih =>
      rw [offered_concat, List.length_append] at hfew
      have hbefore := ih (by omega)
      intro x hx
      rw [List.mem_append, List.mem_singleton] at hx
      rcases hx with hx | rfl
      · exact hbefore x hx
      · cases hstep with
        | refuse _ _ hfull =>
            have hlength := congrArg List.length hrun.accepted_eq
            rw [accepted_eq_offered hbefore, List.length_append, hfull] at hlength
            have hone : (Event.refuse x).offered.length = 1 := rfl
            omega

theorem Run.unread_eq {capacity : ℕ} {log : List (Event α)} {q : List α}
    (h : Run capacity log q) : unread log = q.length := by
  rw [unread, h.accepted_eq, List.length_append, Nat.add_sub_cancel_left]

variable {size head tail : ℕ} {cells : ℕ → α} {q : List α}

theorem mod_of_lt_two_mul {a n : ℕ} (h : a < 2 * n) : a % n = if a < n then a else a - n := by
  split
  · rename_i hlt
    exact Nat.mod_eq_of_lt hlt
  · rename_i hge
    rw [Nat.mod_eq_sub_mod (Nat.le_of_not_lt hge), Nat.mod_eq_of_lt (by omega)]

/-- The queue `q` lies in the cells from `tail` on, and `head` is the first free one. -/
structure Holds (size : ℕ) (cells : ℕ → α) (head tail : ℕ) (q : List α) : Prop where
  tail_lt : tail < size
  fits : q.length < size
  head_eq : head = (tail + q.length) % size
  cell : ∀ (i : ℕ) (_ : i < q.length), cells ((tail + i) % size) = q[i]

theorem holds_nil (h : tail < size) : Holds size cells tail tail [] where
  tail_lt := h
  fits := Nat.zero_lt_of_lt h
  head_eq := (Nat.mod_eq_of_lt h).symm
  cell i hi := absurd hi (Nat.not_lt_zero i)

namespace Holds

theorem head_lt (h : Holds size cells head tail q) : head < size := by
  rw [h.head_eq]
  exact Nat.mod_lt _ (Nat.zero_lt_of_lt h.tail_lt)

theorem mod_eq_tail_iff (h : Holds size cells head tail q) {k : ℕ} (hk : k ≤ q.length) :
    (tail + k) % size = tail ↔ k = 0 := by
  have htail := h.tail_lt
  have hfits := h.fits
  rw [mod_of_lt_two_mul (by omega)]
  split
  · omega
  · omega

theorem empty_iff (h : Holds size cells head tail q) : head = tail ↔ q = [] := by
  rw [h.head_eq, h.mod_eq_tail_iff (Nat.le_refl _), List.length_eq_zero_iff]

theorem full_iff (h : Holds size cells head tail q) :
    (head + 1) % size = tail ↔ q.length + 1 = size := by
  have htail := h.tail_lt
  have hfits := h.fits
  rw [h.head_eq, Nat.mod_add_mod, Nat.add_assoc, mod_of_lt_two_mul (by omega)]
  split
  · omega
  · omega

/-- The free cell is filled. -/
theorem push (h : Holds size cells head tail q) (hfull : q.length + 1 < size) (x : α) :
    Holds size (Function.update cells head x) ((head + 1) % size) tail (q ++ [x]) where
  tail_lt := h.tail_lt
  fits := by
    rw [List.length_append]
    exact hfull
  head_eq := by
    rw [h.head_eq, Nat.mod_add_mod, List.length_append, List.length_singleton, Nat.add_assoc]
  cell i hi := by
    have htail := h.tail_lt
    rw [List.length_append, List.length_singleton] at hi
    rcases Nat.lt_succ_iff_lt_or_eq.mp hi with hlt | rfl
    · have hne : (tail + i) % size ≠ head := by
        rw [h.head_eq, mod_of_lt_two_mul (by omega), mod_of_lt_two_mul (by omega)]
        split <;> split <;> omega
      rw [Function.update_of_ne hne, h.cell i hlt, List.getElem_append_left hlt]
    · rw [← h.head_eq, Function.update_self, List.getElem_concat_length rfl]

/-- The oldest cell is read and given up. -/
theorem pop {x : α} (h : Holds size cells head tail (x :: q)) :
    cells tail = x ∧ Holds size cells head ((tail + 1) % size) q := by
  have hfits := h.fits
  rw [List.length_cons] at hfits
  refine ⟨?_, ?_, Nat.lt_of_succ_lt hfits, ?_, fun i hi => ?_⟩
  · have hfirst := h.cell 0 (Nat.succ_pos _)
    rwa [Nat.add_zero, Nat.mod_eq_of_lt h.tail_lt] at hfirst
  · exact Nat.mod_lt _ (Nat.zero_lt_of_lt h.tail_lt)
  · rw [h.head_eq, Nat.mod_add_mod, List.length_cons, Nat.add_assoc, Nat.add_comm 1]
  · have hnext := h.cell (i + 1) (Nat.succ_lt_succ hi)
    rwa [List.getElem_cons_succ, Nat.add_comm i 1, ← Nat.add_assoc, ← Nat.mod_add_mod] at hnext

end Holds

end Ring
