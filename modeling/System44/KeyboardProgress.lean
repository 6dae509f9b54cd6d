import System44.KeyboardTyping

/-!
# Progress of the keyboard

A call of `get_key` takes seven accesses to memory to return a character, and an interrupt does not
make it longer. A call that has read `kbd_head` before the first character came still returns 0,
which is one access more. So what is in the ring is returned after so many accesses, whatever
interrupts come in between.
-/

namespace System44

/-- The accesses of `get_key` among what happens. -/
def accesses (inputs : List KeyboardInput) : ℕ :=
  inputs.countP fun
    | .irq .. => false
    | .getKey _ => true

/-- While there is a character in the ring, the accesses until one has been returned. -/
def GetKey.left (pc : GetKey) (tail : ℕ) : ℕ :=
  match pc with
  | .idle => 7
  | .headRead h => if h = tail then 8 else 6
  | .tailRead _ => 6
  | .compared => 5
  | .indexed _ => 4
  | .loaded _ => 3
  | .stored => 2
  | .counted _ => 1

def KeyboardSystem.left (s : KeyboardSystem) : ℕ := s.pc.left s.kbd.tail

section

variable {r : KeyboardRun} {q : List Byte}

theorem KeyboardSystem.left_le (s : KeyboardSystem) : s.left ≤ 8 := by
  unfold left GetKey.left
  split
  case h_2 => split <;> omega
  all_goals omega

theorem tail_irq (k : Keyboard) (status sc : Byte) :
    (keyboardirqh k status sc).1.tail = k.tail := by
  rcases keyboardirqh_cases k status sc with ⟨_, h⟩ | ⟨_, _, h⟩ | ⟨_, _, h⟩
  all_goals rw [h]

theorem left_irq (r : KeyboardRun) (status sc : Byte) :
    (keyboardStep r (.irq status sc)).system.left = r.system.left := by
  change r.system.pc.left (keyboardirqh r.system.kbd status sc).1.tail = _
  rw [tail_irq]
  rfl

theorem left_getKey (h : Refines r q) (hq : q ≠ []) (tailFirst : Bool) :
    (keyboardStep r (.getKey tailFirst)).system.left + 1 ≤ r.system.left ∧
        (keyboardEvent r (.getKey tailFirst)).taken = [] ∨
      (keyboardStep r (.getKey tailFirst)).system.left = 7 ∧ r.system.left = 1 ∧
        (keyboardEvent r (.getKey tailFirst)).taken.length = 1 := by
  obtain ⟨⟨kbd, pc, c⟩, log, u⟩ := r
  have hring : Ring.Holds kbdBuf kbd.buffer kbd.head kbd.tail q := h.ring
  have hne : kbd.head ≠ kbd.tail := fun heq => hq (hring.empty_iff.mp heq)
  have hcall := h.call
  cases pc with
  | idle =>
      left
      cases tailFirst with
      | true => exact ⟨le_refl 7, rfl⟩
      | false =>
          have hleft : (GetKey.headRead kbd.head).left kbd.tail = 6 := if_neg hne
          exact ⟨(congrArg (· + 1) hleft).le, rfl⟩
  | headRead k =>
      left
      by_cases heq : k = kbd.tail
      · subst heq
        have hstep : getKeyStep ⟨kbd, .headRead kbd.tail, c⟩ tailFirst =
            (⟨kbd, .idle, c⟩, .miss) := if_pos rfl
        simp [keyboardStep, keyboardEvent, KeyboardSystem.left, hstep, GetKey.left,
          Ring.Event.taken]
      · have hstep : getKeyStep ⟨kbd, .headRead k, c⟩ tailFirst =
            (⟨kbd, .compared, c⟩, .silent) := if_neg heq
        simp [keyboardStep, keyboardEvent, KeyboardSystem.left, hstep, heq, GetKey.left,
          Ring.Event.taken]
  | tailRead t =>
      left
      obtain rfl : t = kbd.tail := hcall
      have hstep : getKeyStep ⟨kbd, .tailRead kbd.tail, c⟩ tailFirst =
          (⟨kbd, .compared, c⟩, .silent) := if_neg hne
      simp [keyboardStep, keyboardEvent, KeyboardSystem.left, hstep, GetKey.left, Ring.Event.taken]
  | compared => exact Or.inl ⟨le_refl 5, rfl⟩
  | indexed t => exact Or.inl ⟨le_refl 4, rfl⟩
  | loaded v => exact Or.inl ⟨le_refl 3, rfl⟩
  | stored => exact Or.inl ⟨le_refl 2, rfl⟩
  | counted t => exact Or.inr ⟨rfl, rfl, rfl⟩

theorem taken_irq (r : KeyboardRun) (status sc : Byte) :
    (keyboardEvent r (.irq status sc)).taken = [] := by
  change (keyboardirqh r.system.kbd status sc).2.taken = []
  rcases keyboardirqh_cases r.system.kbd status sc with ⟨_, h⟩ | ⟨_, _, h⟩ | ⟨_, _, h⟩
  all_goals
    rw [h]
    rfl

theorem Refines.length_step {q' : List Byte} {i : KeyboardInput} (h : Refines r q)
    (h' : Refines (keyboardStep r i) q') : q'.length + (keyboardEvent r i).taken.length =
      q.length + (keyboardEvent r i).given.length := by
  have hbefore := congrArg List.length h.run.accepted_eq
  have hafter := congrArg List.length h'.run.accepted_eq
  rw [keyboardStep_log, Ring.accepted_concat, Ring.returned_concat] at hafter
  simp only [List.length_append] at hbefore hafter
  omega

theorem KeyboardSystem.left_pos (s : KeyboardSystem) : 0 < s.left := by
  unfold left GetKey.left
  split
  case h_2 => split <;> omega
  all_goals omega

/-- Of what is in the ring, `j` characters have been returned when the call has ended and seven
accesses have been made for each of the others. -/
theorem returned_of_accesses (h : Refines r q) {j : ℕ} (hj : j ≤ q.length)
    (inputs : List KeyboardInput)
    (hmany : 0 < j → r.system.left + 7 * (j - 1) ≤ accesses inputs) :
    (Ring.returned r.log).length + j ≤
      (Ring.returned (inputs.foldl keyboardStep r).log).length := by
  induction inputs generalizing r q j with
  | nil =>
      have hleft := r.system.left_pos
      have hnone : accesses [] = 0 := rfl
      rw [hnone] at hmany
      rw [List.foldl_nil]
      omega
  | cons i inputs ih =>
      rcases Nat.eq_zero_or_pos j with rfl | hpos
      · obtain ⟨new, hnew⟩ := exists_returned (i :: inputs) r
        rw [hnew, List.length_append]
        omega
      · have hleft := hmany hpos
        have hreturned : (Ring.returned (keyboardStep r i).log).length =
            (Ring.returned r.log).length + (keyboardEvent r i).taken.length := by
          rw [keyboardStep_log, Ring.returned_concat, List.length_append]
        rw [List.foldl_cons]
        cases i with
        | irq status sc =>
            obtain ⟨q', h'⟩ := refines_irq h status sc
            have hlength := h.length_step h'
            rw [taken_irq] at hlength hreturned
            have hrest := ih h' (j := j) (by simp at hlength; omega) fun _ => by
              rw [left_irq]
              exact hleft
            rwa [hreturned] at hrest
        | getKey tailFirst =>
            obtain ⟨q', h'⟩ := refines_getKey h tailFirst
            have hlength := h.length_step h'
            have haccess : accesses (.getKey tailFirst :: inputs) = accesses inputs + 1 :=
              List.countP_cons_of_pos rfl
            rw [haccess] at hleft
            have hq : q ≠ [] := List.ne_nil_of_length_pos (hpos.trans_le hj)
            rcases left_getKey h hq tailFirst with ⟨hless, hnone⟩ | ⟨hnext, hlast, hone⟩
            · rw [hnone] at hlength hreturned
              have hrest := ih h' (j := j) (by simp at hlength; omega) fun _ => by omega
              rwa [hreturned] at hrest
            · have hrest := ih h' (j := j - 1) (by omega) fun _ => by omega
              omega

theorem take_accepted_returned (h : Refines r q) {j : ℕ} (hj : j ≤ q.length)
    {inputs : List KeyboardInput} (hmany : 7 * j + 1 ≤ accesses inputs) :
    (Ring.accepted r.log).take ((Ring.returned r.log).length + j) <+:
      Ring.returned (inputs.foldl keyboardStep r).log := by
  obtain ⟨q', h'⟩ := refines_run inputs h
  obtain ⟨new, hnew⟩ := exists_accepted inputs r
  have hleft := r.system.left_le
  have hcount := returned_of_accesses h hj inputs fun _ => by omega
  have hbefore : (Ring.accepted r.log).take ((Ring.returned r.log).length + j) <+:
      Ring.accepted (inputs.foldl keyboardStep r).log := by
    rw [hnew]
    exact (List.take_prefix _ _).trans (List.prefix_append _ _)
  have hafter : Ring.returned (inputs.foldl keyboardStep r).log <+:
      Ring.accepted (inputs.foldl keyboardStep r).log := by
    rw [h'.run.accepted_eq]
    exact List.prefix_append _ _
  apply List.prefix_of_prefix_length_le hbefore hafter
  rw [List.length_take]
  omega

end

/-- A text that was typed has been returned when `get_key` could take as many characters as the ring
can hold. -/
theorem keyboard_returns_all {c : Byte} {text : List Byte} (htext : ∀ b ∈ text, Typeable b)
    {first rest : List KeyboardInput} (hall : readCodes first = text.flatMap keystrokes)
    (hkeys : readCodes (first ++ rest) <+: text.flatMap keystrokes)
    (hkept : ∀ x, .refuse x ∉ ((first ++ rest).foldl keyboardStep (keyboardInit c)).log)
    (hmany : 7 * 255 + 1 ≤ accesses rest) :
    Ring.returned ((first ++ rest).foldl keyboardStep (keyboardInit c)).log = text := by
  have hstart := keyboard_returns htext hkeys hkept
  obtain ⟨q, h⟩ := refines_run first (refines_init c)
  have hoffered := (keyboardRun_offered (r := keyboardInit c) first).2
  have htyped := (text_typed htext).1
  rw [List.foldl_append] at *
  set r := first.foldl keyboardStep (keyboardInit c)
  obtain ⟨es, hes⟩ := exists_log rest r
  have hbefore : ∀ x, .refuse x ∉ r.log := fun x hx => hkept x (by
    rw [hes]
    exact List.mem_append_left es hx)
  have haccepted : Ring.accepted r.log = text := by
    rw [Ring.accepted_eq_offered hbefore, hoffered, hall]
    exact htyped
  have hroom : q.length < 256 := h.ring.fits
  have hmany' : 7 * q.length + 1 ≤ accesses rest := by omega
  have htaken := take_accepted_returned h le_rfl hmany'
  have hwhole : (Ring.accepted r.log).length ≤ (Ring.returned r.log).length + q.length := by
    rw [h.run.accepted_eq, List.length_append]
  rw [List.take_of_length_le hwhole, haccepted] at htaken
  exact hstart.eq_of_length_le htaken.length_le

/-- Whatever has happened and whatever comes: of the characters in the ring, in their order, one has
been returned for each seven accesses of `get_key`, after one access more. -/
theorem keyboard_progress (c : Byte) (before after : List KeyboardInput) {j : ℕ}
    (hj : j ≤ Ring.unread (before.foldl keyboardStep (keyboardInit c)).log)
    (hmany : 7 * j + 1 ≤ accesses after) :
    (Ring.accepted (before.foldl keyboardStep (keyboardInit c)).log).take
        ((Ring.returned (before.foldl keyboardStep (keyboardInit c)).log).length + j) <+:
      Ring.returned ((before ++ after).foldl keyboardStep (keyboardInit c)).log := by
  obtain ⟨q, h⟩ := refines_run before (refines_init c)
  rw [h.run.unread_eq] at hj
  rw [List.foldl_append]
  exact take_accepted_returned h hj hmany

def demoPressed : List KeyboardInput := [.irq 1#8 0x1E#8, .irq 1#8 0x30#8]

def demoReading : List KeyboardInput := .irq 1#8 0x2E#8 :: List.replicate 15 (.getKey false)

theorem demoReading_progress : asciiBytes "ab".toList <+:
    Ring.returned ((demoPressed ++ demoReading).foldl keyboardStep (keyboardInit 0#8)).log :=
  keyboard_progress 0#8 demoPressed demoReading (j := 2) (by decide) (by decide)

end System44
