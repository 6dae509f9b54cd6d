import System44.Keyboard

/-!
# Typing

What is on a key is found by its scan code, and a character that is on one of the keys is typed by
pressing and releasing it, with a Shift key held where that is needed. Whatever comes between the
scan codes, `get_key` returns the characters that were typed, in order.
-/

namespace System44

def pressed (shift : Bool) (sc : Byte) : Bool × List Byte :=
  if sc = 0x2A#8 ∨ sc = 0x36#8 then (true, [])
  else if sc = 0xAA#8 ∨ sc = 0xB6#8 then (false, [])
  else if sc &&& 0x80#8 ≠ 0#8 then (shift, [])
  else if kbdChar shift sc ≠ 0#8 then (shift, [kbdChar shift sc])
  else (shift, [])

def shiftAfter (shift : Bool) (codes : List Byte) : Bool :=
  codes.foldl (fun shift sc => (pressed shift sc).1) shift

def typedChars : Bool → List Byte → List Byte
  | _, [] => []
  | shift, sc :: codes => (pressed shift sc).2 ++ typedChars (pressed shift sc).1 codes

/-- The scan codes that the handler reads. -/
def readCodes (inputs : List KeyboardInput) : List Byte :=
  inputs.flatMap fun
    | .irq status sc => if status &&& 1#8 = 0#8 then [] else [sc]
    | .getKey _ => []

def keyboardEvent (r : KeyboardRun) : KeyboardInput → Ring.Event Byte
  | .irq status sc => (keyboardirqh r.system.kbd status sc).2
  | .getKey tailFirst => (getKeyStep r.system tailFirst).2

/-- The character is on a key. -/
def Typeable (c : Byte) : Prop := c ≠ 0#8 ∧ (c ∈ kbdus ∨ c ∈ kbdusShift)

instance (c : Byte) : Decidable (Typeable c) := inferInstanceAs (Decidable (_ ∧ _))

/-- The key is pressed and released, between those of the left Shift key if it has to be held. -/
def keystrokes (c : Byte) : List Byte :=
  if kbdus.contains c then
    let sc := BitVec.ofNat 8 (kbdus.idxOf c)
    [sc, sc ||| 0x80#8]
  else
    let sc := BitVec.ofNat 8 (kbdusShift.idxOf c)
    [0x2A#8, sc, sc ||| 0x80#8, 0xAA#8]

section

variable (shift : Bool)

theorem shiftAfter_append (codes codes' : List Byte) :
    shiftAfter shift (codes ++ codes') = shiftAfter (shiftAfter shift codes) codes' :=
  List.foldl_append

theorem typedChars_append (codes codes' : List Byte) : typedChars shift (codes ++ codes') =
    typedChars shift codes ++ typedChars (shiftAfter shift codes) codes' := by
  induction codes generalizing shift with
  | nil => rfl
  | cons sc codes ih =>
      rw [List.cons_append, typedChars, typedChars, ih, List.append_assoc]
      rfl

theorem typedChars_prefix {codes codes' : List Byte} (h : codes <+: codes') :
    typedChars shift codes <+: typedChars shift codes' := by
  obtain ⟨rest, rfl⟩ := h
  rw [typedChars_append]
  exact List.prefix_append _ _

end

theorem keystrokes_typed {c : Byte} (h : Typeable c) :
    typedChars false (keystrokes c) = [c] ∧ shiftAfter false (keystrokes c) = false := by
  revert h
  revert c
  decide +kernel

theorem text_typed {text : List Byte} (h : ∀ b ∈ text, Typeable b) :
    typedChars false (text.flatMap keystrokes) = text ∧
      shiftAfter false (text.flatMap keystrokes) = false := by
  induction text with
  | nil => exact ⟨rfl, rfl⟩
  | cons b text ih =>
      obtain ⟨hchar, hshift⟩ := keystrokes_typed (h b List.mem_cons_self)
      obtain ⟨hchars, hshifts⟩ := ih fun b' hb' => h b' (List.mem_cons_of_mem b hb')
      rw [List.flatMap_cons, typedChars_append, shiftAfter_append, hchar, hshift]
      exact ⟨congrArg (b :: ·) hchars, hshifts⟩

section

variable {r : KeyboardRun}

theorem keyboardirqh_pressed (k : Keyboard) (status sc : Byte) :
    (keyboardirqh k status sc).1.shift = shiftAfter k.shift (readCodes [.irq status sc]) ∧
      (keyboardirqh k status sc).2.offered = typedChars k.shift (readCodes [.irq status sc]) := by
  unfold keyboardirqh
  by_cases hidle : status &&& 1#8 = 0#8
  · simp [hidle, readCodes, shiftAfter, typedChars, Ring.Event.offered]
  · have hcodes : readCodes [.irq status sc] = [sc] := by simp [readCodes, hidle]
    rw [if_neg hidle, hcodes]
    simp only [shiftAfter, List.foldl_cons, List.foldl_nil, typedChars, List.append_nil, pressed]
    repeat' split
    all_goals simp_all [Ring.Event.offered]

theorem getKeyStep_silent (s : KeyboardSystem) (tailFirst : Bool) :
    (getKeyStep s tailFirst).1.kbd.shift = s.kbd.shift ∧
      (getKeyStep s tailFirst).2.offered = [] := by
  unfold getKeyStep
  repeat' split
  all_goals exact ⟨rfl, rfl⟩

theorem keyboardStep_log (r : KeyboardRun) (i : KeyboardInput) :
    (keyboardStep r i).log = r.log ++ [keyboardEvent r i] := by
  cases i <;> rfl

theorem exists_log (inputs : List KeyboardInput) (r : KeyboardRun) :
    ∃ es, (inputs.foldl keyboardStep r).log = r.log ++ es := by
  induction inputs generalizing r with
  | nil => exact ⟨[], (List.append_nil _).symm⟩
  | cons i inputs ih =>
      obtain ⟨es, hes⟩ := ih (keyboardStep r i)
      refine ⟨keyboardEvent r i :: es, ?_⟩
      rw [List.foldl_cons, hes, keyboardStep_log, List.append_assoc, List.singleton_append]

theorem exists_returned (inputs : List KeyboardInput) (r : KeyboardRun) : ∃ new,
    Ring.returned (inputs.foldl keyboardStep r).log = Ring.returned r.log ++ new := by
  obtain ⟨es, hes⟩ := exists_log inputs r
  refine ⟨Ring.returned es, ?_⟩
  rw [hes]
  exact List.flatMap_append

theorem exists_accepted (inputs : List KeyboardInput) (r : KeyboardRun) : ∃ new,
    Ring.accepted (inputs.foldl keyboardStep r).log = Ring.accepted r.log ++ new := by
  obtain ⟨es, hes⟩ := exists_log inputs r
  refine ⟨Ring.accepted es, ?_⟩
  rw [hes]
  exact List.flatMap_append

theorem keyboardRun_offered (inputs : List KeyboardInput) :
    (inputs.foldl keyboardStep r).system.kbd.shift =
        shiftAfter r.system.kbd.shift (readCodes inputs) ∧
      Ring.offered (inputs.foldl keyboardStep r).log =
        Ring.offered r.log ++ typedChars r.system.kbd.shift (readCodes inputs) := by
  induction inputs generalizing r with
  | nil => exact ⟨rfl, (List.append_nil _).symm⟩
  | cons i inputs ih =>
      have hstep : (keyboardStep r i).system.kbd.shift =
            shiftAfter r.system.kbd.shift (readCodes [i]) ∧
          Ring.offered (keyboardStep r i).log =
            Ring.offered r.log ++ typedChars r.system.kbd.shift (readCodes [i]) := by
        rw [keyboardStep_log, Ring.offered_concat]
        cases i with
        | irq status sc =>
            obtain ⟨hshift, hchars⟩ := keyboardirqh_pressed r.system.kbd status sc
            rw [← hchars]
            exact ⟨hshift, rfl⟩
        | getKey tailFirst =>
            obtain ⟨hshift, hchars⟩ := getKeyStep_silent r.system tailFirst
            rw [keyboardEvent, hchars]
            exact ⟨hshift, rfl⟩
      have hcodes : readCodes (i :: inputs) = readCodes [i] ++ readCodes inputs := by
        simp [readCodes]
      obtain ⟨hshift, hchars⟩ := ih (r := keyboardStep r i)
      rw [hstep.1] at hshift hchars
      rw [List.foldl_cons, hcodes, shiftAfter_append, typedChars_append, hshift, hchars, hstep.2,
        List.append_assoc]
      exact ⟨rfl, rfl⟩

variable {c : Byte} {text : List Byte} (htext : ∀ b ∈ text, Typeable b)
  {inputs : List KeyboardInput} (hkeys : readCodes inputs <+: text.flatMap keystrokes)

include htext hkeys

theorem offered_typed :
    Ring.offered (inputs.foldl keyboardStep (keyboardInit c)).log <+: text := by
  have hoffered := (keyboardRun_offered (r := keyboardInit c) inputs).2
  have hstart := typedChars_prefix false hkeys
  rw [(text_typed htext).1] at hstart
  rw [hoffered]
  exact hstart

theorem keyboard_not_refused (hlen : text.length ≤ 255) (x : Byte) :
    .refuse x ∉ (inputs.foldl keyboardStep (keyboardInit c)).log := by
  obtain ⟨q, hq⟩ := refines_run inputs (refines_init c)
  exact hq.run.not_refused ((offered_typed htext hkeys).length_le.trans hlen) x

theorem keyboard_returns
    (hkept : ∀ x, .refuse x ∉ (inputs.foldl keyboardStep (keyboardInit c)).log) :
    Ring.returned (inputs.foldl keyboardStep (keyboardInit c)).log <+: text := by
  obtain ⟨q, hq⟩ := refines_run inputs (refines_init c)
  have haccepted := hq.run.accepted_eq
  rw [Ring.accepted_eq_offered hkept] at haccepted
  apply List.IsPrefix.trans _ (offered_typed (c := c) htext hkeys)
  rw [haccepted]
  exact List.prefix_append _ _

end

end System44
