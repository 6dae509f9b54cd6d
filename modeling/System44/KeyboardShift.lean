import Mathlib.Data.List.Induction
import System44.Keyboard

/-!
# The Shift keys

The driver has one flag for the two Shift keys. The flag follows the last of their scan codes, so it
is wrong from the release of one key on while the other one is still held, until one of the two
sends its next code.
-/

namespace System44

inductive ShiftKey
  | left
  | right
  deriving DecidableEq

namespace ShiftKey

def make : ShiftKey → Byte
  | left => 0x2A#8
  | right => 0x36#8

def release : ShiftKey → Byte
  | left => 0xAA#8
  | right => 0xB6#8

def other : ShiftKey → ShiftKey
  | left => right
  | right => left

def Sends (key : ShiftKey) (sc : Byte) : Prop := sc = key.make ∨ sc = key.release

/-- What a scan code says about the key, which was held or not. -/
def after (key : ShiftKey) (held : Bool) (sc : Byte) : Bool :=
  if sc = key.make then true else if sc = key.release then false else held

/-- The key is held after these scan codes: it was pressed and has not been released since. -/
def held (key : ShiftKey) (codes : List Byte) : Bool := codes.foldl key.after false

theorem held_concat (key : ShiftKey) (codes : List Byte) (sc : Byte) :
    key.held (codes ++ [sc]) = key.after (key.held codes) sc := by
  rw [held, List.foldl_append]
  rfl

theorem after_make (key : ShiftKey) (held : Bool) : key.after held key.make = true := if_pos rfl

theorem after_release (key : ShiftKey) (held : Bool) : key.after held key.release = false := by
  cases key <;> rfl

theorem after_of_not_sends (key : ShiftKey) (held : Bool) {sc : Byte} (h : ¬ key.Sends sc) :
    key.after held sc = held := by
  rw [after, if_neg fun hm => h (Or.inl hm), if_neg fun hr => h (Or.inr hr)]

theorem release_not_sends (key : ShiftKey) : ¬ key.other.Sends key.release := by
  unfold Sends
  cases key <;> decide

theorem make_ne_release (key key' : ShiftKey) : key.make ≠ key'.release := by
  cases key <;> cases key' <;> decide

theorem eq_or_eq_other (key key' : ShiftKey) : key' = key ∨ key' = key.other := by
  cases key <;> cases key' <;> decide

end ShiftKey

def ShiftHeld (codes : List Byte) : Prop := ∃ key : ShiftKey, key.held codes = true

/-- The last code of a Shift key was the release of one while the other was held. -/
def ReleasedBeside (codes : List Byte) : Prop :=
  ∃ (key : ShiftKey) (before since : List Byte), codes = before ++ key.release :: since ∧
    key.other.held before = true ∧ ∀ sc ∈ since, ∀ key' : ShiftKey, ¬ key'.Sends sc

section

variable (codes : List Byte)

theorem shiftHeld_make (key : ShiftKey) : ShiftHeld (codes ++ [key.make]) :=
  ⟨key, by rw [key.held_concat, key.after_make]⟩

theorem shiftHeld_release (key : ShiftKey) :
    ShiftHeld (codes ++ [key.release]) ↔ key.other.held codes = true := by
  constructor
  · rintro ⟨key', hheld⟩
    rw [key'.held_concat] at hheld
    rcases key.eq_or_eq_other key' with rfl | rfl
    · rw [key'.after_release] at hheld
      cases hheld
    · rwa [key.other.after_of_not_sends _ key.release_not_sends] at hheld
  · intro hheld
    refine ⟨key.other, ?_⟩
    rw [key.other.held_concat, key.other.after_of_not_sends _ key.release_not_sends, hheld]

variable {sc : Byte}

theorem shiftHeld_plain (h : ∀ key : ShiftKey, ¬ key.Sends sc) :
    ShiftHeld (codes ++ [sc]) ↔ ShiftHeld codes := by
  refine exists_congr fun key => ?_
  rw [key.held_concat, key.after_of_not_sends _ (h key)]

theorem releasedBeside_concat : ReleasedBeside (codes ++ [sc]) ↔
    (∃ key : ShiftKey, sc = key.release ∧ key.other.held codes = true) ∨
      (∀ key : ShiftKey, ¬ key.Sends sc) ∧ ReleasedBeside codes := by
  constructor
  · rintro ⟨key, before, since, heq, hheld, hplain⟩
    rcases List.eq_nil_or_concat since with rfl | ⟨since, last, rfl⟩
    · obtain ⟨rfl, hsc⟩ := List.append_inj' heq rfl
      exact Or.inl ⟨key, List.singleton_inj.mp hsc, hheld⟩
    · rw [List.concat_eq_append] at heq hplain
      rw [← List.cons_append, ← List.append_assoc] at heq
      obtain ⟨rfl, hsc⟩ := List.append_inj' heq rfl
      obtain rfl := List.singleton_inj.mp hsc
      refine Or.inr ⟨hplain sc (by simp), key, before, since, rfl, hheld, ?_⟩
      exact fun sc' hmem => hplain sc' (List.mem_append_left _ hmem)
  · rintro (⟨key, rfl, hheld⟩ | ⟨hplain, key, before, since, rfl, hheld, hsince⟩)
    · exact ⟨key, codes, [], rfl, hheld, fun sc' hmem => absurd hmem List.not_mem_nil⟩
    · refine ⟨key, before, since ++ [sc], by simp, hheld, fun sc' hmem => ?_⟩
      rcases List.mem_append.mp hmem with hmem | hmem
      · exact hsince sc' hmem
      · rw [List.mem_singleton.mp hmem]
        exact hplain

end

/-- The scan codes that the interrupts bring. -/
def scanCodes (inputs : List KeyboardInput) : List Byte :=
  inputs.filterMap fun
    | .irq _ sc => some sc
    | .getKey _ => none

/-- At every interrupt the status port says that there is a code to read. -/
def NoCodeLost (inputs : List KeyboardInput) : Prop :=
  ∀ status sc, KeyboardInput.irq status sc ∈ inputs → status &&& 1#8 ≠ 0#8

def kbdAfter (c : Byte) (inputs : List KeyboardInput) : Keyboard :=
  (inputs.foldl keyboardStep (keyboardInit c)).system.kbd

theorem shift_keyboardirqh (k : Keyboard) {status : Byte} (hstatus : status &&& 1#8 ≠ 0#8)
    (sc : Byte) : (keyboardirqh k status sc).1.shift =
      if sc = 0x2A#8 ∨ sc = 0x36#8 then true
      else if sc = 0xAA#8 ∨ sc = 0xB6#8 then false else k.shift := by
  rw [keyboardirqh, if_neg hstatus]
  split
  · rfl
  · split
    · rfl
    · split
      · rfl
      · dsimp only
        split
        · split <;> rfl
        · rfl

theorem getKeyStep_kbd_shift (s : KeyboardSystem) (tailFirst : Bool) :
    (getKeyStep s tailFirst).1.kbd.shift = s.kbd.shift := by
  unfold getKeyStep
  split
  · split <;> rfl
  · split <;> rfl
  · split <;> rfl
  · rfl
  · rfl
  · rfl
  · rfl
  · rfl

theorem kbdAfter_concat (c : Byte) (inputs : List KeyboardInput) (i : KeyboardInput) :
    kbdAfter c (inputs ++ [i]) =
      (keyboardStep (inputs.foldl keyboardStep (keyboardInit c)) i).system.kbd := by
  rw [kbdAfter, List.foldl_append]
  rfl

section

variable {codes : List Byte}

theorem flag_make (key : ShiftKey) :
    ShiftHeld (codes ++ [key.make]) ∧ ¬ ReleasedBeside (codes ++ [key.make]) := by
  refine ⟨shiftHeld_make codes key, fun hbeside => ?_⟩
  rcases (releasedBeside_concat codes).mp hbeside with ⟨key', hrelease, -⟩ | ⟨hplain, -⟩
  · exact key.make_ne_release key' hrelease
  · exact hplain key (Or.inl rfl)

theorem flag_release (key : ShiftKey) :
    ¬ (ShiftHeld (codes ++ [key.release]) ∧ ¬ ReleasedBeside (codes ++ [key.release])) := by
  rintro ⟨hheld, hbeside⟩
  have hother := (shiftHeld_release codes key).mp hheld
  exact hbeside ((releasedBeside_concat codes).mpr (Or.inl ⟨key, rfl, hother⟩))

theorem flag_plain {sc : Byte} (h : ∀ key : ShiftKey, ¬ key.Sends sc) :
    ShiftHeld (codes ++ [sc]) ∧ ¬ ReleasedBeside (codes ++ [sc]) ↔
      ShiftHeld codes ∧ ¬ ReleasedBeside codes := by
  rw [shiftHeld_plain codes h, releasedBeside_concat]
  refine and_congr_right fun _ => not_congr ?_
  constructor
  · rintro (⟨key, hrelease, -⟩ | ⟨-, hbeside⟩)
    · exact absurd (Or.inr hrelease) (h key)
    · exact hbeside
  · exact fun hbeside => Or.inr ⟨h, hbeside⟩

theorem flag_code {flag : Bool} (h : flag = true ↔ ShiftHeld codes ∧ ¬ ReleasedBeside codes)
    (sc : Byte) : (if sc = 0x2A#8 ∨ sc = 0x36#8 then true
      else if sc = 0xAA#8 ∨ sc = 0xB6#8 then false else flag) = true ↔
      ShiftHeld (codes ++ [sc]) ∧ ¬ ReleasedBeside (codes ++ [sc]) := by
  by_cases hmake : ∃ key : ShiftKey, sc = key.make
  · obtain ⟨key, rfl⟩ := hmake
    rw [if_pos (by cases key <;> decide)]
    exact iff_of_true rfl (flag_make key)
  · rw [if_neg fun hc => hmake (hc.elim (⟨.left, ·⟩) (⟨.right, ·⟩))]
    by_cases hrelease : ∃ key : ShiftKey, sc = key.release
    · obtain ⟨key, rfl⟩ := hrelease
      rw [if_pos (by cases key <;> decide)]
      exact iff_of_false Bool.false_ne_true (flag_release key)
    · rw [if_neg fun hc => hrelease (hc.elim (⟨.left, ·⟩) (⟨.right, ·⟩)), h, flag_plain]
      exact fun key hsends => hsends.elim (fun hm => hmake ⟨key, hm⟩) fun hr => hrelease ⟨key, hr⟩

end

/-- The flag is set exactly while a Shift key is held, unless the other one was released last. -/
theorem kbdAfter_shift (c : Byte) {inputs : List KeyboardInput} (h : NoCodeLost inputs) :
    (kbdAfter c inputs).shift = true ↔
      ShiftHeld (scanCodes inputs) ∧ ¬ ReleasedBeside (scanCodes inputs) := by
  induction inputs using List.reverseRecOn with
  | nil =>
      refine iff_of_false Bool.false_ne_true ?_
      rintro ⟨⟨key, hheld⟩, -⟩
      exact Bool.false_ne_true hheld
  | append_singleton inputs i ih =>
      have ih := ih fun status sc hmem => h status sc (List.mem_append_left _ hmem)
      rw [kbdAfter_concat]
      cases i with
      | getKey tailFirst =>
          have hcodes : scanCodes (inputs ++ [.getKey tailFirst]) = scanCodes inputs := by
            simp [scanCodes]
          rw [hcodes, ← ih]
          exact iff_of_eq (congrArg (· = true) (getKeyStep_kbd_shift _ tailFirst))
      | irq status sc =>
          have hcodes : scanCodes (inputs ++ [.irq status sc]) = scanCodes inputs ++ [sc] := by
            simp [scanCodes]
          have hstatus := h status sc (List.mem_append_right _ (List.mem_singleton_self _))
          rw [hcodes, ← flag_code ih sc, ← shift_keyboardirqh (kbdAfter c inputs) hstatus sc]
          rfl

theorem shiftHeld_of_releasedBeside {codes : List Byte} (h : ReleasedBeside codes) :
    ShiftHeld codes := by
  induction codes using List.reverseRecOn with
  | nil =>
      obtain ⟨key, before, since, heq, -⟩ := h
      simp at heq
  | append_singleton codes sc ih =>
      rcases (releasedBeside_concat codes).mp h with ⟨key, rfl, hheld⟩ | ⟨hplain, hr⟩
      · exact (shiftHeld_release codes key).mpr hheld
      · exact (shiftHeld_plain codes hplain).mpr (ih hr)

/-- With these inputs the interrupt of `sc`, after those of `before`, puts `x` into the ring. -/
def Queues (c : Byte) (inputs before : List KeyboardInput) (sc x : Byte) : Prop :=
  ∃ status rest, inputs = before ++ .irq status sc :: rest ∧
    (keyboardirqh (kbdAfter c before) status sc).2 = .put x

def TakenFrom (shifted : Bool) (k : Keyboard) (sc x : Byte) : Prop :=
  k.shift = shifted ∧ x = (if shifted then kbdusShift else kbdus).getD sc.toNat 0#8

/-- Every character comes from the shifted table if and only if a Shift key is held. -/
def ShiftExact (c : Byte) (inputs : List KeyboardInput) : Prop :=
  ∀ before sc x, Queues c inputs before sc x →
    (TakenFrom true (kbdAfter c before) sc x ↔ ShiftHeld (scanCodes before)) ∧
      (TakenFrom false (kbdAfter c before) sc x ↔ ¬ ShiftHeld (scanCodes before))

theorem eq_kbdChar_of_put {k : Keyboard} {status sc x : Byte}
    (h : (keyboardirqh k status sc).2 = .put x) : x = kbdChar k.shift sc := by
  unfold keyboardirqh at h
  split at h
  · cases h
  · split at h
    · cases h
    · split at h
      · cases h
      · split at h
        · cases h
        · dsimp only at h
          split at h
          · split at h
            · exact (Ring.Event.put.inj h).symm
            · cases h
          · cases h

theorem takenFrom_iff {k : Keyboard} {status sc x : Byte}
    (h : (keyboardirqh k status sc).2 = .put x) (shifted : Bool) :
    TakenFrom shifted k sc x ↔ k.shift = shifted := by
  constructor
  · exact fun ht => ht.1
  · rintro rfl
    exact ⟨rfl, eq_kbdChar_of_put h⟩

/-- The characters follow the Shift keys exactly when none of them is typed after one Shift key has
been released beside the other and before the next code of a Shift key. -/
theorem shiftExact_iff (c : Byte) {inputs : List KeyboardInput} (h : NoCodeLost inputs) :
    ShiftExact c inputs ↔
      ∀ before sc x, Queues c inputs before sc x → ¬ ReleasedBeside (scanCodes before) := by
  refine forall_congr' fun before => forall_congr' fun sc => forall_congr' fun x =>
    forall_congr' fun hq => ?_
  obtain ⟨status, rest, rfl, hput⟩ := hq
  have hbefore : NoCodeLost before := fun status' sc' hmem =>
    h status' sc' (List.mem_append_left _ hmem)
  have hflag := kbdAfter_shift c hbefore
  rw [takenFrom_iff hput, takenFrom_iff hput, ← Bool.not_eq_true, not_iff_not, and_self_iff, hflag]
  constructor
  · intro hexact hbeside
    exact (hexact.mpr (shiftHeld_of_releasedBeside hbeside)).2 hbeside
  · exact fun hnone => ⟨fun hc => hc.1, fun hheld => ⟨hheld, hnone⟩⟩

/-- Interrupts that bring these codes. -/
def typing (codes : List Byte) : List KeyboardInput := codes.map (.irq 1#8)

theorem noCodeLost_typing (codes : List Byte) : NoCodeLost (typing codes) := by
  intro status sc hmem
  obtain ⟨sc', -, heq⟩ := List.mem_map.mp hmem
  obtain ⟨rfl, -⟩ := KeyboardInput.irq.inj heq
  decide

theorem not_releasedBeside_of_take {codes : List Byte}
    (h : ∀ i < codes.length, ∀ key : ShiftKey, codes[i]? = some key.release →
      key.other.held (codes.take i) = false) {codes' : List Byte} (hcodes : codes' <+: codes) :
    ¬ ReleasedBeside codes' := by
  rintro ⟨key, before, since, rfl, hheld, -⟩
  obtain ⟨rest, rfl⟩ := hcodes
  have hfree := h before.length (by simp) key (by simp)
  rw [List.append_assoc, List.take_left] at hfree
  rw [hfree] at hheld
  cases hheld

theorem Queues.codes_before {c : Byte} {codes : List Byte} {before : List KeyboardInput}
    {sc x : Byte} (h : Queues c (typing codes) before sc x) : scanCodes before <+: codes := by
  obtain ⟨status, rest, heq, -⟩ := h
  have hcodes : scanCodes (typing codes) = codes := by simp [scanCodes, typing, List.filterMap_map]
  rw [heq] at hcodes
  rw [← hcodes, scanCodes, scanCodes, List.filterMap_append]
  exact List.prefix_append ..

def oneAfterTheOther : List Byte :=
  [0x1E#8, 0x2A#8, 0x1E#8, 0xAA#8, 0x1E#8, 0x36#8, 0x1E#8, 0xB6#8]

theorem oneAfterTheOther_exact : ShiftExact 0#8 (typing oneAfterTheOther) ∧
    Ring.accepted ((typing oneAfterTheOther).foldl keyboardStep (keyboardInit 0#8)).log =
      asciiBytes ['a', 'A', 'a', 'A'] := by
  refine ⟨(shiftExact_iff 0#8 (noCodeLost_typing oneAfterTheOther)).mpr ?_, by decide⟩
  intro before sc x hq
  refine not_releasedBeside_of_take (fun i hi key => ?_) hq.codes_before
  revert i
  cases key <;> decide

/-- The left Shift key is released while the right one is held. -/
def leftBesideRight : List Byte := [0x2A#8, 0x36#8, 0xAA#8]

theorem leftBesideRight_not_exact : NoCodeLost (typing (leftBesideRight ++ [0x1E#8])) ∧
    ShiftKey.right.held leftBesideRight = true ∧
    Ring.accepted ((typing (leftBesideRight ++ [0x1E#8])).foldl keyboardStep
      (keyboardInit 0#8)).log = asciiBytes ['a'] ∧
    ¬ ShiftExact 0#8 (typing (leftBesideRight ++ [0x1E#8])) := by
  refine ⟨noCodeLost_typing _, by decide, by decide, fun hexact => ?_⟩
  have hq : Queues 0#8 (typing (leftBesideRight ++ [0x1E#8])) (typing leftBesideRight) 0x1E#8
      0x61#8 := ⟨1#8, [], rfl, rfl⟩
  have hshifted := (hexact _ _ _ hq).1.mpr ⟨.right, by decide⟩
  exact absurd hshifted.1 (by decide)

end System44
