import System44.CString
import System44.Ring

/-!
# The keyboard

The interrupt handler puts characters into a ring and `get_key` takes them out. The handler runs to
its end, while `get_key` may be interrupted between any two of its accesses to memory, so it goes
step by step, one access a step.
-/

namespace System44

def kbdBuf : ℕ := 256

/-- The static variables of the driver. -/
structure Keyboard where
  buffer : ℕ → Byte
  head : ℕ
  tail : ℕ
  shift : Bool

/-- `kbdus`; the entries from 58 on are zero. -/
def kbdus : List Byte :=
  [0#8, 27#8] ++ asciiBytes ['1', '2', '3', '4', '5', '6', '7', '8', '9', '0', '-', '='] ++
    [8#8, 9#8] ++ asciiBytes ['q', 'w', 'e', 'r', 't', 'y', 'u', 'i', 'o', 'p', '[', ']'] ++
    [10#8, 0#8] ++ asciiBytes ['a', 's', 'd', 'f', 'g', 'h', 'j', 'k', 'l', ';'] ++
    [0x27#8, 0x60#8, 0#8, 0x5C#8] ++
    asciiBytes ['z', 'x', 'c', 'v', 'b', 'n', 'm', ',', '.', '/'] ++ [0#8, 0x2A#8, 0#8, 0x20#8, 0#8]

def kbdusShift : List Byte :=
  [0#8, 27#8] ++ asciiBytes ['!', '@', '#', '$', '%', '^', '&', '*', '(', ')', '_', '+'] ++
    [8#8, 9#8] ++ asciiBytes ['Q', 'W', 'E', 'R', 'T', 'Y', 'U', 'I', 'O', 'P'] ++
    [0x7B#8, 0x7D#8, 10#8, 0#8] ++
    asciiBytes ['A', 'S', 'D', 'F', 'G', 'H', 'J', 'K', 'L', ':'] ++
    [0x22#8, 0x7E#8, 0#8, 0x7C#8] ++
    asciiBytes ['Z', 'X', 'C', 'V', 'B', 'N', 'M', '<', '>', '?'] ++ [0#8, 0x2A#8, 0#8, 0x20#8, 0#8]

def kbdChar (shift : Bool) (sc : Byte) : Byte :=
  (if shift then kbdusShift else kbdus).getD sc.toNat 0#8

/-- An interrupt where the status port reads `status` and the data port `sc`. -/
def keyboardirqh (k : Keyboard) (status sc : Byte) : Keyboard × Ring.Event Byte :=
  if status &&& 1#8 = 0#8 then (k, .silent)
  else if sc = 0x2A#8 ∨ sc = 0x36#8 then ({ k with shift := true }, .silent)
  else if sc = 0xAA#8 ∨ sc = 0xB6#8 then ({ k with shift := false }, .silent)
  else if sc &&& 0x80#8 ≠ 0#8 then (k, .silent)
  else
    let c := kbdChar k.shift sc
    if c ≠ 0#8 then
      let next := (k.head + 1) % kbdBuf
      if next ≠ k.tail then
        ({ k with buffer := Function.update k.buffer k.head c, head := next }, .put c)
      else (k, .refuse c)
    else (k, .silent)

/-- Where a call of `get_key` is, with what it has read. The two operands of its comparison may be
read in either order. -/
inductive GetKey
  | idle
  | headRead (h : ℕ)
  | tailRead (t : ℕ)
  | compared
  | indexed (t : ℕ)
  | loaded (v : Byte)
  | stored
  | counted (t : ℕ)

/-- The driver, the call and the variable of the caller that `c` points to. -/
structure KeyboardSystem where
  kbd : Keyboard
  pc : GetKey
  c : Byte

/-- The next access of `get_key`; a call returns 0 with `miss` and 1 with `take`. -/
def getKeyStep (s : KeyboardSystem) (tailFirst : Bool) : KeyboardSystem × Ring.Event Byte :=
  match s.pc with
  | .idle =>
    if tailFirst then ({ s with pc := .tailRead s.kbd.tail }, .silent)
    else ({ s with pc := .headRead s.kbd.head }, .silent)
  | .headRead h =>
    if h = s.kbd.tail then ({ s with pc := .idle }, .miss)
    else ({ s with pc := .compared }, .silent)
  | .tailRead t =>
    if s.kbd.head = t then ({ s with pc := .idle }, .miss)
    else ({ s with pc := .compared }, .silent)
  | .compared => ({ s with pc := .indexed s.kbd.tail }, .silent)
  | .indexed t => ({ s with pc := .loaded (s.kbd.buffer t) }, .silent)
  | .loaded v => ({ s with c := v, pc := .stored }, .silent)
  | .stored => ({ s with pc := .counted s.kbd.tail }, .silent)
  | .counted t =>
    ({ s with kbd := { s.kbd with tail := (t + 1) % kbdBuf }, pc := .idle }, .take s.c)

def ReadsHead (pc : GetKey) (tailFirst : Bool) : Prop :=
  match pc with
  | .idle => tailFirst = false
  | .tailRead _ => True
  | _ => False

instance (pc : GetKey) (tailFirst : Bool) : Decidable (ReadsHead pc tailFirst) := by
  unfold ReadsHead
  cases pc <;> infer_instance

/-- What happens next: an interrupt, or an access of `get_key`. -/
inductive KeyboardInput
  | irq (status sc : Byte)
  | getKey (tailFirst : Bool)

/-- The system with what its users have seen, and how many characters were unread when `kbd_head`
was last read. -/
structure KeyboardRun where
  system : KeyboardSystem
  log : List (Ring.Event Byte)
  unreadAtHead : ℕ

def keyboardInit (c : Byte) : KeyboardRun := ⟨⟨⟨fun _ => 0#8, 0, 0, false⟩, .idle, c⟩, [], 0⟩

def keyboardStep (r : KeyboardRun) : KeyboardInput → KeyboardRun
  | .irq status sc =>
    let (k, e) := keyboardirqh r.system.kbd status sc
    ⟨{ r.system with kbd := k }, r.log ++ [e], r.unreadAtHead⟩
  | .getKey tailFirst =>
    let (s, e) := getKeyStep r.system tailFirst
    ⟨s, r.log ++ [e],
      if ReadsHead r.system.pc tailFirst then Ring.unread r.log else r.unreadAtHead⟩

/-- What the users of the keyboard rely on. -/
structure LosslessFifo (r : KeyboardRun) : Prop where
  head_lt : r.system.kbd.head < kbdBuf
  tail_lt : r.system.kbd.tail < kbdBuf
  delivered : Ring.returned r.log <+: Ring.accepted r.log
  refused : ∀ status sc c, (keyboardirqh r.system.kbd status sc).2 = .refuse c →
    Ring.unread r.log = 255
  missed : ∀ tailFirst, (getKeyStep r.system tailFirst).2 = .miss →
    (keyboardStep r (.getKey tailFirst)).unreadAtHead = 0

def AtGetKey (s : KeyboardSystem) (unreadAtHead : ℕ) (q : List Byte) : Prop :=
  match s.pc with
  | .idle => True
  | .headRead h => unreadAtHead ≤ q.length ∧ h = (s.kbd.tail + unreadAtHead) % kbdBuf
  | .tailRead t => t = s.kbd.tail
  | .compared => q ≠ []
  | .indexed t => t = s.kbd.tail ∧ q ≠ []
  | .loaded v => q.head? = some v
  | .stored => q.head? = some s.c
  | .counted t => t = s.kbd.tail ∧ q.head? = some s.c

/-- The ring holds the queue `q`. -/
structure Refines (r : KeyboardRun) (q : List Byte) : Prop where
  run : Ring.Run 255 r.log q
  ring : Ring.Holds kbdBuf r.system.kbd.buffer r.system.kbd.head r.system.kbd.tail q
  call : AtGetKey r.system r.unreadAtHead q

theorem refines_init (c : Byte) : Refines (keyboardInit c) [] where
  run := .nil
  ring := Ring.holds_nil (by decide : 0 < kbdBuf)
  call := trivial

/-- A key may become a character, which is taken in unless the ring is full. -/
theorem keyboardirqh_cases (k : Keyboard) (status sc : Byte) :
    (∃ shift, keyboardirqh k status sc = ({ k with shift := shift }, .silent)) ∨
      (∃ c, (k.head + 1) % kbdBuf = k.tail ∧ keyboardirqh k status sc = (k, .refuse c)) ∨
      ∃ c, (k.head + 1) % kbdBuf ≠ k.tail ∧ keyboardirqh k status sc =
        ({ k with buffer := Function.update k.buffer k.head c, head := (k.head + 1) % kbdBuf },
          .put c) := by
  unfold keyboardirqh
  split
  · exact Or.inl ⟨_, rfl⟩
  · split
    · exact Or.inl ⟨_, rfl⟩
    · split
      · exact Or.inl ⟨_, rfl⟩
      · split
        · exact Or.inl ⟨_, rfl⟩
        · dsimp only
          split
          · split
            · rename_i hfree
              exact Or.inr (Or.inr ⟨_, hfree, rfl⟩)
            · rename_i hfull
              exact Or.inr (Or.inl ⟨_, not_not.mp hfull, rfl⟩)
          · exact Or.inl ⟨_, rfl⟩

theorem atGetKey_put {s s' : KeyboardSystem} {u : ℕ} {q : List Byte} (x : Byte)
    (htail : s'.kbd.tail = s.kbd.tail) (hpc : s'.pc = s.pc) (hc : s'.c = s.c)
    (h : AtGetKey s u q) : AtGetKey s' u (q ++ [x]) := by
  have hhead : ∀ v, q.head? = some v → (q ++ [x]).head? = some v := by
    intro v hv
    rw [List.head?_append, hv, Option.some_or]
  unfold AtGetKey at *
  rw [hpc, htail, hc]
  cases hs : s.pc with
  | idle => trivial
  | headRead k =>
      rw [hs] at h
      refine ⟨?_, h.2⟩
      rw [List.length_append]
      exact h.1.trans (Nat.le_add_right ..)
  | tailRead t =>
      rw [hs] at h
      exact h
  | compared => exact List.append_ne_nil_of_right_ne_nil _ (by simp)
  | indexed t =>
      rw [hs] at h
      exact ⟨h.1, List.append_ne_nil_of_right_ne_nil _ (by simp)⟩
  | loaded v =>
      rw [hs] at h
      exact hhead v h
  | stored =>
      rw [hs] at h
      exact hhead _ h
  | counted t =>
      rw [hs] at h
      exact ⟨h.1, hhead _ h.2⟩

theorem refines_irq {r : KeyboardRun} {q : List Byte} (h : Refines r q) (status sc : Byte) :
    ∃ q', Refines (keyboardStep r (.irq status sc)) q' := by
  rcases keyboardirqh_cases r.system.kbd status sc with
    ⟨shift, hk⟩ | ⟨c, hfull, hk⟩ | ⟨c, hfree, hk⟩
  · refine ⟨q, ?_, ?_, ?_⟩
    · rw [keyboardStep, hk]
      exact h.run.snoc (.silent q)
    · rw [keyboardStep, hk]
      exact h.ring
    · rw [keyboardStep, hk]
      exact h.call
  · have hlen := h.ring.full_iff.mp hfull
    refine ⟨q, ?_, ?_, ?_⟩
    · rw [keyboardStep, hk]
      exact h.run.snoc (.refuse q c (Nat.succ_inj.mp hlen))
    · rw [keyboardStep, hk]
      exact h.ring
    · rw [keyboardStep, hk]
      exact h.call
  · have hne : q.length + 1 ≠ 256 := fun hlen => hfree (h.ring.full_iff.mpr hlen)
    have hlt : q.length < 256 := h.ring.fits
    refine ⟨q ++ [c], ?_, ?_, ?_⟩
    · rw [keyboardStep, hk]
      exact h.run.snoc (.put q c (by omega))
    · rw [keyboardStep, hk]
      exact h.ring.push (show q.length + 1 < 256 by omega) c
    · rw [keyboardStep, hk]
      exact atGetKey_put c rfl rfl rfl h.call

/-- An access that changes nothing but the call itself. -/
theorem refines_silent {r : KeyboardRun} {q : List Byte} (h : Refines r q) {tailFirst : Bool}
    {pc : GetKey} {c : Byte} {e : Ring.Event Byte} (he : Ring.Step 255 q e q)
    (hstep : getKeyStep r.system tailFirst = (⟨r.system.kbd, pc, c⟩, e))
    (hcall : AtGetKey ⟨r.system.kbd, pc, c⟩
      (if ReadsHead r.system.pc tailFirst then Ring.unread r.log else r.unreadAtHead) q) :
    Refines (keyboardStep r (.getKey tailFirst)) q := by
  refine ⟨?_, ?_, ?_⟩
  · rw [keyboardStep, hstep]
    exact h.run.snoc he
  · rw [keyboardStep, hstep]
    exact h.ring
  · rw [keyboardStep, hstep]
    exact hcall

theorem refines_getKey {r : KeyboardRun} {q : List Byte} (h : Refines r q) (tailFirst : Bool) :
    ∃ q', Refines (keyboardStep r (.getKey tailFirst)) q' := by
  obtain ⟨⟨kbd, pc, c⟩, log, u⟩ := r
  have hring : Ring.Holds kbdBuf kbd.buffer kbd.head kbd.tail q := h.ring
  have hcall := h.call
  cases pc with
  | idle =>
      cases tailFirst with
      | true => exact ⟨q, refines_silent h (.silent q) rfl rfl⟩
      | false =>
          refine ⟨q, refines_silent h (.silent q) rfl ?_⟩
          have hunread : Ring.unread log = q.length := h.run.unread_eq
          exact ⟨hunread.le, hunread ▸ hring.head_eq⟩
  | headRead k =>
      obtain ⟨hu, rfl⟩ : u ≤ q.length ∧ k = (kbd.tail + u) % kbdBuf := hcall
      by_cases heq : (kbd.tail + u) % kbdBuf = kbd.tail
      · exact ⟨q, refines_silent h (.miss q) (if_pos heq) trivial⟩
      · refine ⟨q, refines_silent h (.silent q) (if_neg heq) ?_⟩
        rintro rfl
        exact heq ((hring.mod_eq_tail_iff hu).mpr (Nat.le_zero.mp hu))
  | tailRead t =>
      obtain rfl : t = kbd.tail := hcall
      by_cases heq : kbd.head = kbd.tail
      · exact ⟨q, refines_silent h (.miss q) (if_pos heq) trivial⟩
      · refine ⟨q, refines_silent h (.silent q) (if_neg heq) ?_⟩
        exact fun hnil => heq (hring.empty_iff.mpr hnil)
  | compared =>
      have hne : q ≠ [] := hcall
      exact ⟨q, refines_silent h (.silent q) rfl ⟨rfl, hne⟩⟩
  | indexed t =>
      obtain ⟨rfl, hne⟩ : t = kbd.tail ∧ q ≠ [] := hcall
      obtain ⟨x, q', rfl⟩ := List.exists_cons_of_ne_nil hne
      refine ⟨x :: q', refines_silent h (.silent _) rfl ?_⟩
      exact congrArg some hring.pop.1.symm
  | loaded v =>
      have hv : q.head? = some v := hcall
      exact ⟨q, refines_silent h (.silent q) rfl hv⟩
  | stored =>
      have hc : q.head? = some c := hcall
      exact ⟨q, refines_silent h (.silent q) rfl ⟨rfl, hc⟩⟩
  | counted t =>
      obtain ⟨rfl, hc⟩ : t = kbd.tail ∧ q.head? = some c := hcall
      obtain ⟨q', rfl⟩ := List.head?_eq_some_iff.mp hc
      exact ⟨q', h.run.snoc (.take c q'), hring.pop.2, trivial⟩

theorem refines_run (inputs : List KeyboardInput) {r : KeyboardRun} {q : List Byte}
    (h : Refines r q) : ∃ q', Refines (inputs.foldl keyboardStep r) q' := by
  induction inputs generalizing r q with
  | nil => exact ⟨q, h⟩
  | cons i inputs ih =>
      have hstep : ∃ q', Refines (keyboardStep r i) q' := by
        cases i with
        | irq status sc => exact refines_irq h status sc
        | getKey tailFirst => exact refines_getKey h tailFirst
      obtain ⟨q', hq'⟩ := hstep
      exact ih hq'

theorem unreadAtHead_of_miss {r : KeyboardRun} {q : List Byte} (h : Refines r q) {tailFirst : Bool}
    (hmiss : (getKeyStep r.system tailFirst).2 = .miss) :
    (keyboardStep r (.getKey tailFirst)).unreadAtHead = 0 := by
  obtain ⟨⟨kbd, pc, c⟩, log, u⟩ := r
  have hring : Ring.Holds kbdBuf kbd.buffer kbd.head kbd.tail q := h.ring
  have hcall := h.call
  cases pc with
  | idle =>
      cases tailFirst with
      | true => cases hmiss
      | false => cases hmiss
  | headRead k =>
      obtain ⟨hu, rfl⟩ : u ≤ q.length ∧ k = (kbd.tail + u) % kbdBuf := hcall
      by_cases heq : (kbd.tail + u) % kbdBuf = kbd.tail
      · exact (hring.mod_eq_tail_iff hu).mp heq
      · have hstep : getKeyStep ⟨kbd, .headRead ((kbd.tail + u) % kbdBuf), c⟩ tailFirst =
            (⟨kbd, .compared, c⟩, .silent) := if_neg heq
        rw [hstep] at hmiss
        cases hmiss
  | tailRead t =>
      obtain rfl : t = kbd.tail := hcall
      by_cases heq : kbd.head = kbd.tail
      · have hunread : Ring.unread log = q.length := h.run.unread_eq
        have hnil := hring.empty_iff.mp heq
        exact hunread.trans (hnil ▸ rfl)
      · have hstep : getKeyStep ⟨kbd, .tailRead kbd.tail, c⟩ tailFirst =
            (⟨kbd, .compared, c⟩, .silent) := if_neg heq
        rw [hstep] at hmiss
        cases hmiss
  | compared => cases hmiss
  | indexed t => cases hmiss
  | loaded v => cases hmiss
  | stored => cases hmiss
  | counted t => cases hmiss

end System44
