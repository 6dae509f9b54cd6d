import System44.KeyboardProgress
import System44.ShellSession
import System44.TtyCounter

/-!
# From the keyboard to the screen

`sh` takes a character from `get_key` and has dealt with it before it asks for the next one, while
interrupts of the keyboard come at any time and the task of the counter takes its turns. What was
taken determines what is on the screen and which files there are, in whatever order this happens.
-/

namespace System44

/-- The shell while a line is read. -/
structure ShellLoop where
  machine : Machine
  i : ℕ

def prompt : List Byte := [0x3E#8, 0x20#8]

def shStart (P : ShellPlace) (M : Machine) : ShellLoop :=
  ⟨{ M with mem := M.mem.blit P.chars 128 fun _ => 0#8 }, 0⟩

/-- What `sh` does with a character, up to its next call of `get_key`. -/
def shTake (font : Font) (prog : Program) (P : ShellPlace) (x : ShellLoop × Tty) (c : Byte) :
    Option (ShellLoop × Tty) :=
  let (l, t) := x
  match shKey font P.chars ⟨l.machine.mem, l.i, t⟩ c with
  | (false, e) => some (⟨{ l.machine with mem := e.mem }, e.i⟩, e.tty)
  | (true, e) => do
    let (branch, m) ← dispatch P.chars builtins e.mem none
    let (text, M) ← shBranch prog P { l.machine with mem := m } branch
    some (shStart P M, ttyPuts font (text.foldl (Tty.show font) e.tty) prompt)

/-- The keyboard with its driver, and the two tasks with the console. -/
structure Terminal where
  keyboard : KeyboardRun
  shell : ShellLoop
  desk : Desk

/-- What happens next: an interrupt, an access of `get_key` or a round of the counter. -/
inductive TerminalInput
  | keyboard (i : KeyboardInput)
  | counter

def terminalStep (font : Font) (prog : Program) (P : ShellPlace) (t : Terminal) :
    TerminalInput → Option Terminal
  | .keyboard i => do
    let (shell, tty) ← (keyboardEvent t.keyboard i).taken.foldlM (shTake font prog P)
      (t.shell, t.desk.tty)
    some ⟨keyboardStep t.keyboard i, shell, { t.desk with tty := tty }⟩
  | .counter => some { t with desk := t.desk.count font }

def terminalRun (font : Font) (prog : Program) (P : ShellPlace) (t : Terminal)
    (inputs : List TerminalInput) : Option Terminal :=
  inputs.foldlM (terminalStep font prog P) t

/-- The prompt has been printed, and no key was pressed yet. -/
def terminalStart (P : ShellPlace) (s : Shell) (x : Byte) (n : ℕ) : Terminal :=
  ⟨keyboardInit x, shStart P s.machine, ⟨ttyPuts fontGet s.tty prompt, n⟩⟩

def keyboardOf (inputs : List TerminalInput) : List KeyboardInput :=
  inputs.filterMap fun
    | .keyboard i => some i
    | .counter => none

section

variable (font : Font) (prog : Program) (P : ShellPlace)

def Handles (l : ShellLoop) (c : Byte) (out : List Shown) (l' : ShellLoop) : Prop :=
  ∀ t, shTake font prog P (l, t) c = some (l', out.foldl (Tty.show font) t)

inductive HandlesAll : ShellLoop → List Byte → List Shown → ShellLoop → Prop
  | nil (l : ShellLoop) : HandlesAll l [] [] l
  | cons {l l₁ l' : ShellLoop} {c : Byte} {cs : List Byte} {out outs : List Shown}
      (h : Handles font prog P l c out l₁) (hs : HandlesAll l₁ cs outs l') :
      HandlesAll l (c :: cs) (out ++ outs) l'

variable {font prog P} {l l₁ l' : ShellLoop} {cs cs' : List Byte} {out outs : List Shown}

theorem Handles.single {c : Byte} (h : Handles font prog P l c out l') :
    HandlesAll font prog P l [c] out l' := by
  have hs := HandlesAll.cons h (.nil l')
  rwa [List.append_nil] at hs

theorem HandlesAll.append (h : HandlesAll font prog P l cs out l₁)
    (h' : HandlesAll font prog P l₁ cs' outs l') :
    HandlesAll font prog P l (cs ++ cs') (out ++ outs) l' := by
  induction h with
  | nil => exact h'
  | cons hc _ ih =>
      rw [List.cons_append, List.append_assoc]
      exact .cons hc (ih h')

theorem HandlesAll.split (h : HandlesAll font prog P l (cs ++ cs') out l') : ∃ l₁ o o',
    HandlesAll font prog P l cs o l₁ ∧ HandlesAll font prog P l₁ cs' o' l' ∧ out = o ++ o' := by
  induction cs generalizing l out with
  | nil => exact ⟨l, [], out, .nil l, h, rfl⟩
  | cons c cs ih =>
      cases h with
      | cons hc hs =>
          obtain ⟨l₁, o, o', hcs, hcs', rfl⟩ := ih hs
          exact ⟨l₁, _, o', .cons hc hcs, hcs', (List.append_assoc _ _ _).symm⟩

theorem HandlesAll.foldlM_eq (h : HandlesAll font prog P l cs out l') (t : Tty) :
    cs.foldlM (shTake font prog P) (l, t) = some (l', out.foldl (Tty.show font) t) := by
  induction h generalizing t with
  | nil => rfl
  | cons hc _ ih =>
      rw [List.foldlM_cons, hc t, List.foldl_append]
      exact ih _

end

section

variable (font : Font) (prog : Program) {P : ShellPlace} {m : Mem} {i : ℕ} {p : Pending}

theorem shKey_typed {chars : ℕ} {c : Byte} {keys : List Byte} (hi : i = p.line.length)
    (h : Typed p (c :: keys)) : ∃ m' i' bs,
      (∀ t, shKey font chars ⟨m, i, t⟩ c = (false, ⟨m', i', ttyPuts font t bs⟩)) ∧
      i' = (p.key c).line.length ∧ (∀ rest, echoed (c :: rest) i = bs ++ echoed rest i') ∧
      ∀ a, 128 ≤ Mem.offset chars a → m'.get a = m.get a := by
  have hfits : p.line.length ≤ 126 := h.fits [] List.nil_prefix
  obtain ⟨-, henter⟩ := h.plain c List.mem_cons_self
  by_cases hback : c = 8#8
  · have hkey : p.key c = p.back := if_pos hback
    rw [hkey, length_back]
    by_cases hpos : 0 < i
    · refine ⟨m, i - 1, [8#8], fun t => ?_, by rw [hi], fun rest => ?_, fun _ _ => rfl⟩
      · simp [shKey, hback, hpos, ttyPuts]
      · simp [echoed, hback, hpos]
    · refine ⟨m, i, [], fun t => ?_, by omega, fun rest => ?_, fun _ _ => rfl⟩
      · simp [shKey, hback, hpos, ttyPuts]
      · simp [echoed, hback, hpos]
  · have hkey : p.key c = p.type c := if_neg hback
    have hroom : ¬ 127 ≤ i := by omega
    refine ⟨m.set (chars + i) c, i + 1, [c], fun t => ?_, ?_, fun rest => ?_, fun a ha => ?_⟩
    · simp [shKey, hback, hroom, henter, ttyPuts]
    · rw [hkey, hi]
      rfl
    · simp [echoed, hback, hroom, henter]
    · apply Mem.get_set_of_ne
      intro he
      have hoffset := (Mem.offset_eq_iff chars a (i := i) (by omega)).mpr he
      omega

theorem handles_typed {M : Machine} {keys : List Byte} (hi : i = p.line.length) (h : Typed p keys) :
    ∃ m' i', HandlesAll font prog P ⟨{ M with mem := m }, i⟩ keys (shown (echoed keys i))
        ⟨{ M with mem := m' }, i'⟩ ∧
      i' ≤ 126 ∧ (∀ rest, echoed (keys ++ rest) i = echoed keys i ++ echoed rest i') ∧
      (∀ rest t, shReadLine font P.chars (keys ++ rest) ⟨m, i, t⟩ =
        shReadLine font P.chars rest ⟨m', i', ttyPuts font t (echoed keys i)⟩) ∧
      ∀ a, 128 ≤ Mem.offset P.chars a → m'.get a = m.get a := by
  induction keys generalizing m i p with
  | nil =>
      have hfits : p.line.length ≤ 126 := h.fits [] List.nil_prefix
      exact ⟨m, i, .nil _, by omega, fun _ => rfl, fun _ _ => rfl, fun _ _ => rfl⟩
  | cons c keys ih =>
      obtain ⟨m₁, i₁, bs, hkey, hi₁, hecho₁, hframe₁⟩ := shKey_typed font (m := m) hi h
      obtain ⟨m', i', hkeys, hroom, hecho, hread, hframe⟩ := ih (m := m₁) hi₁ h.tail
      have hfirst : Handles font prog P ⟨{ M with mem := m }, i⟩ c (shown bs)
          ⟨{ M with mem := m₁ }, i₁⟩ := by
        intro t
        rw [shTake]
        dsimp only
        rw [hkey, foldl_shown]
      refine ⟨m', i', ?_, hroom, fun rest => ?_, fun rest t => ?_, fun a ha => ?_⟩
      · have hsplit : shown (echoed (c :: keys) i) = shown bs ++ shown (echoed keys i₁) := by
          rw [hecho₁]
          exact List.map_append
        rw [hsplit]
        exact .cons hfirst hkeys
      · rw [List.cons_append, hecho₁, hecho, hecho₁, List.append_assoc]
      · rw [List.cons_append, shReadLine, hkey t]
        dsimp only
        rw [hread, ttyPuts, ttyPuts, ttyPuts, hecho₁, List.foldl_append]
      · rw [hframe a ha, hframe₁ a ha]

theorem shKey_enter (chars : ℕ) (hi : i ≤ 126) : ∃ m', ∀ t,
    shKey font chars ⟨m, i, t⟩ 10#8 = (true, ⟨m', i + 1, ttyPuts font t [10#8]⟩) := by
  have hroom : ¬ 127 ≤ i := by omega
  refine ⟨(m.set (chars + i) 10#8).set (chars + i) 0#8, fun t => ?_⟩
  simp [shKey, hroom, ttyPuts]

end

section

variable (font : Font) (prog : Program) {P : ShellPlace} {M : Machine} {c : Files}

theorem handles_line (hplace : P.Apart) (h : ShellAt P M c) {keys : List Byte}
    (hkeys : Typed ⟨[], []⟩ keys) (hallowed : c.Allows (argOf keys) (commandOf keys)) :
    ∃ M', HandlesAll font prog P (shStart P M) (keys ++ [10#8])
        (shown (echoed (keys ++ [10#8]) 0) ++
          (c.run (tokenOf keys) (argOf keys) (commandOf keys)).1 ++ shown prompt) (shStart P M') ∧
      ShellAt P M' (c.line keys).2 := by
  obtain ⟨e, m', hread, -, hd, hline, hframe⟩ :=
    lineRead_of_typed font P.chars M.mem ⟨M.mem, Fb.boot, ⟨0, 0⟩⟩ hkeys
  obtain ⟨m₁, i₁, htyped, hroom, hecho, hread₁, -⟩ := handles_typed font prog (P := P) (M := M)
    (m := M.mem.blit P.chars 128 fun _ => 0#8) (i := 0) (p := ⟨[], []⟩) rfl hkeys
  obtain ⟨m₂, henter⟩ := shKey_enter font (m := m₁) P.chars hroom
  have hmem : e.mem = m₂ := by
    rw [shPrompt, hread₁, shReadLine, henter] at hread
    exact (congrArg Editor.mem (Option.some.inj hread)).symm
  rw [hmem] at hd
  have hat := h.congr hplace hframe
  obtain ⟨M', hbranch, hgaps, hwork⟩ :=
    shBranch_works prog hplace (kfsRun_represents hat.run) hat.gaps hline hallowed
  refine ⟨M', ?_, ⟨hat.run.work hwork, hgaps⟩⟩
  have hlast : Handles font prog P ⟨{ M with mem := m₁ }, i₁⟩ 10#8
      (shown [10#8] ++ (c.run (tokenOf keys) (argOf keys) (commandOf keys)).1 ++ shown prompt)
      (shStart P M') := by
    intro t
    rw [shTake]
    dsimp only
    rw [henter t]
    dsimp only
    rw [hd, Option.bind_eq_bind, Option.bind_some]
    dsimp only
    rw [hbranch, List.foldl_append, List.foldl_append, foldl_shown, foldl_shown]
    rfl
  have hlen : ¬ 127 ≤ i₁ := by omega
  have hsplit : shown (echoed (keys ++ [10#8]) 0) = shown (echoed keys 0) ++ shown [10#8] := by
    rw [hecho]
    simp [shown, echoed, hlen]
  rw [hsplit, List.append_assoc, List.append_assoc]
  rw [List.append_assoc] at hlast
  exact htyped.append hlast.single

theorem handles_open (hplace : P.Apart) (h : ShellAt P M c) {part : List Byte}
    (hpart : Typed ⟨[], []⟩ part) :
    ∃ l, HandlesAll font prog P (shStart P M) part (shown (echoed part 0)) l ∧
      ShellAt P l.machine c := by
  obtain ⟨m₁, i₁, htyped, -, -, -, hframe⟩ := handles_typed font prog (P := P) (M := M)
    (m := M.mem.blit P.chars 128 fun _ => 0#8) (i := 0) (p := ⟨[], []⟩) rfl hpart
  refine ⟨_, htyped, h.congr hplace fun a ha => ?_⟩
  exact (hframe _ ha).trans (Mem.get_blit_of_le _ _ (by decide) ha)

/-- What has been taken of some lines is whole ones and a part of the next. -/
theorem handles_session (hplace : P.Apart) (h : ShellAt P M c)
    {lines : List (List Byte)} (hlines : c.Accepts lines) {taken : List Byte}
    (htaken : taken <+: text lines []) :
    ∃ done part outs l, done <+: lines ∧ taken = text done part ∧
      HandlesAll font prog P (shStart P M) taken outs l ∧
      shown prompt ++ outs = (c.session done).1 ++ shown (prompt ++ echoed part 0) ∧
      ShellAt P l.machine (c.session done).2 ∧
      (taken = text lines [] → done = lines ∧ part = []) := by
  induction lines generalizing M c taken with
  | nil =>
      obtain rfl : taken = [] := List.prefix_nil.mp htaken
      have hopen : Typed ⟨[], []⟩ [] := ⟨by simp, by simp⟩
      obtain ⟨l, hhandles, hrun⟩ := handles_open font prog hplace h hopen
      exact ⟨[], [], _, l, List.prefix_rfl, rfl, hhandles, List.map_append.symm, hrun,
        fun _ => ⟨rfl, rfl⟩⟩
  | cons keys lines ih =>
      obtain ⟨hkeys, hallowed, hlines⟩ := hlines
      rw [text_cons] at htaken
      rcases Nat.lt_or_ge keys.length taken.length with hlong | hshort
      · -- the line has been ended
        obtain ⟨taken', rfl⟩ : keys ++ [10#8] <+: taken := by
          apply List.prefix_of_prefix_length_le (List.prefix_append _ _) htaken
          rw [List.length_append]
          exact hlong
        obtain ⟨M', hfirst, hrun⟩ := handles_line font prog hplace h hkeys hallowed
        obtain ⟨done, part, outs, l, hdone, rfl, hrest, houts, hrun', hall⟩ :=
          ih hrun hlines ((List.prefix_append_right_inj _).mp htaken)
        refine ⟨keys :: done, part, _, l, List.cons_prefix_cons.mpr ⟨rfl, hdone⟩,
          (text_cons ..).symm, hfirst.append hrest, ?_, hrun', fun heq => ?_⟩
        · rw [List.append_assoc, houts, Files.session, Files.line]
          simp [shown, prompt, List.append_assoc]
        · rw [text_cons] at heq
          obtain ⟨rfl, rfl⟩ := hall (List.append_cancel_left heq)
          exact ⟨rfl, rfl⟩
      · have hpart : taken <+: keys := by
          rw [List.append_assoc] at htaken
          exact List.prefix_of_prefix_length_le htaken (List.prefix_append _ _) hshort
        obtain ⟨l, hhandles, hrun⟩ := handles_open font prog hplace h
          ⟨fun b hb => hkeys.plain b (hpart.subset hb),
            fun typed ht => hkeys.fits typed (ht.trans hpart)⟩
        refine ⟨[], taken, _, l, List.nil_prefix, rfl, hhandles, List.map_append.symm, hrun,
          fun heq => ?_⟩
        rw [text_cons] at heq
        rw [heq] at hshort
        simp at hshort

end

section

variable (prog : Program) {P : ShellPlace} {t : Terminal} {l' : ShellLoop} {scr : Screen}

theorem terminalRun_follows (hflat : t.desk.tty.fb.Flat) (hs : t.desk.tty.Shows offCounter scr)
    (inputs : List TerminalInput) {new : List Byte} {outs : List Shown}
    (hnew : Ring.returned ((keyboardOf inputs).foldl keyboardStep t.keyboard).log =
      Ring.returned t.keyboard.log ++ new)
    (h : HandlesAll fontGet prog P t.shell new outs l') :
    ∃ desk, terminalRun fontGet prog P t inputs =
        some ⟨(keyboardOf inputs).foldl keyboardStep t.keyboard, l', desk⟩ ∧
      desk.tty.Shows offCounter (outs.foldl Screen.show scr) := by
  induction inputs generalizing t scr new outs with
  | nil =>
      obtain rfl : new = [] := List.append_right_eq_self.mp hnew.symm
      cases h
      exact ⟨t.desk, rfl, hs⟩
  | cons input inputs ih =>
      cases input with
      | counter =>
          exact ih (t := { t with desk := t.desk.count fontGet }) hflat (hs.count hflat) hnew h
      | keyboard i =>
          obtain ⟨new', hnew'⟩ := exists_returned (keyboardOf inputs) (keyboardStep t.keyboard i)
          have hsplit : new = (keyboardEvent t.keyboard i).taken ++ new' := by
            apply (List.append_right_inj (Ring.returned t.keyboard.log)).mp
            rw [← hnew, ← List.append_assoc, ← Ring.returned_concat, ← keyboardStep_log, ← hnew']
            rfl
          rw [hsplit] at h
          obtain ⟨l₁, o, o', hfirst, hrest, rfl⟩ := h.split
          obtain ⟨desk, hrun, hdesk⟩ := ih (t := ⟨keyboardStep t.keyboard i, l₁,
            { t.desk with tty := o.foldl (Tty.show fontGet) t.desk.tty }⟩)
            (by rwa [foldl_show_fb]) (hs.output hflat o) hnew' hrest
          refine ⟨desk, ?_, ?_⟩
          · rw [terminalRun, List.foldlM_cons, terminalStep, hfirst.foldlM_eq]
            exact hrun
          · rwa [List.foldl_append]

/-- A session that is typed: whatever the order in which the interrupts come, `get_key` goes on and
the counter is drawn, while no character is refused the shell has taken whole lines and a part of
the next, and the screen and the files are as these lines have left them. All is done when after the
last scan code the ring could have been emptied. -/
theorem terminalRun_session (hplace : P.Apart) {s : Shell} {c : Files}
    (h : ShellAt P s.machine c) (hflat : s.tty.fb.Flat)
    (hs : s.tty.Shows offCounter scr) {lines : List (List Byte)} (hlines : c.Accepts lines)
    (hkeys : ∀ b ∈ text lines [], Typeable b) {inputs : List TerminalInput}
    (htyped : readCodes (keyboardOf inputs) <+: (text lines []).flatMap keystrokes) {x : Byte}
    (hkept : ∀ b, .refuse b ∉ ((keyboardOf inputs).foldl keyboardStep (keyboardInit x)).log)
    (n : ℕ) :
    ∃ t done part, terminalRun fontGet prog P (terminalStart P s x n) inputs = some t ∧
      done <+: lines ∧ Ring.returned t.keyboard.log = text done part ∧
      ShellAt P t.shell.machine (c.session done).2 ∧
      t.desk.tty.Shows offCounter
        (((c.session done).1 ++ shown (prompt ++ echoed part 0)).foldl Screen.show scr) ∧
      ∀ first rest, inputs = first ++ rest →
        readCodes (keyboardOf first) = (text lines []).flatMap keystrokes →
          7 * 255 + 1 ≤ accesses (keyboardOf rest) → done = lines ∧ part = [] := by
  have hstart := keyboard_returns hkeys htyped hkept
  obtain ⟨done, part, outs, l, hdone, htaken, hhandles, houts, hrun, hall⟩ :=
    handles_session fontGet prog hplace h hlines hstart
  have hprompt := hs.output hflat (shown prompt)
  rw [foldl_shown] at hprompt
  obtain ⟨desk, hterminal, hdesk⟩ := terminalRun_follows prog (t := terminalStart P s x n)
    (by rwa [terminalStart, ttyPuts_fb]) hprompt inputs rfl hhandles
  rw [← List.foldl_append, houts] at hdesk
  refine ⟨_, done, part, hterminal, hdone, htaken, hrun, hdesk,
    fun first rest hsplit hcodes hmany => hall ?_⟩
  have hkeyboard : keyboardOf inputs = keyboardOf first ++ keyboardOf rest := by
    rw [hsplit]
    exact List.filterMap_append
  rw [hkeyboard] at htyped hkept ⊢
  exact keyboard_returns_all hkeys hcodes htyped hkept hmany

end

/-- Each scan code comes in the middle of a call of `get_key`, before a round of the counter. -/
def demoTyping : List TerminalInput :=
  (text demoLines []).flatMap fun c => (keystrokes c).flatMap fun sc =>
    [.keyboard (.getKey true), .keyboard (.irq 1#8 sc), .counter, .keyboard (.getKey false)]

def demoWaiting : List TerminalInput := List.replicate 1786 (.keyboard (.getKey false))

theorem demoTyping_shown : ∃ t,
    terminalRun fontGet (fun _ _ _ => none) demoPlace (terminalStart demoPlace demoShell 0#8 0)
      (demoTyping ++ demoWaiting) = some t ∧
    t.desk.tty.Shows offCounter ((asciiBytes
      "> touch a\n> ls\na\n> cat a\nkfs: ioerr\n> cat b\ncat: b: not found\n".toList ++
        prompt).foldl Screen.putc Screen.blank) := by
  have hcodes : readCodes (keyboardOf demoTyping) = (text demoLines []).flatMap keystrokes := by
    decide +kernel
  have hwaiting : keyboardOf demoWaiting = List.replicate 1786 (.getKey false) :=
    List.filterMap_replicate_of_some rfl
  have hkeys : ∀ b ∈ text demoLines [], Typeable b := by
    decide +kernel
  have hstart : readCodes (keyboardOf (demoTyping ++ demoWaiting)) <+:
      (text demoLines []).flatMap keystrokes := by
    have hall : readCodes (keyboardOf (demoTyping ++ demoWaiting)) =
        readCodes (keyboardOf demoTyping) := by
      have happend : keyboardOf (demoTyping ++ demoWaiting) =
          keyboardOf demoTyping ++ keyboardOf demoWaiting := List.filterMap_append
      have hnone : readCodes (List.replicate 1786 (.getKey false)) = [] :=
        List.flatMap_eq_nil_iff.2 fun e he => by rw [List.eq_of_mem_replicate he]
      rw [happend, hwaiting, readCodes, List.flatMap_append, ← readCodes, ← readCodes, hnone,
        List.append_nil]
    rw [hall, hcodes]
  obtain ⟨t, done, part, hrun, -, -, -, hshows, hall⟩ := terminalRun_session
    (fun _ _ _ => none) (s := demoShell) demoPlace_apart demoShell_at mode118_flat
    (shows_blank mode118_flat mode118) demoLines_accepted hkeys hstart
    (keyboard_not_refused (c := 0#8) hkeys hstart (by decide +kernel)) 0
  have hmany : 7 * 255 + 1 ≤ accesses (keyboardOf demoWaiting) := by
    rw [hwaiting, accesses, List.countP_replicate]
    decide
  obtain ⟨rfl, rfl⟩ := hall demoTyping demoWaiting rfl hcodes hmany
  refine ⟨t, hrun, ?_⟩
  rw [demoLines_session, List.foldl_append, foldl_show_shown, foldl_show_shown,
    ← List.foldl_append] at hshows
  exact hshows

end System44
