import System44.Shell
import System44.Tty

/-!
# The echo of the shell

For every key that it puts into the line the shell prints the character, and for every backspace
that takes one out it prints a backspace. The line and the framebuffer are memories of their own.
Beside the loop of the shell runs `Echo`, which remembers with each character of the line where on
the screen it was typed.
-/

namespace System44

/-- The variables of the inner loop of `sh`. -/
structure Editor where
  mem : Mem
  i : ℕ
  tty : Tty

/-- What the loop does with a key, and whether it then ends. -/
def shKey (font : Font) (chars : ℕ) (s : Editor) (c : Byte) : Bool × Editor :=
  if c = 8#8 then
    if 0 < s.i then (false, { s with i := s.i - 1, tty := ttyPutc font s.tty 8#8 }) else (false, s)
  else if 127 ≤ s.i then (true, { s with mem := s.mem.set (chars + s.i) 0#8 })
  else
    let s := { s with tty := ttyPutc font s.tty c }
    let s := { s with mem := s.mem.set (chars + s.i) c, i := s.i + 1 }
    if c = 10#8 then (true, { s with mem := s.mem.set (chars + (s.i - 1)) 0#8 }) else (false, s)

def shEdit (font : Font) (chars : ℕ) : List Byte → Editor → Editor
  | [], s => s
  | c :: keys, s =>
    match shKey font chars s c with
    | (true, s) => s
    | (false, s) => shEdit font chars keys s

def shPrompt (chars : ℕ) (m : Mem) (t : Tty) : Editor := ⟨m.blit chars 128 fun _ => 0#8, 0, t⟩

/-- States of the console after `tty_init`. The rest of the kernel may store anything meanwhile. -/
inductive TtyReachable (font : Font) : Tty → Prop
  | init (m : Mem) (fb : Fb) (vbe : ℕ) : TtyReachable font (ttyInit m fb vbe)
  | putc {t : Tty} (h : TtyReachable font t) (c : Byte) : TtyReachable font (ttyPutc font t c)
  | clear {t : Tty} (h : TtyReachable font t) : TtyReachable font (ttyClear t)
  | store {t : Tty} (h : TtyReachable font t) (m : Mem) : TtyReachable font { t with mem := m }

/-- The shell has just printed `"> "`. -/
def AtPrompt (font : Font) (t : Tty) : Prop :=
  ∃ t', TtyReachable font t' ∧ t = ttyPuts font t' [0x3E#8, 0x20#8]

/-- Printable, tab and backspace keys that keep the line within 126 characters. -/
structure EditKeys (keys : List Byte) : Prop where
  plain : ∀ c ∈ keys, Printable c ∨ c = 9#8 ∨ c = 8#8
  fits : ∀ typed, typed <+: keys → (pending typed).line.length ≤ 126

/-- After every key the cursor is where the characters in the line alone would have brought it. -/
def InStep (font : Font) (chars : ℕ) (m : Mem) (t : Tty) (keys : List Byte) : Prop :=
  ∀ typed, typed <+: keys → (shEdit font chars typed (shPrompt chars m t)).tty.caret =
    (ttyPuts font t (bytesFrom (shEdit font chars typed (shPrompt chars m t)).mem chars
      (shEdit font chars typed (shPrompt chars m t)).i)).caret

/-- The cursor, and the characters of the line with the places where they were typed, last first. -/
structure Echo where
  caret : Caret
  typed : List (Byte × Caret)

def Echo.back (e : Echo) : Echo :=
  match e.typed with
  | [] => e
  | _ :: typed => ⟨e.caret.putc 8#8, typed⟩

def Echo.type (e : Echo) (c : Byte) : Echo := ⟨e.caret.putc c, (c, e.caret) :: e.typed⟩

def Echo.key (e : Echo) (c : Byte) : Echo := if c = 8#8 then e.back else e.type c

def Echo.text (e : Echo) : List Byte := (e.typed.map Prod.fst).reverse

def echo (start : Caret) (keys : List Byte) : Echo := keys.foldl Echo.key ⟨start, []⟩

/-- A backspace takes the cursor back over `c`, typed at `p`: for a tab if it went one column on or
from the end of one row to the next row, for any other character unless it went from the last cell
of the screen to the first. -/
def Undoable (p : Caret) (c : Byte) : Prop :=
  if c = 9#8 then p.cx / charW % 5 = 2 ∨ p.cx = screenWidth - charW ∧ p.cy < screenHeight - charH
  else p ≠ ⟨screenWidth - charW, screenHeight - charH⟩

/-- Every backspace that erases a character erases one that it can take back. -/
def ErasesUndoable (start : Caret) (keys : List Byte) : Prop :=
  ∀ typed, typed ++ [8#8] <+: keys → ∀ c p rest, (echo start typed).typed = (c, p) :: rest →
    Undoable p c

section

variable {chars : ℕ} {s : Editor} {e : Echo}

/-- The loop has what the log says. -/
structure Echoes (chars : ℕ) (s : Editor) (e : Echo) : Prop where
  caret : s.tty.caret = e.caret
  i : s.i = e.typed.length
  line : bytesFrom s.mem chars s.i = e.text

theorem Echoes.back (h : Echoes chars s e) (font : Font) :
    ∃ s', shKey font chars s 8#8 = (false, s') ∧ Echoes chars s' e.back := by
  rw [shKey, if_pos rfl, Echo.back]
  cases htyped : e.typed with
  | nil =>
      rw [if_neg (by rw [h.i, htyped]; decide)]
      exact ⟨s, rfl, h⟩
  | cons x typed =>
      have hi : s.i = typed.length + 1 := by rw [h.i, htyped, List.length_cons]
      rw [if_pos (by omega)]
      refine ⟨_, rfl, ?_, ?_, ?_⟩
      · rw [ttyPutc_caret, h.caret]
      · rw [hi, Nat.add_sub_cancel]
      · have hline := h.line
        rw [hi, bytesFrom_succ, Echo.text, htyped, List.map_cons, List.reverse_cons] at hline
        rw [hi, Nat.add_sub_cancel]
        exact (List.append_inj' hline rfl).1

theorem Echoes.type (h : Echoes chars s e) (font : Font) {c : Byte} (hc : c ≠ 8#8)
    (henter : c ≠ 10#8) (hfits : e.typed.length < 127) :
    ∃ s', shKey font chars s c = (false, s') ∧ Echoes chars s' (e.type c) := by
  have hi := h.i
  rw [shKey, if_neg hc, if_neg (by omega)]
  dsimp only
  rw [if_neg henter]
  refine ⟨_, rfl, ?_, ?_, ?_⟩
  · rw [ttyPutc_caret, h.caret]
    rfl
  · rw [hi]
    rfl
  · have hkeep : bytesFrom (s.mem.set (chars + s.i) c) chars s.i = bytesFrom s.mem chars s.i :=
      bytesFrom_congr fun t ht => Mem.get_set_of_ne _ _ (by omega)
    rw [bytesFrom_succ, hkeep, h.line, Mem.get_set_self, Echo.text, Echo.text, Echo.type,
      List.map_cons, List.reverse_cons]

theorem echo_pending (keys : List Byte) (p : Pending) (h : e.typed.map Prod.fst = p.line) :
    (keys.foldl Echo.key e).typed.map Prod.fst = (keys.foldl Pending.key p).line := by
  induction keys generalizing e p with
  | nil => exact h
  | cons c keys ih =>
      apply ih
      rw [Echo.key, Pending.key]
      split
      · obtain ⟨line, erased⟩ := p
        obtain ⟨caret, typed⟩ := e
        dsimp only at h
        subst h
        cases typed <;> rfl
      · exact congrArg (c :: ·) h

theorem Echoes.shEdit (h : Echoes chars s e) (font : Font) {keys : List Byte}
    (hplain : ∀ c ∈ keys, Printable c ∨ c = 9#8 ∨ c = 8#8)
    (hfits : ∀ typed, typed <+: keys → (typed.foldl Echo.key e).typed.length ≤ 126) :
    Echoes chars (shEdit font chars keys s) (keys.foldl Echo.key e) := by
  induction keys generalizing s e with
  | nil => exact h
  | cons c keys ih =>
      have hnext : ∃ s', shKey font chars s c = (false, s') ∧ Echoes chars s' (e.key c) := by
        rw [Echo.key]
        by_cases hback : c = 8#8
        · rw [if_pos hback, hback]
          exact h.back font
        · have hnow := hfits [] List.nil_prefix
          have henter : c ≠ 10#8 := by
            rintro rfl
            exact absurd (hplain _ List.mem_cons_self) (by decide)
          rw [if_neg hback]
          exact h.type font hback henter (Nat.lt_succ_of_le hnow)
      obtain ⟨s', hkey, hs'⟩ := hnext
      rw [System44.shEdit, hkey]
      apply ih hs' fun x hx => hplain x (List.mem_cons_of_mem c hx)
      intro typed ht
      exact hfits (c :: typed) (List.cons_prefix_cons.mpr ⟨rfl, ht⟩)

end

theorem echoes_prompt (chars : ℕ) (m : Mem) (t : Tty) :
    Echoes chars (shPrompt chars m t) ⟨t.caret, []⟩ := ⟨rfl, rfl, rfl⟩

theorem EditKeys.echoes {keys : List Byte} (h : EditKeys keys) (font : Font) (chars : ℕ) (m : Mem)
    (t : Tty) {typed : List Byte} (ht : typed <+: keys) :
    Echoes chars (shEdit font chars typed (shPrompt chars m t)) (echo t.caret typed) := by
  apply (echoes_prompt chars m t).shEdit font
  · exact fun c hc => h.plain c (ht.subset hc)
  · intro typed' ht'
    have hline := congrArg List.length (echo_pending typed' (e := ⟨t.caret, []⟩) ⟨[], []⟩ rfl)
    rw [List.length_map] at hline
    rw [hline]
    exact h.fits typed' (ht'.trans ht)

theorem inStep_iff {font : Font} {chars : ℕ} {m : Mem} {t : Tty} {keys : List Byte}
    (h : EditKeys keys) : InStep font chars m t keys ↔ ∀ typed, typed <+: keys →
      (echo t.caret typed).caret = (echo t.caret typed).text.foldl Caret.putc t.caret := by
  refine forall₂_congr fun typed ht => ?_
  have hlog := h.echoes font chars m t ht
  rw [hlog.caret, ttyPuts_caret, hlog.line]

theorem cell_inj {i j i' j' : ℕ} : cell i j = cell i' j' ↔ i = i' ∧ j = j' := by
  simp only [cell, charW, charH, Caret.mk.injEq]
  omega

/-- From behind a character the backspace goes to the cell before, from the first column to the row
above, and from the first cell nowhere. -/
theorem back_wrap (k : ℕ) {j : ℕ} (hj : j < ttyRows) :
    k < 159 ∧ (cell (k + 1) j).wrap.back = cell k j ∨
      159 ≤ k ∧ j < 49 ∧ (cell (k + 1) j).wrap.back = cell 159 j ∨
        159 ≤ k ∧ j = 49 ∧ (cell (k + 1) j).wrap.back = cell 0 0 := by
  rcases Nat.lt_or_ge k 159 with hk | hk
  · left
    rw [cell_wrap (Nat.succ_lt_succ hk), cell_back_succ]
    exact ⟨hk, rfl⟩
  · right
    rw [cell_wrap_of_le (Nat.succ_le_succ hk) hj, rowBelow]
    rcases Nat.lt_or_ge j 49 with hrow | hrow
    · have hlt : j + 1 < ttyRows := Nat.succ_lt_succ hrow
      left
      rw [if_pos hlt, cell_back_up]
      exact ⟨hk, hrow, rfl⟩
    · have hle : ¬ j + 1 < ttyRows := not_lt.mpr (Nat.succ_le_succ hrow)
      right
      rw [if_neg hle, cell_back_home]
      exact ⟨hk, Nat.le_antisymm (Nat.le_of_lt_succ hj) hrow, rfl⟩

section

variable {i j : ℕ} (hi : i < ttyColumns) (hj : j < ttyRows)

include hi hj

theorem back_next_iff : (cell i j).next.back = cell i j ↔
    cell i j ≠ ⟨screenWidth - charW, screenHeight - charH⟩ := by
  change _ ↔ cell i j ≠ cell 159 49
  change i < 160 at hi
  rw [cell_next hi]
  rcases back_wrap i hj with ⟨hk, heq⟩ | ⟨hk, hrow, heq⟩ | ⟨hk, hrow, heq⟩ <;>
    rw [heq, Ne, cell_inj, cell_inj] <;> omega

theorem back_tab_iff : (cell i j).tab.back = cell i j ↔ (cell i j).cx / charW % 5 = 2 ∨
    (cell i j).cx = screenWidth - charW ∧ (cell i j).cy < screenHeight - charH := by
  have hcolumn : (cell i j).cx / charW = i := Nat.mul_div_cancel_left i (by decide)
  have hlast : (cell i j).cx = screenWidth - charW ↔ i = 159 := by
    simp only [cell, screenWidth, charW]
    omega
  have hrow : (cell i j).cy < screenHeight - charH ↔ j < 49 := by
    simp only [cell, screenHeight, charH]
    omega
  rw [cell_tab hi, hcolumn, hlast, hrow]
  clear hcolumn hlast hrow
  cases hwidth : tabWidth i with
  | zero =>
      -- the tab does not move the cursor, and the backspace does
      rw [tabWidth] at hwidth
      obtain ⟨i, rfl⟩ : ∃ i', i = i' + 1 := ⟨i - 1, by omega⟩
      rw [Nat.add_zero, cell_wrap hi, cell_back_succ, cell_inj]
      change i + 1 < 160 at hi
      omega
  | succ k =>
      rw [tabWidth] at hwidth
      change i < 160 at hi
      rcases back_wrap (i + k) hj with ⟨hk, heq⟩ | ⟨hk, hrow, heq⟩ | ⟨hk, hrow, heq⟩ <;>
        rw [← Nat.add_assoc, heq, cell_inj] <;> omega

end

theorem undoable_iff {p : Caret} (hp : p.OnGrid) {c : Byte} (hc : Printable c ∨ c = 9#8) :
    (p.putc c).back = p ↔ Undoable p c := by
  obtain ⟨i, hi, j, hj, rfl⟩ := hp
  rw [Undoable]
  rcases hc with hc | rfl
  · rw [if_neg hc.ne.2.2.1, hc.putc]
    exact back_next_iff hi hj
  · rw [if_pos rfl]
    exact back_tab_iff hi hj

/-- The log of a line in which every backspace has taken its character back. -/
inductive Laid (start : Caret) : List (Byte × Caret) → Caret → Prop
  | start : Laid start [] start
  | type {typed : List (Byte × Caret)} {p : Caret} (h : Laid start typed p) {c : Byte}
      (hc : Printable c ∨ c = 9#8) : Laid start ((c, p) :: typed) (p.putc c)

theorem Laid.caret_eq {start p : Caret} {typed : List (Byte × Caret)} (h : Laid start typed p) :
    p = (typed.map Prod.fst).reverse.foldl Caret.putc start := by
  induction h with
  | start => rfl
  | type _ _ ih =>
      rw [List.map_cons, List.reverse_cons, List.foldl_append, ← ih]
      rfl

theorem Laid.onGrid {start p : Caret} {typed : List (Byte × Caret)} (h : Laid start typed p)
    (hstart : start.OnGrid) : p.OnGrid := by
  induction h with
  | start => exact hstart
  | type _ _ ih => exact ih.putc _

theorem echo_concat (start : Caret) (keys : List Byte) (c : Byte) :
    echo start (keys ++ [c]) = (echo start keys).key c := by
  rw [echo, List.foldl_append]
  rfl

theorem ErasesUndoable.init {start : Caret} {keys : List Byte} {c : Byte}
    (h : ErasesUndoable start (keys ++ [c])) : ErasesUndoable start keys :=
  fun typed ht => h typed (ht.trans (List.prefix_append keys [c]))

section

variable {start : Caret} (hstart : start.OnGrid) {keys : List Byte}

include hstart

theorem laid_of_erasesUndoable (hplain : ∀ c ∈ keys, Printable c ∨ c = 9#8 ∨ c = 8#8)
    (h : ErasesUndoable start keys) :
    Laid start (echo start keys).typed (echo start keys).caret := by
  induction keys using List.reverseRecOn with
  | nil => exact Laid.start
  | append_singleton keys c ih =>
      have hlaid := ih (fun x hx => hplain x (List.mem_append_left _ hx)) h.init
      rw [echo_concat, Echo.key]
      by_cases hback : c = 8#8
      · rw [if_pos hback, Echo.back]
        subst hback
        have hlast := h keys List.prefix_rfl
        generalize echo start keys = e at hlaid hlast
        obtain ⟨caret, typed⟩ := e
        cases hlaid with
        | start => exact Laid.start
        | @type typed p hrest c hc =>
            have hcaret := (undoable_iff (hrest.onGrid hstart) hc).mpr (hlast _ _ _ rfl)
            change Laid start typed (p.putc c).back
            rw [hcaret]
            exact hrest
      · rw [if_neg hback]
        exact hlaid.type ((hplain c (by simp)).imp_right fun h8 => h8.resolve_right hback)

theorem erasesUndoable_of_inStep (hplain : ∀ c ∈ keys, Printable c ∨ c = 9#8 ∨ c = 8#8)
    (h : ∀ typed, typed <+: keys →
      (echo start typed).caret = (echo start typed).text.foldl Caret.putc start) :
    ErasesUndoable start keys := by
  induction keys using List.reverseRecOn with
  | nil =>
      intro typed ht
      exact absurd ht.length_le (by simp)
  | append_singleton keys c ih =>
      have hplain' : ∀ x ∈ keys, Printable x ∨ x = 9#8 ∨ x = 8#8 :=
        fun x hx => hplain x (List.mem_append_left _ hx)
      have hbefore := ih hplain' fun typed ht => h typed (ht.trans (List.prefix_append keys [c]))
      have hlaid := laid_of_erasesUndoable hstart hplain' hbefore
      intro typed ht x p rest heq
      rcases List.prefix_concat_iff.mp ht with hall | hinit
      · obtain ⟨rfl, hc⟩ := List.append_inj' hall rfl
        obtain rfl : 8#8 = c := List.singleton_inj.mp hc
        have hlast := h _ List.prefix_rfl
        rw [echo_concat, Echo.key, if_pos rfl, Echo.back, heq] at hlast
        rw [heq] at hlaid
        generalize (echo start typed).caret = caret at hlaid hlast
        cases hlaid with
        | type hrest hx =>
            apply (undoable_iff (hrest.onGrid hstart) hx).mp
            exact hlast.trans hrest.caret_eq.symm
      · exact hbefore typed hinit x p rest heq

end

theorem TtyReachable.onGrid {font : Font} {t : Tty} (h : TtyReachable font t) : t.caret.OnGrid := by
  induction h with
  | init m fb vbe => exact ttyInit_onGrid m fb vbe
  | putc _ c ih =>
      rw [ttyPutc_caret]
      exact ih.putc c
  | clear _ _ => exact onGrid_cell (i := 0) (j := 0) (by decide) (by decide)
  | store _ _ ih => exact ih

theorem AtPrompt.onGrid {font : Font} {t : Tty} (h : AtPrompt font t) : t.caret.OnGrid := by
  obtain ⟨t', ht', rfl⟩ := h
  rw [ttyPuts_caret]
  exact ht'.onGrid.foldl _

/-- The echo stays in step with the line exactly when every backspace erases a character that it can
take back where that was typed. -/
theorem echo_inStep_iff {font : Font} {t : Tty} {keys : List Byte} (hprompt : AtPrompt font t)
    (hkeys : EditKeys keys) (chars : ℕ) (m : Mem) :
    InStep font chars m t keys ↔ ErasesUndoable t.caret keys := by
  have hstart := hprompt.onGrid
  rw [inStep_iff hkeys]
  constructor
  · exact erasesUndoable_of_inStep hstart hkeys.plain
  · intro h typed ht
    apply Laid.caret_eq
    apply laid_of_erasesUndoable hstart fun c hc => hkeys.plain c (ht.subset hc)
    exact fun typed' ht' => h typed' (ht'.trans ht)

/-- The console with the first prompt, in the mode that the boot loader sets. -/
def demoPrompt : Tty := ttyPuts blockFont (ttyInit mode118 Fb.boot 0x7E00) [0x3E#8, 0x20#8]

theorem demoPrompt_atPrompt : AtPrompt blockFont demoPrompt := ⟨_, .init _ _ _, rfl⟩

theorem demoPrompt_caret : demoPrompt.caret = ⟨18, 0⟩ := by
  rw [demoPrompt, ttyPuts_caret]
  rfl

theorem editKeys_of_inits {keys : List Byte}
    (hplain : ∀ c ∈ keys, Printable c ∨ c = 9#8 ∨ c = 8#8)
    (hfits : ∀ typed ∈ keys.inits, (pending typed).line.length ≤ 126) : EditKeys keys where
  plain := hplain
  fits typed ht := hfits typed ((List.mem_inits _ _).mpr ht)

/-- `a`, `b` and a backspace. -/
theorem letters_inStep : InStep blockFont 0x40000 mode118 demoPrompt [0x61#8, 0x62#8, 8#8] := by
  apply (echo_inStep_iff demoPrompt_atPrompt (editKeys_of_inits (by decide) (by decide)) _ _).mpr
  intro typed ht c p rest heq
  change typed ++ [8#8] <+: [0x61#8, 0x62#8] ++ [8#8] at ht
  rcases List.prefix_concat_iff.mp ht with hall | hinit
  · obtain ⟨rfl, -⟩ := List.append_inj' hall rfl
    rw [demoPrompt_caret] at heq
    obtain ⟨⟨rfl, rfl⟩, -⟩ := List.cons.inj heq
    rw [Undoable, if_neg (by decide)]
    decide
  · exact absurd (hinit.subset (List.mem_append_right _ (List.mem_singleton_self 8#8))) (by decide)

/-- `a` and a tab, which goes two columns on, of which the backspace takes back one. -/
theorem tab_not_inStep :
    AtPrompt blockFont demoPrompt ∧ EditKeys [0x61#8, 9#8, 8#8] ∧
    (echo demoPrompt.caret [0x61#8]).caret = ⟨27, 0⟩ ∧
    (echo demoPrompt.caret [0x61#8, 9#8, 8#8]).caret = ⟨36, 0⟩ ∧
    ¬ InStep blockFont 0x40000 mode118 demoPrompt [0x61#8, 9#8, 8#8] := by
  have hkeys : EditKeys [0x61#8, 9#8, 8#8] := editKeys_of_inits (by decide) (by decide)
  have hbefore : (echo demoPrompt.caret [0x61#8]).caret = ⟨27, 0⟩ := by
    rw [demoPrompt_caret]
    rfl
  have hafter : (echo demoPrompt.caret [0x61#8, 9#8, 8#8]).caret = ⟨36, 0⟩ := by
    rw [demoPrompt_caret]
    rfl
  refine ⟨demoPrompt_atPrompt, hkeys, hbefore, hafter, fun h => ?_⟩
  have hlast := (inStep_iff hkeys).mp h _ List.prefix_rfl
  rw [demoPrompt_caret] at hlast
  revert hlast
  decide

end System44
