import System44.Fb

/-!
# The console

`tty_putc` draws characters in cells of 9 x 16 pixels and keeps the place of the next one in `cx`
and `cy`. The rows and columns are those of a screen of `SCREEN_WIDTH` x `SCREEN_HEIGHT` pixels,
whatever the size of the framebuffer. The font is a parameter: for a character it has its glyph, if
any.
-/

namespace System44

def charW : ℕ := 9
def charH : ℕ := 16
def screenWidth : ℕ := charW * 80 * 2
def screenHeight : ℕ := charH * 25 * 2
def bgc : BitVec 32 := 0#32

/-- `'#'` in row `y` and column `x` of a glyph. -/
abbrev Font := Byte → Option (ℕ → ℕ → Bool)

/-- The statics `cx` and `cy`. -/
structure Caret where
  cx : ℕ
  cy : ℕ
  deriving DecidableEq

structure Tty where
  mem : Mem
  fb : Fb
  caret : Caret

namespace Caret

/-- `cx = 0; cy += CHAR_H; if (cy >= SCREEN_HEIGHT) cy = 0`. -/
def newline (p : Caret) : Caret :=
  let cy := (p.cy + charH) % 2 ^ 16
  ⟨0, if screenHeight ≤ cy then 0 else cy⟩

def wrap (p : Caret) : Caret := if screenWidth ≤ p.cx then p.newline else p

/-- A backspace. -/
def back (p : Caret) : Caret :=
  if charW ≤ p.cx then ⟨p.cx - charW, p.cy⟩
  else if charH ≤ p.cy then ⟨screenWidth - charW, p.cy - charH⟩
  else p

def tab (p : Caret) : Caret := wrap ⟨(p.cx + (4 - p.cx % 5) * charW) % 2 ^ 16, p.cy⟩

/-- Behind a character that is drawn. -/
def next (p : Caret) : Caret := wrap ⟨(p.cx + charW) % 2 ^ 16, p.cy⟩

end Caret

def fbcputchar (font : Font) (fb : Fb) (m : Mem) (px py : ℕ) (c : Byte) (color : BitVec 32) : Mem :=
  match font c with
  | none => m
  | some rows =>
    forUp charH (fun y m =>
      forUp charW (fun x m =>
        if rows y x then fbPutpixel fb m (px + x) (py + y) color else m) m) m

/-- `fbcputchar` for the console, with its 16-bit coordinates. -/
def Tty.draw (font : Font) (t : Tty) (px py : ℕ) (c : Byte) (color : BitVec 32) : Tty :=
  { t with mem := fbcputchar font t.fb t.mem (px % 2 ^ 16) (py % 2 ^ 16) c color }

def ttyInit (m : Mem) (fb : Fb) (vbe : ℕ) : Tty :=
  let fb := fbInit m fb vbe
  ⟨fbFill fb m bgc, fb, ⟨0, 0⟩⟩

def ttyClear (t : Tty) : Tty := { t with mem := fbFill t.fb t.mem bgc, caret := ⟨0, 0⟩ }

def ttyPutc (font : Font) (t : Tty) (c : Byte) : Tty :=
  let colour := 0xFFFFFFFF#32
  let t := t.draw font t.caret.cx t.caret.cy 0x08#8 bgc
  let t := t.draw font (t.caret.cx + charW) t.caret.cy 0x5F#8 colour
  if c = 0x0A#8 then
    let t := t.draw font (t.caret.cx + charW) t.caret.cy 0x08#8 bgc
    { t with caret := t.caret.newline }
  else if c = 0x08#8 then
    let t := t.draw font (t.caret.cx + charW) t.caret.cy 0x08#8 bgc
    let t := { t with caret := t.caret.back }
    let t := t.draw font t.caret.cx t.caret.cy 0x20#8 bgc
    t.draw font t.caret.cx t.caret.cy 0x5F#8 colour
  else if c = 0x09#8 then
    let t := t.draw font (t.caret.cx + charW) t.caret.cy 0x20#8 bgc
    let t := { t with caret := t.caret.tab }
    t.draw font t.caret.cx t.caret.cy 0x5F#8 colour
  else if c = 0x0D#8 then { t with caret := ⟨0, t.caret.cy⟩ }
  else
    let colour := if c = 0x20#8 then bgc else colour
    let t := t.draw font t.caret.cx t.caret.cy c colour
    { t with caret := t.caret.next }

def ttyPuts (font : Font) (t : Tty) (cs : List Byte) : Tty := cs.foldl (ttyPutc font) t

/-- Where a character leaves the cursor. -/
def Caret.putc (p : Caret) (c : Byte) : Caret :=
  if c = 0x0A#8 then p.newline
  else if c = 0x08#8 then p.back
  else if c = 0x09#8 then p.tab
  else if c = 0x0D#8 then ⟨0, p.cy⟩
  else p.next

theorem ttyPutc_fb (font : Font) (t : Tty) (c : Byte) : (ttyPutc font t c).fb = t.fb := by
  rw [ttyPutc]
  repeat' split
  all_goals rfl

theorem ttyPutc_caret (font : Font) (t : Tty) (c : Byte) :
    (ttyPutc font t c).caret = t.caret.putc c := by
  rw [ttyPutc, Caret.putc]
  repeat' split
  all_goals rfl

theorem ttyPuts_fb (font : Font) (t : Tty) (cs : List Byte) : (ttyPuts font t cs).fb = t.fb := by
  induction cs generalizing t with
  | nil => rfl
  | cons c cs ih => exact (ih (ttyPutc font t c)).trans (ttyPutc_fb font t c)

theorem ttyPuts_caret (font : Font) (t : Tty) (cs : List Byte) :
    (ttyPuts font t cs).caret = cs.foldl Caret.putc t.caret := by
  induction cs generalizing t with
  | nil => rfl
  | cons c cs ih =>
      rw [List.foldl_cons, ← ttyPutc_caret font]
      exact ih (ttyPutc font t c)

def ttyColumns : ℕ := 160
def ttyRows : ℕ := 50

/-- The cursor in column `i` of row `j`. -/
def cell (i j : ℕ) : Caret := ⟨charW * i, charH * j⟩

def rowBelow (j : ℕ) : ℕ := if j + 1 < ttyRows then j + 1 else 0

def tabWidth (i : ℕ) : ℕ := 4 - 4 * i % 5

theorem rowBelow_lt (j : ℕ) : rowBelow j < ttyRows := by
  rw [rowBelow]
  split
  · assumption
  · decide

theorem column_lt_iff {i : ℕ} : charW * i < screenWidth ↔ i < ttyColumns := by
  simp only [screenWidth, charW, ttyColumns]
  omega

theorem row_lt_iff {j : ℕ} : charH * j < screenHeight ↔ j < ttyRows := by
  simp only [screenHeight, charH, ttyRows]
  omega

theorem cell_wrap {i : ℕ} (hi : i < ttyColumns) (j : ℕ) : (cell i j).wrap = cell i j :=
  if_neg (not_le.mpr (column_lt_iff.mpr hi))

theorem cell_newline {i j : ℕ} (hj : j < ttyRows) : (cell i j).newline = cell 0 (rowBelow j) := by
  have hcy : (charH * j + charH) % 2 ^ 16 = charH * (j + 1) := by
    simp only [charH, ttyRows] at *
    omega
  simp only [Caret.newline, cell, rowBelow, hcy, Caret.mk.injEq]
  refine ⟨rfl, ?_⟩
  by_cases hlast : j + 1 < ttyRows
  · rw [if_pos hlast, if_neg (not_le.mpr (row_lt_iff.mpr hlast))]
  · rw [if_neg hlast, if_pos (not_lt.mp fun hlt => hlast (row_lt_iff.mp hlt)), Nat.mul_zero]

theorem cell_wrap_of_le {i j : ℕ} (hi : ttyColumns ≤ i) (hj : j < ttyRows) :
    (cell i j).wrap = cell 0 (rowBelow j) := by
  rw [← cell_newline (i := i) hj]
  exact if_pos (not_lt.mp fun hlt => not_lt.mpr hi (column_lt_iff.mp hlt))

theorem cell_next {i : ℕ} (hi : i < ttyColumns) (j : ℕ) :
    (cell i j).next = (cell (i + 1) j).wrap := by
  have hcx : (charW * i + charW) % 2 ^ 16 = charW * (i + 1) := by
    simp only [charW, ttyColumns] at *
    omega
  simp only [Caret.next, cell, hcx]

theorem cell_tab {i : ℕ} (hi : i < ttyColumns) (j : ℕ) :
    (cell i j).tab = (cell (i + tabWidth i) j).wrap := by
  have hmod : charW * i % 5 = 4 * i % 5 := by
    rw [charW]
    omega
  have hcx : (charW * i + (4 - charW * i % 5) * charW) % 2 ^ 16 = charW * (i + tabWidth i) := by
    rw [hmod, tabWidth]
    simp only [charW, ttyColumns] at *
    omega
  simp only [Caret.tab, cell, hcx]

theorem cell_back_succ (i j : ℕ) : (cell (i + 1) j).back = cell i j := by
  have hle : charW ≤ (cell (i + 1) j).cx := Nat.le_mul_of_pos_right _ i.succ_pos
  rw [Caret.back, if_pos hle]
  exact congrArg (Caret.mk · _) (Nat.add_sub_cancel (n := charW * i) (m := charW))

theorem cell_back_up (j : ℕ) : (cell 0 (j + 1)).back = cell (ttyColumns - 1) j := by
  have hle : charH ≤ (cell 0 (j + 1)).cy := Nat.le_mul_of_pos_right _ j.succ_pos
  have hlt : ¬ charW ≤ (cell 0 (j + 1)).cx := Nat.not_succ_le_zero 8
  rw [Caret.back, if_neg hlt, if_pos hle]
  exact congrArg (Caret.mk _) (Nat.add_sub_cancel (n := charH * j) (m := charH))

theorem cell_back_home : (cell 0 0).back = cell 0 0 := rfl

/-- The cursor is in a cell of the console's screen. -/
def Caret.OnGrid (p : Caret) : Prop := ∃ i < ttyColumns, ∃ j < ttyRows, p = cell i j

theorem onGrid_cell {i j : ℕ} (hi : i < ttyColumns) (hj : j < ttyRows) : (cell i j).OnGrid :=
  ⟨i, hi, j, hj, rfl⟩

theorem onGrid_wrap {j : ℕ} (i : ℕ) (hj : j < ttyRows) : (cell i j).wrap.OnGrid := by
  by_cases hi : i < ttyColumns
  · rw [cell_wrap hi]
    exact onGrid_cell hi hj
  · rw [cell_wrap_of_le (Nat.le_of_not_lt hi) hj]
    exact onGrid_cell (by decide) (rowBelow_lt j)

theorem onGrid_back {i j : ℕ} (hi : i < ttyColumns) (hj : j < ttyRows) :
    (cell i j).back.OnGrid := by
  cases i with
  | succ i =>
      rw [cell_back_succ]
      exact onGrid_cell (Nat.lt_of_succ_lt hi) hj
  | zero =>
      cases j with
      | succ j =>
          rw [cell_back_up]
          exact onGrid_cell (by decide) (Nat.lt_of_succ_lt hj)
      | zero => exact onGrid_cell hi hj

theorem Caret.OnGrid.putc {p : Caret} (h : p.OnGrid) (c : Byte) : (p.putc c).OnGrid := by
  obtain ⟨i, hi, j, hj, rfl⟩ := h
  rw [Caret.putc]
  repeat' split
  · rw [cell_newline hj]
    exact onGrid_cell (by decide) (rowBelow_lt j)
  · exact onGrid_back hi hj
  · rw [cell_tab hi]
    exact onGrid_wrap _ hj
  · exact onGrid_cell (i := 0) (by decide) hj
  · rw [cell_next hi]
    exact onGrid_wrap _ hj

theorem Caret.OnGrid.foldl {p : Caret} (h : p.OnGrid) (cs : List Byte) :
    (cs.foldl Caret.putc p).OnGrid := by
  induction cs generalizing p with
  | nil => exact h
  | cons c cs ih => exact ih (h.putc c)

theorem ttyInit_onGrid (m : Mem) (fb : Fb) (vbe : ℕ) : (ttyInit m fb vbe).caret.OnGrid :=
  onGrid_cell (i := 0) (j := 0) (by decide) (by decide)

theorem ttyClear_onGrid (t : Tty) : (ttyClear t).caret.OnGrid :=
  onGrid_cell (i := 0) (j := 0) (by decide) (by decide)

/-- The pixels of the cursor are those of a cell. -/
structure OnScreen (p : Caret) : Prop where
  column : p.cx % charW = 0
  left : p.cx < screenWidth
  row : p.cy % charH = 0
  top : p.cy < screenHeight

theorem Caret.OnGrid.onScreen {p : Caret} (h : p.OnGrid) : OnScreen p := by
  obtain ⟨i, hi, j, hj, rfl⟩ := h
  exact ⟨Nat.mul_mod_right charW i, column_lt_iff.mpr hi, Nat.mul_mod_right charH j,
    row_lt_iff.mpr hj⟩

/-- The same assignments where `cx` and `cy` are integers, which never wrap around. -/
structure WideCaret where
  cx : ℤ
  cy : ℤ

namespace WideCaret

def newline (p : WideCaret) : WideCaret :=
  let cy := p.cy + charH
  ⟨0, if screenHeight ≤ cy then 0 else cy⟩

def wrap (p : WideCaret) : WideCaret := if screenWidth ≤ p.cx then p.newline else p

def back (p : WideCaret) : WideCaret :=
  if charW ≤ p.cx then ⟨p.cx - charW, p.cy⟩
  else if charH ≤ p.cy then ⟨screenWidth - charW, p.cy - charH⟩
  else p

def tab (p : WideCaret) : WideCaret := wrap ⟨p.cx + (4 - p.cx % 5) * charW, p.cy⟩

def next (p : WideCaret) : WideCaret := wrap ⟨p.cx + charW, p.cy⟩

def putc (p : WideCaret) (c : Byte) : WideCaret :=
  if c = 0x0A#8 then p.newline
  else if c = 0x08#8 then p.back
  else if c = 0x09#8 then p.tab
  else if c = 0x0D#8 then ⟨0, p.cy⟩
  else p.next

end WideCaret

namespace Caret

def wide (p : Caret) : WideCaret := ⟨p.cx, p.cy⟩

variable {p : Caret}

theorem wide_newline (hy : p.cy < screenHeight) : p.newline.wide = p.wide.newline := by
  have hmod : (p.cy + charH) % 2 ^ 16 = p.cy + charH := Nat.mod_eq_of_lt (by
    simp only [screenHeight, charH] at *
    omega)
  simp only [newline, wide, WideCaret.newline, hmod]
  norm_cast

theorem le_wide_cx {n : ℕ} : (n : ℤ) ≤ p.wide.cx ↔ n ≤ p.cx := Int.ofNat_le

theorem le_wide_cy {n : ℕ} : (n : ℤ) ≤ p.wide.cy ↔ n ≤ p.cy := Int.ofNat_le

theorem wide_wrap (hy : p.cy < screenHeight) : p.wrap.wide = p.wide.wrap := by
  rw [wrap, WideCaret.wrap]
  by_cases hx : screenWidth ≤ p.cx
  · rw [if_pos hx, if_pos (le_wide_cx.mpr hx), wide_newline hy]
  · rw [if_neg hx, if_neg fun h => hx (le_wide_cx.mp h)]

theorem wide_back (p : Caret) : p.back.wide = p.wide.back := by
  rw [back, WideCaret.back]
  by_cases hx : charW ≤ p.cx
  · rw [if_pos hx, if_pos (le_wide_cx.mpr hx), wide, wide, Nat.cast_sub hx]
  · rw [if_neg hx, if_neg fun h => hx (le_wide_cx.mp h)]
    by_cases hy : charH ≤ p.cy
    · rw [if_pos hy, if_pos (le_wide_cy.mpr hy), wide, wide, Nat.cast_sub hy]
      rfl
    · rw [if_neg hy, if_neg fun h => hy (le_wide_cy.mp h)]

theorem wide_tab (hx : p.cx < screenWidth) (hy : p.cy < screenHeight) :
    p.tab.wide = p.wide.tab := by
  have hmod : (p.cx + (4 - p.cx % 5) * charW) % 2 ^ 16 = p.cx + (4 - p.cx % 5) * charW :=
    Nat.mod_eq_of_lt (by
      simp only [screenWidth, charW] at *
      omega)
  have hcx : ((p.cx + (4 - p.cx % 5) * charW : ℕ) : ℤ) = p.cx + (4 - (p.cx : ℤ) % 5) * charW := by
    simp only [charW]
    omega
  have hwrap := wide_wrap (p := ⟨p.cx + (4 - p.cx % 5) * charW, p.cy⟩) hy
  rw [tab, hmod, hwrap, wide, hcx]
  rfl

theorem wide_next (hx : p.cx < screenWidth) (hy : p.cy < screenHeight) :
    p.next.wide = p.wide.next := by
  have hmod : (p.cx + charW) % 2 ^ 16 = p.cx + charW := Nat.mod_eq_of_lt (by
    simp only [screenWidth, charW] at *
    omega)
  have hwrap := wide_wrap (p := ⟨p.cx + charW, p.cy⟩) hy
  rw [next, hmod, hwrap]
  rfl

theorem wide_putc (h : OnScreen p) (c : Byte) : (p.putc c).wide = p.wide.putc c := by
  rw [putc, WideCaret.putc]
  repeat' split
  · exact wide_newline h.top
  · exact wide_back p
  · exact wide_tab h.left h.top
  · rfl
  · exact wide_next h.left h.top

theorem OnGrid.wide_foldl (h : p.OnGrid) (cs : List Byte) :
    (cs.foldl Caret.putc p).wide = cs.foldl WideCaret.putc p.wide := by
  induction cs generalizing p with
  | nil => rfl
  | cons c cs ih =>
      rw [List.foldl_cons, List.foldl_cons, ih (h.putc c), wide_putc h.onScreen]

end Caret

/-- After any characters since the console was set up or cleared, the cursor is in a cell of the
screen, where it would also be if nothing ever wrapped around. -/
theorem ttyPuts_onScreen (font : Font) (m : Mem) (fb : Fb) (vbe : ℕ) (t : Tty) (cs : List Byte) :
    (OnScreen (ttyPuts font (ttyInit m fb vbe) cs).caret ∧
      (ttyPuts font (ttyInit m fb vbe) cs).caret.wide = cs.foldl WideCaret.putc ⟨0, 0⟩) ∧
    OnScreen (ttyPuts font (ttyClear t) cs).caret ∧
      (ttyPuts font (ttyClear t) cs).caret.wide = cs.foldl WideCaret.putc ⟨0, 0⟩ := by
  have hinit : (ttyInit m fb vbe).caret.OnGrid := ttyInit_onGrid m fb vbe
  have hclear : (ttyClear t).caret.OnGrid := ttyClear_onGrid t
  simp only [ttyPuts_caret]
  exact ⟨⟨(hinit.foldl cs).onScreen, hinit.wide_foldl cs⟩,
    (hclear.foldl cs).onScreen, hclear.wide_foldl cs⟩

/-- The characters from the space to the tilde. -/
def Printable (c : Byte) : Prop := 0x20#8 ≤ c ∧ c ≤ 0x7E#8

instance (c : Byte) : Decidable (Printable c) := inferInstanceAs (Decidable (_ ∧ _))

/-- What `fb_putpixel` asks before it stores a pixel. -/
def Fb.Clips (fb : Fb) (x y : ℕ) : Prop := fb.width.toNat ≤ x ∨ fb.height.toNat ≤ y

theorem fbPutpixel_clipped {fb : Fb} {x y : ℕ} (h : fb.Clips x y) (m : Mem) (c : BitVec 32) :
    fbPutpixel fb m x y c = m := by
  rw [fbPutpixel]
  split
  · rfl
  · exact if_pos h

/-- The cell at the cursor lies inside the framebuffer, and none of its pixels is clipped. -/
structure InsideFb (fb : Fb) (p : Caret) : Prop where
  right : p.cx + charW ≤ fb.width.toNat
  bottom : p.cy + charH ≤ fb.height.toNat
  pixels : ∀ x < charW, ∀ y < charH, ¬ fb.Clips (p.cx + x) (p.cy + y)

/-- Each printable character finds its cell inside the framebuffer. -/
def NothingFallsOff (font : Font) (t : Tty) (cs : List Byte) : Prop :=
  ∀ printed c, printed ++ [c] <+: cs → Printable c →
    InsideFb (ttyPuts font t printed).fb (ttyPuts font t printed).caret

theorem Printable.ne {c : Byte} (h : Printable c) :
    c ≠ 0x0A#8 ∧ c ≠ 0x08#8 ∧ c ≠ 0x09#8 ∧ c ≠ 0x0D#8 := by
  revert h
  revert c
  decide

theorem Printable.putc {c : Byte} (h : Printable c) (p : Caret) : p.putc c = p.next := by
  obtain ⟨h1, h2, h3, h4⟩ := h.ne
  rw [Caret.putc, if_neg h1, if_neg h2, if_neg h3, if_neg h4]

theorem insideFb_iff {fb : Fb} {p : Caret} :
    InsideFb fb p ↔ p.cx + charW ≤ fb.width.toNat ∧ p.cy + charH ≤ fb.height.toNat := by
  constructor
  · intro h
    exact ⟨h.right, h.bottom⟩
  · intro h
    refine ⟨h.1, h.2, fun x hx y hy hclips => ?_⟩
    rw [Fb.Clips] at hclips
    omega

theorem letters_foldl {c : Byte} (hc : Printable c) {n : ℕ} (hn : n < ttyColumns) (j : ℕ) :
    (List.replicate n c).foldl Caret.putc (cell 0 j) = cell n j := by
  induction n with
  | zero => rfl
  | succ n ih =>
      have hlt := Nat.lt_of_succ_lt hn
      rw [List.replicate_succ', List.foldl_append, List.foldl_cons, List.foldl_nil, ih hlt,
        hc.putc, cell_next hlt, cell_wrap hn]

theorem newlines_foldl {n : ℕ} (hn : n < ttyRows) :
    (List.replicate n 0x0A#8).foldl Caret.putc (cell 0 0) = cell 0 n := by
  induction n with
  | zero => rfl
  | succ n ih =>
      have hlt := Nat.lt_of_succ_lt hn
      rw [List.replicate_succ', List.foldl_append, List.foldl_cons, List.foldl_nil, ih hlt]
      change (cell 0 n).newline = _
      rw [cell_newline hlt, rowBelow, if_pos hn]

section

variable {font : Font} {m : Mem} {fb : Fb} {vbe : ℕ}

theorem NothingFallsOff.insideFb {printed : List Byte} {p : Caret}
    (h : NothingFallsOff font (ttyInit m fb vbe) (printed ++ [0x61#8]))
    (hp : printed.foldl Caret.putc (cell 0 0) = p) : InsideFb (fbInit m fb vbe) p := by
  have hlast := h printed 0x61#8 List.prefix_rfl (by decide)
  rw [ttyPuts_fb, ttyPuts_caret] at hlast
  exact hp ▸ hlast

end

/-- No printed character ever falls off the screen exactly when the framebuffer is at least as large
as the screen that the console takes for granted. -/
theorem tty_nothingFallsOff_iff (font : Font) (m : Mem) (fb : Fb) (vbe : ℕ) :
    (∀ cs, NothingFallsOff font (ttyInit m fb vbe) cs) ↔
      screenWidth ≤ (fbInit m fb vbe).width.toNat ∧
        screenHeight ≤ (fbInit m fb vbe).height.toNat := by
  constructor
  · intro h
    have hletters := letters_foldl (c := 0x61#8) (n := 159) (by decide) (by decide) 0
    have hlines := newlines_foldl (n := 49) (by decide)
    exact ⟨((h _).insideFb hletters).right, ((h _).insideFb hlines).bottom⟩
  · rintro ⟨hw, hh⟩ cs printed c - -
    rw [ttyPuts_fb, ttyPuts_caret]
    obtain ⟨i, hi, j, hj, heq⟩ := (ttyInit_onGrid m fb vbe).foldl printed
    rw [heq, insideFb_iff]
    simp only [screenWidth, screenHeight, ttyColumns, ttyRows, charW, charH, cell] at *
    exact ⟨le_trans (by omega) hw, le_trans (by omega) hh⟩

/-- What the boot loader has at 0x7E00 of mode 0x118, 1024 x 768 pixels of 24 bits. -/
def mode118 : Mem :=
  ((((Mem.mk (fun _ => 0#8) []).store16 (0x7E00 + 0x10) 3072).store16 (0x7E00 + 0x12) 1024).store16
    (0x7E00 + 0x14) 768).set (0x7E00 + 0x19) 24#8 |>.store32 (0x7E00 + 0x28) 0xFD000000#32

/-- Every glyph fills its cell. -/
def blockFont : Font := fun _ => some fun _ _ => true

/-- In the mode that the kernel boots in, the 114th letter of a line is cut off at the right. -/
theorem mode118_fallsOff :
    (fbInit mode118 Fb.boot 0x7E00).width = 1024#32 ∧
    (fbInit mode118 Fb.boot 0x7E00).height = 768#32 ∧
    ¬ NothingFallsOff blockFont (ttyInit mode118 Fb.boot 0x7E00)
      (List.replicate 113 0x61#8 ++ [0x61#8]) := by
  refine ⟨by decide, by decide, fun h => ?_⟩
  have hright := (h.insideFb (letters_foldl (by decide) (by decide) 0)).right
  revert hright
  decide

end System44
