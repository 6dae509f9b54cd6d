import System44.FbPicture
import System44.TtyFont

/-!
# The screen of the console

For its reader the console is a screen of cells with a cursor. A cell holds the characters that were
drawn over each other since it was last wiped. What `tty_putc` does to the pixels is what one step
of this screen does to its cells, whatever is printed and however large the framebuffer is.
-/

namespace System44

/-- The cells by column and row, and the place of the cursor. -/
structure Screen where
  cells : ℕ → ℕ → List Byte
  col : ℕ
  row : ℕ

namespace Screen

def blank : Screen := ⟨fun _ _ => [], 0, 0⟩

def update (s : Screen) (i j : ℕ) (content : List Byte) : Screen :=
  { s with cells := fun i' j' => if i' = i ∧ j' = j then content else s.cells i' j' }

def wipe (s : Screen) (i j : ℕ) : Screen := s.update i j []

/-- A character is drawn over what is there. -/
def draw (s : Screen) (i j : ℕ) (c : Byte) : Screen := s.update i j (c :: s.cells i j)

def toColumn (s : Screen) (i : ℕ) : Screen :=
  if i < ttyColumns then { s with col := i } else { s with col := 0, row := rowBelow s.row }

def back (s : Screen) : Screen :=
  if 0 < s.col then { s with col := s.col - 1 }
  else if 0 < s.row then { s with col := ttyColumns - 1, row := s.row - 1 }
  else s

def underscore : Byte := 0x5F#8

def putc (s : Screen) (c : Byte) : Screen :=
  let s := s.wipe s.col s.row
  if c = 0x0A#8 then { s.wipe (s.col + 1) s.row with col := 0, row := rowBelow s.row }
  else if c = 0x08#8 then
    let s := (s.wipe (s.col + 1) s.row).back
    (s.wipe s.col s.row).draw s.col s.row underscore
  else if c = 0x09#8 then
    let s := (s.wipe (s.col + 1) s.row).toColumn (s.col + tabWidth s.col)
    s.draw s.col s.row underscore
  else if c = 0x0D#8 then { s.draw (s.col + 1) s.row underscore with col := 0 }
  else
    let s := s.draw (s.col + 1) s.row underscore
    let s := if c = 0x20#8 then s else s.draw s.col s.row c
    s.toColumn (s.col + 1)

def white : BitVec 32 := 0xFFFFFFFF#32

def picture (s : Screen) : Picture := fun x y =>
  if (s.cells (x / charW) (y / charH)).any fun c => ink c (y % charH) (x % charW) then white
  else bgc

/-- The cursor is on the screen. -/
def OnGrid (s : Screen) : Prop := s.col < ttyColumns ∧ s.row < ttyRows

end Screen

/-- The console shows the screen in that region and continues at its cursor. -/
structure Tty.Shows (t : Tty) (D : Region) (s : Screen) : Prop where
  onGrid : s.OnGrid
  caret : t.caret = cell s.col s.row
  picture : t.fb.Shows D t.mem s.picture

/-- What is sent to the console: a call of `tty_putc` or of `tty_clear`. -/
inductive Shown where
  | char (c : Byte)
  | clear
  deriving DecidableEq

def shown (bs : List Byte) : List Shown := bs.map Shown.char

def Tty.show (font : Font) (t : Tty) : Shown → Tty
  | .char c => ttyPutc font t c
  | .clear => ttyClear t

def Screen.show (s : Screen) : Shown → Screen
  | .char c => s.putc c
  | .clear => blank

theorem foldl_shown (font : Font) (t : Tty) (bs : List Byte) :
    (shown bs).foldl (Tty.show font) t = ttyPuts font t bs := List.foldl_map

theorem foldl_show_shown (s : Screen) (bs : List Byte) :
    (shown bs).foldl Screen.show s = bs.foldl Screen.putc s := List.foldl_map

section

variable {s : Screen} {i j : ℕ}

theorem div_eq_iff_of_pos {n x i : ℕ} (hn : 0 < n) : x / n = i ↔ n * i ≤ x ∧ x < n * i + n := by
  rw [Nat.div_eq_iff hn]
  constructor
  · rintro ⟨hlo, hhi⟩
    rw [Nat.mul_comm] at hlo hhi
    omega
  · rintro ⟨hlo, hhi⟩
    rw [Nat.mul_comm i]
    omega

theorem Screen.picture_draw (s : Screen) (i j : ℕ) (c : Byte) : (s.draw i j c).picture =
    s.picture.stamp charW charH (ink c) (charW * i) (charH * j) Screen.white := by
  funext x y
  have hx := div_eq_iff_of_pos (n := charW) (x := x) (i := i) (by decide)
  have hy := div_eq_iff_of_pos (n := charH) (x := y) (i := j) (by decide)
  by_cases hcell : x / charW = i ∧ y / charH = j
  · have hcol : x - charW * i = x % charW := by
      rw [← hcell.1, Nat.sub_eq_iff_eq_add (Nat.mul_div_le x charW), Nat.add_comm,
        Nat.div_add_mod]
    have hrow : y - charH * j = y % charH := by
      rw [← hcell.2, Nat.sub_eq_iff_eq_add (Nat.mul_div_le y charH), Nat.add_comm,
        Nat.div_add_mod]
    obtain ⟨hxlo, hxhi⟩ := hx.mp hcell.1
    obtain ⟨hylo, hyhi⟩ := hy.mp hcell.2
    by_cases hink : ink c (y % charH) (x % charW) = true
    · simp [Screen.picture, Screen.draw, Screen.update, Picture.stamp, hcell, hcol, hrow, hink,
        hxlo, hxhi, hylo, hyhi]
    · simp [Screen.picture, Screen.draw, Screen.update, Picture.stamp, hcell, hcol, hrow, hink]
  · have hout : ¬ (charW * i ≤ x ∧ x < charW * i + charW ∧ charH * j ≤ y ∧ y < charH * j + charH ∧
        ink c (y - charH * j) (x - charW * i) = true) := by
      rintro ⟨hxlo, hxhi, hylo, hyhi, -⟩
      exact hcell ⟨hx.mpr ⟨hxlo, hxhi⟩, hy.mpr ⟨hylo, hyhi⟩⟩
    simp only [Screen.picture, Screen.draw, Screen.update, Picture.stamp, if_neg hcell, if_neg hout]

theorem Screen.picture_wipe (s : Screen) (i j : ℕ) {rows : ℕ → ℕ → Bool}
    (hfull : ∀ y < charH, ∀ x < charW, rows y x = true) : (s.wipe i j).picture =
      s.picture.stamp charW charH rows (charW * i) (charH * j) bgc := by
  funext x y
  have hx := div_eq_iff_of_pos (n := charW) (x := x) (i := i) (by decide)
  have hy := div_eq_iff_of_pos (n := charH) (x := y) (i := j) (by decide)
  by_cases hcell : x / charW = i ∧ y / charH = j
  · obtain ⟨hxlo, hxhi⟩ := hx.mp hcell.1
    obtain ⟨hylo, hyhi⟩ := hy.mp hcell.2
    have hrow := hfull (y - charH * j) (by omega) (x - charW * i) (by omega)
    simp [Screen.picture, Screen.wipe, Screen.update, Picture.stamp, hcell, hrow, hxlo, hxhi, hylo,
      hyhi]
  · have hout : ¬ (charW * i ≤ x ∧ x < charW * i + charW ∧ charH * j ≤ y ∧ y < charH * j + charH ∧
        rows (y - charH * j) (x - charW * i) = true) := by
      rintro ⟨hxlo, hxhi, hylo, hyhi, -⟩
      exact hcell ⟨hx.mpr ⟨hxlo, hxhi⟩, hy.mpr ⟨hylo, hyhi⟩⟩
    simp only [Screen.picture, Screen.wipe, Screen.update, Picture.stamp, if_neg hcell, if_neg hout]

theorem Picture.stamp_none (p : Picture) (w h px py : ℕ) (c : BitVec 32) :
    p.stamp w h (fun _ _ => false) px py c = p := by
  funext x y
  simp [Picture.stamp]

variable {D : Region} {fb : Fb} {m : Mem} (hflat : fb.Flat)

include hflat

theorem shows_ink {p : Picture} (hs : fb.Shows D m p) (px py : ℕ) (c : Byte) (color : BitVec 32) :
    fb.Shows D (fbcputchar fontGet fb m px py c color)
      (p.stamp charW charH (ink c) px py color) := by
  cases hglyph : fontGet c with
  | none =>
      have hink : ink c = fun _ _ => false := by
        funext y x
        rw [ink, hglyph]
      rw [hink, Picture.stamp_none]
      simpa [fbcputchar, hglyph] using hs
  | some rows =>
      have hink : ink c = rows := by
        funext y x
        rw [ink, hglyph]
      rw [hink]
      exact hflat.shows_putchar fontGet px py c color hs hglyph

variable (hs : fb.Shows D m s.picture) (hi : i ≤ ttyColumns) (hj : j < ttyRows)

include hs hi hj

theorem shows_stamp (c : Byte) (color : BitVec 32) :
    fb.Shows D (fbcputchar fontGet fb m (charW * i % 2 ^ 16) (charH * j % 2 ^ 16) c color)
      (s.picture.stamp charW charH (ink c) (charW * i) (charH * j) color) := by
  have hx : charW * i % 2 ^ 16 = charW * i := Nat.mod_eq_of_lt (by
    simp only [charW, ttyColumns] at *
    omega)
  have hy : charH * j % 2 ^ 16 = charH * j := Nat.mod_eq_of_lt (by
    simp only [charH, ttyRows] at *
    omega)
  rw [hx, hy]
  exact shows_ink hflat hs _ _ c color

theorem shows_draw (c : Byte) :
    fb.Shows D (fbcputchar fontGet fb m (charW * i % 2 ^ 16) (charH * j % 2 ^ 16) c Screen.white)
      (s.draw i j c).picture := by
  rw [Screen.picture_draw]
  exact shows_stamp hflat hs hi hj c _

theorem shows_wipe {c : Byte} (hc : c = 0x20#8 ∨ c = 0x08#8) :
    fb.Shows D (fbcputchar fontGet fb m (charW * i % 2 ^ 16) (charH * j % 2 ^ 16) c bgc)
      (s.wipe i j).picture := by
  rw [Screen.picture_wipe s i j (ink_block hc)]
  exact shows_stamp hflat hs hi hj c _

end

section

variable {D : Region} {s : Screen}

theorem toColumn_caret (h : s.OnGrid) (i : ℕ) : (s.toColumn i).OnGrid ∧
    (cell i s.row).wrap = cell (s.toColumn i).col (s.toColumn i).row := by
  unfold Screen.toColumn
  by_cases hi : i < ttyColumns
  · rw [if_pos hi, cell_wrap hi]
    exact ⟨⟨hi, h.2⟩, rfl⟩
  · rw [if_neg hi, cell_wrap_of_le (not_lt.mp hi) h.2]
    exact ⟨⟨Nat.zero_lt_succ 159, rowBelow_lt s.row⟩, rfl⟩

theorem back_caret (h : s.OnGrid) : s.back.OnGrid ∧
    (cell s.col s.row).back = cell s.back.col s.back.row := by
  obtain ⟨cells, col, row⟩ := s
  obtain ⟨hcol, hrow⟩ := h
  cases col with
  | succ col => exact ⟨⟨Nat.lt_of_succ_lt hcol, hrow⟩, cell_back_succ col row⟩
  | zero =>
      cases row with
      | succ row => exact ⟨⟨Nat.lt_succ_self 159, Nat.lt_of_succ_lt hrow⟩, cell_back_up row⟩
      | zero => exact ⟨⟨hcol, hrow⟩, cell_back_home⟩

theorem putc_caret (h : s.OnGrid) (c : Byte) : (s.putc c).OnGrid ∧
    (cell s.col s.row).putc c = cell (s.putc c).col (s.putc c).row := by
  rw [Caret.putc, Screen.putc]
  dsimp only
  split
  · exact ⟨⟨Nat.zero_lt_succ 159, rowBelow_lt s.row⟩, cell_newline h.2⟩
  · split
    · exact back_caret (s := (s.wipe s.col s.row).wipe (s.col + 1) s.row) h
    · split
      · rw [cell_tab h.1]
        exact toColumn_caret (s := (s.wipe s.col s.row).wipe (s.col + 1) s.row) h _
      · split
        · exact ⟨⟨Nat.zero_lt_succ 159, h.2⟩, rfl⟩
        · rw [cell_next h.1]
          split
          · exact toColumn_caret (s := (s.wipe s.col s.row).draw (s.col + 1) s.row _) h _
          · exact toColumn_caret
              (s := ((s.wipe s.col s.row).draw (s.col + 1) s.row _).draw s.col s.row c) h _

theorem picture_toColumn (s : Screen) (i : ℕ) : (s.toColumn i).picture = s.picture := by
  unfold Screen.toColumn
  split <;> rfl

theorem picture_back (s : Screen) : s.back.picture = s.picture := by
  unfold Screen.back
  split_ifs <;> rfl

theorem wipe_draw (s : Screen) (i j : ℕ) (c : Byte) : (s.draw i j c).wipe i j = s.wipe i j := by
  simp only [Screen.wipe, Screen.draw, Screen.update, Screen.mk.injEq, and_true]
  funext i' j'
  split <;> rfl

theorem wipe_draw_right (s : Screen) (i j : ℕ) (c : Byte) :
    ((s.wipe i j).draw (i + 1) j c).wipe i j = (s.wipe i j).draw (i + 1) j c := by
  simp only [Screen.wipe, Screen.draw, Screen.update, Screen.mk.injEq, and_true]
  funext i' j'
  by_cases hcell : i' = i ∧ j' = j
  · simp [hcell]
  · rw [if_neg hcell]

/-- What a character does to the pixels. -/
theorem shows_putc {t : Tty} (hflat : t.fb.Flat) (h : t.Shows D s) (c : Byte) :
    t.fb.Shows D (ttyPutc fontGet t c).mem (s.putc c).picture := by
  obtain ⟨m, fb, caret⟩ := t
  obtain ⟨⟨hcol, hrow⟩, rfl, hshows⟩ := h
  have hright : s.col + 1 ≤ ttyColumns := hcol
  have hwiped := shows_wipe hflat hshows hcol.le hrow (c := 0x08#8) (Or.inr rfl)
  have hmarked := shows_draw hflat hwiped hright hrow Screen.underscore
  have hcleared := shows_wipe hflat hmarked hright hrow (c := 0x08#8) (Or.inr rfl)
  rw [wipe_draw] at hcleared
  rw [ttyPutc, Screen.putc]
  dsimp only
  by_cases hnewline : c = 0x0A#8
  · rw [if_pos hnewline, if_pos hnewline]
    exact hcleared
  · rw [if_neg hnewline, if_neg hnewline]
    by_cases hback : c = 0x08#8
    · rw [if_pos hback, if_pos hback]
      set s₁ := (s.wipe s.col s.row).wipe (s.col + 1) s.row with hs₁
      obtain ⟨⟨hcol₁, hrow₁⟩, hcaret⟩ := back_caret (s := s₁) ⟨hcol, hrow⟩
      have hmoved : (cell s.col s.row).back = cell s₁.back.col s₁.back.row := hcaret
      rw [← picture_back] at hcleared
      have hagain := shows_wipe hflat hcleared hcol₁.le hrow₁ (c := 0x20#8) (Or.inl rfl)
      have hshown := shows_draw hflat hagain hcol₁.le hrow₁ Screen.underscore
      simp only [Tty.draw, hmoved]
      exact hshown
    · rw [if_neg hback, if_neg hback]
      by_cases htab : c = 0x09#8
      · rw [if_pos htab, if_pos htab]
        have hblank := shows_wipe hflat hmarked hright hrow (c := 0x20#8) (Or.inl rfl)
        rw [wipe_draw] at hblank
        set s₁ := (s.wipe s.col s.row).wipe (s.col + 1) s.row with hs₁
        obtain ⟨⟨hcol₁, hrow₁⟩, hcaret⟩ :=
          toColumn_caret (s := s₁) ⟨hcol, hrow⟩ (s.col + tabWidth s.col)
        have hmoved : (cell s.col s.row).tab =
            cell (s₁.toColumn (s.col + tabWidth s.col)).col
              (s₁.toColumn (s.col + tabWidth s.col)).row := by
          rw [cell_tab hcol]
          exact hcaret
        rw [← picture_toColumn _ (s.col + tabWidth s.col)] at hblank
        have hshown := shows_draw hflat hblank hcol₁.le hrow₁ Screen.underscore
        simp only [Tty.draw, hmoved]
        exact hshown
      · rw [if_neg htab, if_neg htab]
        by_cases hreturn : c = 0x0D#8
        · rw [if_pos hreturn, if_pos hreturn]
          exact hmarked
        · rw [if_neg hreturn, if_neg hreturn, picture_toColumn]
          by_cases hspace : c = 0x20#8
          · subst hspace
            have hblank := shows_wipe hflat hmarked hcol.le hrow (c := 0x20#8) (Or.inl rfl)
            rw [wipe_draw_right] at hblank
            exact hblank
          · rw [if_neg hspace, if_neg hspace]
            exact shows_draw hflat hmarked hcol.le hrow c

theorem Tty.Shows.putc {t : Tty} (hflat : t.fb.Flat) (h : t.Shows D s) (c : Byte) :
    (ttyPutc fontGet t c).Shows D (s.putc c) := by
  obtain ⟨hgrid, hcaret⟩ := putc_caret h.onGrid c
  refine ⟨hgrid, ?_, ?_⟩
  · rw [ttyPutc_caret, h.caret, hcaret]
  · rw [ttyPutc_fb]
    exact shows_putc hflat h c

theorem picture_blank : Screen.blank.picture = fun _ _ => bgc := by
  funext x y
  rfl

theorem shows_blank {fb : Fb} (hflat : fb.Flat) (m : Mem) :
    Tty.Shows ⟨fbFill fb m bgc, fb, ⟨0, 0⟩⟩ D Screen.blank := by
  refine ⟨⟨Nat.zero_lt_succ 159, Nat.zero_lt_succ 49⟩, rfl, ?_⟩
  rw [picture_blank]
  exact hflat.shows_fill m bgc

theorem show_fb (font : Font) (t : Tty) (o : Shown) : (t.show font o).fb = t.fb := by
  cases o with
  | char c => exact ttyPutc_fb font t c
  | clear => rfl

theorem foldl_show_fb (font : Font) (t : Tty) (os : List Shown) :
    (os.foldl (Tty.show font) t).fb = t.fb := by
  induction os generalizing t with
  | nil => rfl
  | cons o os ih => exact (ih (t.show font o)).trans (show_fb font t o)

theorem Tty.Shows.show {t : Tty} (hflat : t.fb.Flat) (h : t.Shows D s) (o : Shown) :
    (t.show fontGet o).Shows D (s.show o) := by
  cases o with
  | char c => exact h.putc hflat c
  | clear => exact shows_blank hflat t.mem

theorem Tty.Shows.output {t : Tty} (hflat : t.fb.Flat) (h : t.Shows D s) (os : List Shown) :
    (os.foldl (Tty.show fontGet) t).Shows D (os.foldl Screen.show s) := by
  induction os generalizing t s with
  | nil => exact h
  | cons o os ih =>
      refine ih (t := t.show fontGet o) ?_ (h.show hflat o)
      rw [show_fb]
      exact hflat

theorem sameBeside_putc {t : Tty} (hflat : t.fb.Flat) (font : Font) (c : Byte) :
    t.fb.SameBeside t.mem (ttyPutc font t c).mem := by
  have hdraw : ∀ (m : Mem) (px py : ℕ) (ch : Byte) (color : BitVec 32),
      t.fb.SameBeside t.mem m → t.fb.SameBeside t.mem (fbcputchar font t.fb m px py ch color) :=
    fun m px py ch color h => h.trans (hflat.sameBeside_putchar font px py ch color m)
  have hmarked := hdraw _ ((t.caret.cx + charW) % 2 ^ 16) (t.caret.cy % 2 ^ 16) 0x5F#8 0xFFFFFFFF#32
    (hdraw _ (t.caret.cx % 2 ^ 16) (t.caret.cy % 2 ^ 16) 0x08#8 bgc (.refl _ _))
  rw [ttyPutc]
  dsimp only
  repeat' split
  · exact hdraw _ _ _ _ _ hmarked
  · exact hdraw _ _ _ _ _ (hdraw _ _ _ _ _ (hdraw _ _ _ _ _ hmarked))
  · exact hdraw _ _ _ _ _ (hdraw _ _ _ _ _ hmarked)
  · exact hmarked
  · exact hdraw _ _ _ _ _ hmarked
  · exact hdraw _ _ _ _ _ hmarked

theorem sameBeside_show {t : Tty} (hflat : t.fb.Flat) (font : Font) (o : Shown) :
    t.fb.SameBeside t.mem (t.show font o).mem := by
  cases o with
  | char c => exact sameBeside_putc hflat font c
  | clear => exact hflat.sameBeside_fill t.mem bgc

theorem sameBeside_output {t : Tty} (hflat : t.fb.Flat) (font : Font) (os : List Shown) :
    t.fb.SameBeside t.mem (os.foldl (Tty.show font) t).mem := by
  induction os generalizing t with
  | nil => exact .refl _ _
  | cons o os ih =>
      have hrest := ih (t := t.show font o) (by rwa [show_fb])
      rw [show_fb] at hrest
      exact (sameBeside_show hflat font o).trans hrest

/-- Whatever goes to the console, the framebuffer shows the cells of the screen, pixel by pixel, and
nothing beside it changes. -/
theorem ttyOutput_shows (m : Mem) {fb : Fb} {vbe : ℕ} (hflat : (fbInit m fb vbe).Flat)
    (os : List Shown) :
    (os.foldl (Tty.show fontGet) (ttyInit m fb vbe)).Shows everywhere
        (os.foldl Screen.show Screen.blank) ∧
      (fbInit m fb vbe).SameBeside m (os.foldl (Tty.show fontGet) (ttyInit m fb vbe)).mem := by
  constructor
  · exact (shows_blank hflat m).output hflat os
  · exact (hflat.sameBeside_fill m bgc).trans
      (sameBeside_output (t := ttyInit m fb vbe) hflat fontGet os)

end

theorem mode118_flat : (fbInit mode118 Fb.boot 0x7E00).Flat := ⟨by decide, by decide, by decide⟩

/-- A letter that is erased and another one in its place, with the cursor behind it. -/
theorem mode118_shows : ∃ s, (([.clear, .char 0x61#8, .char 0x08#8, .char 0x62#8].foldl
      (Tty.show fontGet) (ttyInit mode118 Fb.boot 0x7E00)).Shows everywhere s) ∧
    s.cells 0 0 = [0x62#8] ∧ s.cells 1 0 = [Screen.underscore] ∧ s.cells 2 0 = [] :=
  ⟨_, (ttyOutput_shows mode118 mode118_flat _).1, by decide, by decide, by decide⟩

end System44
