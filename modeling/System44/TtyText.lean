import Mathlib.Data.List.Nodup
import System44.CString
import System44.TtyScreen

/-!
# Reading the screen of the console

No two glyphs of the font are alike, so what a cell looks like tells which character it shows. Lines
of text that fit on the screen can be read off the framebuffer, with the cursor behind the last one.
-/

namespace System44

/-- The characters from the space to the tilde. -/
def printables : List Byte := (List.range 95).map fun i => BitVec.ofNat 8 (0x20 + i)

def visibleBits (c : Byte) : ℕ :=
  if c = 0x20#8 then 0
  else match basic8x8.find? fun f => f.1 = c with
    | none => 0
    | some f => f.2

def visible (c : Byte) (y x : ℕ) : Bool := (visibleBits c).testBit (143 - (9 * y + x))

/-- A pixel that is not of the background's colour. -/
def Fb.lit (fb : Fb) (m : Mem) (x y : ℕ) : Bool := m.get (fb.pixel x y) ≠ 0#8

/-- The character that a cell of the framebuffer looks like. -/
def Fb.readCell (fb : Fb) (m : Mem) (i j : ℕ) : Option Byte :=
  printables.find? fun c =>
    ∀ y < charH, ∀ x < charW, fb.lit m (charW * i + x) (charH * j + y) = visible c y x

/-- Every pixel of the cell is lit or not as it is in the glyph of `c`. -/
def Fb.LooksLike (fb : Fb) (m : Mem) (i j : ℕ) (c : Byte) : Prop :=
  ∀ y < charH, ∀ x < charW, fb.lit m (charW * i + x) (charH * j + y) = visible c y x

theorem mem_printables {c : Byte} (hc : Printable c) : c ∈ printables := by
  have hlo : 0x20 ≤ c.toNat := BitVec.le_def.mp hc.1
  have hhi : c.toNat ≤ 0x7E := BitVec.le_def.mp hc.2
  apply List.mem_map.mpr
  refine ⟨c.toNat - 0x20, List.mem_range.mpr (by omega), ?_⟩
  rw [Nat.add_sub_cancel' hlo, BitVec.ofNat_toNat, BitVec.setWidth_eq]

theorem visibleBits_injOn {c d : Byte} (hc : c ∈ printables) (hd : d ∈ printables)
    (h : visibleBits c = visibleBits d) : c = d := by
  have hnodup : (printables.map visibleBits).Nodup := by decide +kernel
  exact List.inj_on_of_nodup_map hnodup hc hd h

theorem visibleBits_lt (c : Byte) : visibleBits c < 2 ^ 144 := by
  have hall : ∀ f ∈ basic8x8, f.2 < 2 ^ 144 := by decide +kernel
  unfold visibleBits
  split
  · exact Nat.two_pow_pos 144
  · split
    · exact Nat.two_pow_pos 144
    · rename_i f hfind
      exact hall f (List.mem_of_find?_eq_some hfind)

/-- No two characters look the same. -/
theorem visible_injOn {c d : Byte} (hc : c ∈ printables) (hd : d ∈ printables)
    (h : ∀ y < charH, ∀ x < charW, visible c y x = visible d y x) : c = d := by
  apply visibleBits_injOn hc hd
  apply Nat.eq_of_testBit_eq
  intro n
  by_cases hn : n < 144
  · have hbit := h ((143 - n) / 9) (by rw [charH]; omega) ((143 - n) % 9)
      (Nat.mod_lt _ (by decide))
    have hplace : 143 - (9 * ((143 - n) / 9) + (143 - n) % 9) = n := by omega
    rwa [visible, visible, hplace] at hbit
  · have hle : 2 ^ 144 ≤ 2 ^ n := Nat.pow_le_pow_right (by decide) (not_lt.mp hn)
    rw [Nat.testBit_lt_two_pow ((visibleBits_lt c).trans_le hle),
      Nat.testBit_lt_two_pow ((visibleBits_lt d).trans_le hle)]

theorem visible_space (y x : ℕ) : visible 0x20#8 y x = false := Nat.zero_testBit _

theorem ink_eq_visible {c : Byte} (hc : c ≠ 0x20#8) : ink c = visible c := by
  funext y x
  rw [ink, fontGet, visible, visibleBits, if_neg hc]
  cases basic8x8.find? fun f => f.1 = c with
  | none => exact (Nat.zero_testBit _).symm
  | some f => rfl

section

variable {D : Region} {fb : Fb} {m : Mem} {x y : ℕ}

theorem colorBytes_white (fb : Fb) : fb.colorBytes Screen.white 0 = 0xFF#8 := by
  unfold Fb.colorBytes
  split <;> decide

theorem colorBytes_bgc (fb : Fb) : fb.colorBytes bgc 0 = 0#8 := by
  unfold Fb.colorBytes
  split <;> decide

theorem lit_of_shows {s : Screen} (hs : fb.Shows D m s.picture) (hx : x < fb.width.toNat)
    (hy : y < fb.height.toNat) (hD : D x y) :
    fb.lit m x y =
      (s.cells (x / charW) (y / charH)).any fun c => ink c (y % charH) (x % charW) := by
  have hbyte := hs x hx y hy hD 0 fb.depth_pos
  rw [Nat.add_zero] at hbyte
  rw [Fb.lit, hbyte, Screen.picture]
  split
  · rename_i hink
    simp [hink, colorBytes_white]
  · rename_i hink
    simp [hink, colorBytes_bgc]

def glyphs (c : Byte) : List Byte := if c = 0x20#8 then [] else [c]

theorem looksLike_of_readCell {i j : ℕ} {c : Byte} (h : fb.readCell m i j = some c) :
    fb.LooksLike m i j c := by
  have hlook := of_decide_eq_true (List.find?_some (p := fun c => decide
    (∀ y < charH, ∀ x < charW, fb.lit m (charW * i + x) (charH * j + y) = visible c y x)) h)
  exact hlook

/-- A cell looks like one character at most. -/
theorem Fb.LooksLike.unique {i j : ℕ} {c d : Byte} (hc : c ∈ printables) (hd : d ∈ printables)
    (h : fb.LooksLike m i j c) (h' : fb.LooksLike m i j d) : d = c := by
  apply visible_injOn hd hc
  intro y hy x hx
  exact (h' y hy x hx).symm.trans (h y hy x hx)

theorem readCell_of_lit {i j : ℕ} {c : Byte} (hc : Printable c) (hlit : ∀ y < charH, ∀ x < charW,
    fb.lit m (charW * i + x) (charH * j + y) = visible c y x) : fb.readCell m i j = some c := by
  have hfound : (fb.readCell m i j).isSome := List.find?_isSome.mpr
    ⟨c, mem_printables hc, decide_eq_true hlit⟩
  obtain ⟨d, hd⟩ := Option.isSome_iff_exists.mp hfound
  have hsame : d = c := Fb.LooksLike.unique (mem_printables hc) (List.mem_of_find?_eq_some hd) hlit
    (looksLike_of_readCell hd)
  rw [hd, hsame]

theorem looksLike_iff {i j : ℕ} {c d : Byte} (h : fb.readCell m i j = some c)
    (hd : d ∈ printables) : fb.LooksLike m i j d ↔ d = c := by
  have hlook := looksLike_of_readCell h
  constructor
  · exact Fb.LooksLike.unique (List.mem_of_find?_eq_some h) hd hlook
  · rintro rfl
    exact hlook

theorem readCell_of_shows {s : Screen} (hs : fb.Shows D m s.picture) {i j : ℕ} {c : Byte}
    (hc : Printable c) (hcell : s.cells i j = glyphs c)
    (hright : charW * (i + 1) ≤ fb.width.toNat) (hbottom : charH * (j + 1) ≤ fb.height.toNat)
    (hD : ∀ x < charW, ∀ y < charH, D (charW * i + x) (charH * j + y)) :
    fb.readCell m i j = some c := by
  rw [Nat.mul_succ] at hright hbottom
  apply readCell_of_lit hc
  intro y hy x hx
  rw [lit_of_shows hs (by omega) (by omega) (hD x hx y hy), Nat.mul_add_div (by decide),
    Nat.mul_add_div (by decide), Nat.div_eq_of_lt hx, Nat.div_eq_of_lt hy, Nat.add_zero,
    Nat.add_zero, hcell, Nat.mul_add_mod, Nat.mul_add_mod, Nat.mod_eq_of_lt hx,
    Nat.mod_eq_of_lt hy, glyphs]
  by_cases hspace : c = 0x20#8
  · rw [if_pos hspace, hspace, visible_space]
    rfl
  · rw [if_neg hspace, ← ink_eq_visible hspace]
    simp

end

/-- Lines that end and one that does not. -/
def text (lines : List (List Byte)) (last : List Byte) : List Byte :=
  lines.flatMap (· ++ [0x0A#8]) ++ last

theorem text_cons (line : List Byte) (lines : List (List Byte)) (last : List Byte) :
    text (line :: lines) last = line ++ [0x0A#8] ++ text lines last := by
  simp [text]

def lineCell (cs : List Byte) (i : ℕ) : List Byte :=
  match cs[i]? with
  | none => []
  | some c => glyphs c

def lineAt (lines : List (List Byte)) (last : List Byte) (j : ℕ) : List Byte :=
  (lines ++ [last]).getD j []

theorem lineCell_append (line : List Byte) (c : Byte) (i : ℕ) :
    lineCell (line ++ [c]) i = if i = line.length then glyphs c else lineCell line i := by
  unfold lineCell
  rw [List.getElem?_append]
  rcases Nat.lt_trichotomy i line.length with hlt | rfl | hgt
  · rw [if_pos hlt, if_neg (Nat.ne_of_lt hlt)]
  · simp
  · have hout : [c][i - line.length]? = none := List.getElem?_eq_none (by
      rw [List.length_singleton]
      omega)
    rw [if_neg (Nat.lt_asymm hgt), hout, if_neg (Nat.ne_of_gt hgt),
      List.getElem?_eq_none (Nat.le_of_lt hgt)]

theorem lineCell_of_le {line : List Byte} {i : ℕ} (h : line.length ≤ i) : lineCell line i = [] := by
  rw [lineCell, List.getElem?_eq_none h]

theorem lineAt_last (lines : List (List Byte)) (last : List Byte) :
    lineAt lines last lines.length = last := by
  simp [lineAt]

theorem lineAt_of_ne {lines : List (List Byte)} {j : ℕ} (h : j ≠ lines.length) (last : List Byte) :
    lineAt lines last j = lines.getD j [] := by
  rw [lineAt, List.getD_eq_getElem?_getD, List.getD_eq_getElem?_getD, List.getElem?_append]
  rcases Nat.lt_or_gt_of_ne h with hlt | hgt
  · rw [if_pos hlt]
  · have hout : [last][j - lines.length]? = none := List.getElem?_eq_none (by
      rw [List.length_singleton]
      omega)
    rw [if_neg (Nat.lt_asymm hgt), hout, List.getElem?_eq_none hgt.le]

theorem lineAt_nil (lines : List (List Byte)) (last : List Byte) (j : ℕ) :
    lineAt (lines ++ [last]) [] j = lineAt lines last j := by
  by_cases h : j = (lines ++ [last]).length
  · subst h
    rw [lineAt_last]
    simp [lineAt]
  · rw [lineAt_of_ne h, lineAt]

namespace Screen

def ofText (lines : List (List Byte)) (last : List Byte) : Screen where
  cells i j :=
    if j = lines.length ∧ i = last.length ∧ last ≠ [] then [underscore]
    else lineCell (lineAt lines last j) i
  col := last.length
  row := lines.length

theorem ofText_nil : ofText [] [] = blank := by
  have hempty (i j : ℕ) : lineCell (lineAt [] [] j) i = [] := by
    cases j <;> simp [lineAt, lineCell]
  simp [ofText, blank, hempty]

theorem putc_printable {c : Byte} (hc : Printable c) (s : Screen) (hroom : s.col + 1 < ttyColumns) :
    s.putc c = ⟨fun i j => if i = s.col ∧ j = s.row then glyphs c
      else if i = s.col + 1 ∧ j = s.row then underscore :: s.cells i j else s.cells i j,
      s.col + 1, s.row⟩ := by
  obtain ⟨h1, h2, h3, h4⟩ := hc.ne
  rw [putc]
  dsimp only
  rw [if_neg h1, if_neg h2, if_neg h3, if_neg h4]
  by_cases hspace : c = 0x20#8
  · rw [if_pos hspace, toColumn]
    refine (if_pos hroom).trans ?_
    simp only [draw, wipe, update, Screen.mk.injEq, and_true]
    funext i j
    by_cases hcell : i = s.col ∧ j = s.row
    · obtain ⟨rfl, rfl⟩ := hcell
      simp [glyphs, hspace]
    · by_cases hright : i = s.col + 1 ∧ j = s.row
      · obtain ⟨rfl, rfl⟩ := hright
        simp
      · simp [hcell, hright]
  · rw [if_neg hspace, toColumn]
    refine (if_pos hroom).trans ?_
    simp only [draw, wipe, update, Screen.mk.injEq, and_true]
    funext i j
    by_cases hcell : i = s.col ∧ j = s.row
    · obtain ⟨rfl, rfl⟩ := hcell
      simp [glyphs, hspace]
    · by_cases hright : i = s.col + 1 ∧ j = s.row
      · obtain ⟨rfl, rfl⟩ := hright
        simp
      · simp [hcell, hright]

theorem putc_newline (s : Screen) : s.putc 0x0A#8 =
    ⟨fun i j => if (i = s.col ∨ i = s.col + 1) ∧ j = s.row then [] else s.cells i j, 0,
      rowBelow s.row⟩ := by
  simp only [putc, if_true, wipe, update, Screen.mk.injEq, and_true]
  funext i j
  by_cases hright : i = s.col + 1 ∧ j = s.row
  · obtain ⟨rfl, rfl⟩ := hright
    simp
  · by_cases hcell : i = s.col ∧ j = s.row
    · obtain ⟨rfl, rfl⟩ := hcell
      simp
    · have hboth : ¬ ((i = s.col ∨ i = s.col + 1) ∧ j = s.row) := by omega
      simp [hright, hcell, hboth]

theorem ofText_putc {lines : List (List Byte)} {last : List Byte} {c : Byte} (hc : Printable c)
    (hroom : last.length + 1 < ttyColumns) :
    (ofText lines last).putc c = ofText lines (last ++ [c]) := by
  rw [putc_printable hc _ hroom]
  simp only [ofText, Screen.mk.injEq, List.length_append, List.length_singleton, and_true]
  funext i j
  by_cases hrow : j = lines.length
  · subst hrow
    rw [lineAt_last, lineAt_last, lineCell_append]
    by_cases hcell : i = last.length
    · subst hcell
      simp
    · by_cases hright : i = last.length + 1
      · subst hright
        simp [lineCell_of_le]
      · simp [hcell, hright]
  · simp [hrow, lineAt_of_ne hrow]

theorem ofText_newline {lines : List (List Byte)} (last : List Byte)
    (hroom : lines.length + 1 < ttyRows) :
    (ofText lines last).putc 0x0A#8 = ofText (lines ++ [last]) [] := by
  have hrow : rowBelow lines.length = lines.length + 1 := if_pos hroom
  rw [putc_newline]
  simp only [ofText, Screen.mk.injEq, List.length_append, List.length_singleton, hrow,
    List.length_nil, and_true, lineAt_nil]
  funext i j
  by_cases hcell : (i = last.length ∨ i = last.length + 1) ∧ j = lines.length
  · obtain ⟨hi, rfl⟩ := hcell
    have hle : last.length ≤ i := by omega
    simp [hi, lineAt_last, lineCell_of_le hle]
  · have hcursor : ¬ (j = lines.length ∧ i = last.length ∧ last ≠ []) := by
      rintro ⟨rfl, rfl, -⟩
      exact hcell ⟨Or.inl rfl, rfl⟩
    simp [hcell, hcursor]

end Screen

theorem foldl_line {lines : List (List Byte)} (last : List Byte) {line : List Byte}
    (hline : ∀ c ∈ line, Printable c) (hroom : (last ++ line).length < ttyColumns) :
    line.foldl Screen.putc (Screen.ofText lines last) = Screen.ofText lines (last ++ line) := by
  induction line generalizing last with
  | nil => simp
  | cons c line ih =>
      rw [List.length_append, List.length_cons] at hroom
      rw [List.foldl_cons, Screen.ofText_putc (hline c List.mem_cons_self) (by omega),
        ih _ fun d hd => hline d (List.mem_cons_of_mem c hd)]
      · rw [List.append_assoc, List.singleton_append]
      · rw [List.append_assoc, List.singleton_append, List.length_append, List.length_cons]
        exact hroom

/-- The text fits on the screen. -/
structure TextFits (lines : List (List Byte)) (last : List Byte) : Prop where
  rows : lines.length < ttyRows
  columns : ∀ line ∈ lines ++ [last], line.length < ttyColumns
  printable : ∀ line ∈ lines ++ [last], ∀ c ∈ line, Printable c

theorem foldl_text {lines : List (List Byte)} {last : List Byte} (h : TextFits lines last) :
    (text lines last).foldl Screen.putc Screen.blank = Screen.ofText lines last := by
  have hlines : ∀ done rest, done ++ rest = lines →
      (rest.flatMap (· ++ [0x0A#8])).foldl Screen.putc (Screen.ofText done []) =
        Screen.ofText lines [] := by
    intro done rest
    induction rest generalizing done with
    | nil =>
        intro hdone
        rw [← hdone, List.append_nil]
        rfl
    | cons line rest ih =>
        intro hdone
        have hmem : line ∈ lines ++ [last] := by
          rw [← hdone]
          simp
        have hroom : done.length + 1 < ttyRows := by
          have hrows := h.rows
          rw [← hdone, List.length_append, List.length_cons] at hrows
          omega
        rw [List.flatMap_cons, List.foldl_append, List.foldl_append,
          foldl_line [] (h.printable line hmem) (h.columns line hmem), List.foldl_cons,
          List.foldl_nil, List.nil_append, Screen.ofText_newline _ hroom]
        exact ih (done ++ [line]) (by rw [← hdone, List.append_assoc, List.singleton_append])
  have hlast : last ∈ lines ++ [last] := by simp
  rw [text, List.foldl_append, ← Screen.ofText_nil, hlines [] lines rfl,
    foldl_line [] (h.printable last hlast) (h.columns last hlast)]
  rfl

theorem printable_of_lineAt {lines : List (List Byte)} {last : List Byte} (h : TextFits lines last)
    {j : ℕ} {c : Byte} (hc : c ∈ lineAt lines last j) : Printable c := by
  rw [lineAt, List.getD_eq_getElem?_getD] at hc
  cases hline : (lines ++ [last])[j]? with
  | none =>
      rw [hline] at hc
      exact absurd hc List.not_mem_nil
  | some line =>
      rw [hline] at hc
      exact h.printable line (List.mem_of_getElem? hline) c hc

/-- What a reader finds in a cell. -/
def textCell (lines : List (List Byte)) (last : List Byte) (i j : ℕ) : Byte :=
  if j = lines.length ∧ i = last.length ∧ last ≠ [] then Screen.underscore
  else (lineAt lines last j).getD i 0x20#8

/-- Lines that fit on the screen can be read off the framebuffer, as far as it goes. -/
theorem ttyText_readable (m : Mem) {fb : Fb} {vbe : ℕ} (hflat : (fbInit m fb vbe).Flat)
    {lines : List (List Byte)} {last : List Byte} (hfits : TextFits lines last) {i j : ℕ}
    (hright : charW * (i + 1) ≤ (fbInit m fb vbe).width.toNat)
    (hbottom : charH * (j + 1) ≤ (fbInit m fb vbe).height.toNat) :
    (fbInit m fb vbe).readCell (ttyPuts fontGet (ttyInit m fb vbe) (text lines last)).mem i j =
        some (textCell lines last i j) ∧
      ∀ d ∈ printables, (fbInit m fb vbe).LooksLike
        (ttyPuts fontGet (ttyInit m fb vbe) (text lines last)).mem i j d ↔
          d = textCell lines last i j := by
  have hshown := (shows_blank hflat m (D := everywhere)).output hflat (shown (text lines last))
  rw [foldl_shown, foldl_show_shown, foldl_text hfits] at hshown
  have hpicture := hshown.picture
  rw [ttyPuts_fb] at hpicture
  have hcell : (Screen.ofText lines last).cells i j = glyphs (textCell lines last i j) ∧
      Printable (textCell lines last i j) := by
    unfold textCell
    by_cases hcursor : j = lines.length ∧ i = last.length ∧ last ≠ []
    · rw [if_pos hcursor]
      refine ⟨if_pos hcursor, by decide⟩
    · rw [if_neg hcursor]
      have hcontent : (Screen.ofText lines last).cells i j = lineCell (lineAt lines last j) i :=
        if_neg hcursor
      rw [hcontent, lineCell, List.getD_eq_getElem?_getD]
      cases hchar : (lineAt lines last j)[i]? with
      | none => exact ⟨rfl, by decide⟩
      | some c => exact ⟨rfl, printable_of_lineAt hfits (List.mem_of_getElem? hchar)⟩
  have hread := readCell_of_shows hpicture hcell.2 hcell.1 hright hbottom fun _ _ _ _ => trivial
  exact ⟨hread, fun d hd => looksLike_iff hread hd⟩

def demoLog : List (List Byte) := [asciiBytes "task 1".toList]

def demoInput : List Byte := asciiBytes "> ls".toList

theorem demoText_fits : TextFits demoLog demoInput := ⟨by decide, by decide, by decide⟩

/-- A line and a prompt behind it, in the mode that the kernel boots in. -/
theorem demoText_readable : ((List.range 6).map fun i => (fbInit mode118 Fb.boot 0x7E00).readCell
    (ttyPuts fontGet (ttyInit mode118 Fb.boot 0x7E00) (text demoLog demoInput)).mem i 1) =
      (asciiBytes "> ls_ ".toList).map some := by
  have hwidth : (fbInit mode118 Fb.boot 0x7E00).width.toNat = 1024 := by decide
  have hheight : (fbInit mode118 Fb.boot 0x7E00).height.toNat = 768 := by decide
  have hread (i : ℕ) (hi : i < 6) := (ttyText_readable mode118 mode118_flat demoText_fits
    (i := i) (j := 1) (by rw [hwidth, charW]; omega) (by rw [hheight]; decide)).1
  rw [List.map_congr_left fun i hi => hread i (List.mem_range.mp hi)]
  decide

end System44
