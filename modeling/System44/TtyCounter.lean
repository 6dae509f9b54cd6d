import System44.TtyText

/-!
# The counter on the console

The first task draws a label and a digit in the framebuffer that the console writes to, so the two
disagree about the cells of the counter. About all other cells the console is right, whichever way
its output and the rounds of the counter come, and after each round the digit can be read.
-/

namespace System44

def fbcstr (font : Font) (fb : Fb) (m : Mem) (x y : ℕ) (s : List Byte) (color : BitVec 32) : Mem :=
  match s with
  | [] => m
  | c :: s =>
    let m := fbcputchar font fb m x y c (if c = 0x20#8 then bgc else color)
    fbcstr font fb m ((x + 9) % 2 ^ 16) y s color

def counterLabel : List Byte := asciiBytes "TASK 1 Counter:".toList

def digit (n : ℕ) : Byte := BitVec.ofNat 8 (0x30 + n)

def task1Round (font : Font) (fb : Fb) (m : Mem) (n : ℕ) : Mem :=
  let m := fbcstr font fb m (screenWidth / 2) (screenWidth / 2) [0x08#8] 0x000000#32
  let m := fbcstr font fb m (screenWidth / 2 - 16 * charW) (screenWidth / 2) counterLabel
    0xFFFFFF#32
  fbcstr font fb m (screenWidth / 2) (screenWidth / 2) [digit n] 0xFFFFFF#32

/-- The console and the `n` of `task1`. -/
structure Desk where
  tty : Tty
  n : ℕ

def Desk.count (font : Font) (d : Desk) : Desk :=
  ⟨{ d.tty with mem := task1Round font d.tty.fb d.tty.mem d.n }, (d.n + 1) % 10⟩

/-- Output of the shell, or a round of the counter. -/
inductive DeskEvent
  | console (o : Shown)
  | counter
  deriving DecidableEq

def deskStep (font : Font) (d : Desk) : DeskEvent → Desk
  | .console o => { d with tty := d.tty.show font o }
  | .counter => d.count font

def consoleOf (events : List DeskEvent) : List Shown :=
  events.filterMap fun
    | .console o => some o
    | .counter => none

def CounterCell (i j : ℕ) : Prop := j = 45 ∧ (64 ≤ i ∧ i < 79 ∨ i = 80)

def offCounter : Region := fun x y => ¬ CounterCell (x / charW) (y / charH)

/-- Characters from column `i` of cells on. -/
def Picture.string (p : Picture) (i j : ℕ) (s : List Byte) (color : BitVec 32) : Picture :=
  match s with
  | [] => p
  | c :: s =>
    (p.stamp charW charH (ink c) (charW * i) (charH * j)
      (if c = 0x20#8 then bgc else color)).string (i + 1) j s color

theorem Picture.stamp_of_ne (p : Picture) {i j x y : ℕ} (h : ¬ (x / charW = i ∧ y / charH = j))
    (rows : ℕ → ℕ → Bool) (c : BitVec 32) :
    p.stamp charW charH rows (charW * i) (charH * j) c x y = p x y := by
  have hx := div_eq_iff_of_pos (n := charW) (x := x) (i := i) (by decide)
  have hy := div_eq_iff_of_pos (n := charH) (x := y) (i := j) (by decide)
  apply if_neg
  rintro ⟨hxlo, hxhi, hylo, hyhi, -⟩
  exact h ⟨hx.mpr ⟨hxlo, hxhi⟩, hy.mpr ⟨hylo, hyhi⟩⟩

theorem Picture.stamp_cell (p : Picture) (i j : ℕ) {x y : ℕ} (hx : x < charW) (hy : y < charH)
    (rows : ℕ → ℕ → Bool) (c : BitVec 32) :
    p.stamp charW charH rows (charW * i) (charH * j) c (charW * i + x) (charH * j + y) =
      if rows y x = true then c else p (charW * i + x) (charH * j + y) := by
  simp [stamp, hx, hy]

theorem Picture.string_of_ne {s : List Byte} {i j x y : ℕ} (p : Picture)
    (h : ¬ (y / charH = j ∧ i ≤ x / charW ∧ x / charW < i + s.length)) (color : BitVec 32) :
    p.string i j s color x y = p x y := by
  induction s generalizing p i with
  | nil => rfl
  | cons c s ih =>
      rw [List.length_cons] at h
      rw [string, ih _ (by omega), stamp_of_ne _ (by omega)]

section

variable {D : Region} {fb : Fb} {m : Mem} {p : Picture}

theorem Fb.Flat.shows_fbcstr (h : fb.Flat) (hs : fb.Shows D m p) {s : List Byte} {i : ℕ}
    (hfits : charW * (i + s.length) < 2 ^ 16) (j : ℕ) (color : BitVec 32) :
    fb.Shows D (fbcstr fontGet fb m (charW * i) (charH * j) s color) (p.string i j s color) := by
  induction s generalizing m p i with
  | nil => exact hs
  | cons c s ih =>
      rw [List.length_cons] at hfits
      have hnext : (charW * i + 9) % 2 ^ 16 = charW * (i + 1) := by
        rw [charW] at hfits ⊢
        omega
      rw [fbcstr, Picture.string, hnext]
      apply ih
      · exact shows_ink h hs _ _ c _
      · rwa [Nat.add_assoc, Nat.add_comm 1]

theorem Fb.Flat.sameBeside_fbcstr (h : fb.Flat) (m : Mem) (x y : ℕ) (s : List Byte)
    (color : BitVec 32) : fb.SameBeside m (fbcstr fontGet fb m x y s color) := by
  induction s generalizing m x with
  | nil => exact .refl fb m
  | cons c s ih => exact (h.sameBeside_putchar fontGet x y c _ m).trans (ih _ _)

/-- What a round does to a picture. -/
def Picture.counter (p : Picture) (n : ℕ) : Picture :=
  ((p.string 80 45 [0x08#8] 0x000000#32).string 64 45 counterLabel 0xFFFFFF#32).string 80 45
    [digit n] 0xFFFFFF#32

theorem Picture.counter_off (p : Picture) (n : ℕ) {x y : ℕ} (h : offCounter x y) :
    p.counter n x y = p x y := by
  have hlabel : counterLabel.length = 15 := rfl
  unfold offCounter CounterCell at h
  rw [counter, string_of_ne, string_of_ne, string_of_ne]
  · rw [List.length_singleton]
    omega
  · rw [hlabel]
    omega
  · rw [List.length_singleton]
    omega

theorem digit_printable {n : ℕ} (hn : n < 10) : Printable (digit n) ∧ digit n ≠ 0x20#8 := by
  interval_cases n <;> decide

theorem Picture.counter_digit (p : Picture) {n : ℕ} (hn : n < 10) {x y : ℕ} (hx : x < charW)
    (hy : y < charH) : p.counter n (charW * 80 + x) (charH * 45 + y) =
      if ink (digit n) y x = true then 0xFFFFFF#32 else 0x000000#32 := by
  have hcol : (charW * 80 + x) / charW = 80 := by
    rw [charW] at hx ⊢
    omega
  have hlabel : ¬ ((charH * 45 + y) / charH = 45 ∧ 64 ≤ (charW * 80 + x) / charW ∧
      (charW * 80 + x) / charW < 64 + counterLabel.length) := by
    rw [hcol]
    rintro ⟨-, -, hlt⟩
    exact absurd hlt (by decide)
  have hspace : (0x08#8 : Byte) ≠ 0x20#8 := by decide
  have hblock : ink 0x08#8 y x = true := ink_block (Or.inr rfl) y hy x hx
  rw [counter, string, string, if_neg (digit_printable hn).2, stamp_cell _ _ _ hx hy,
    string_of_ne _ hlabel, string, string, if_neg hspace, stamp_cell _ _ _ hx hy, if_pos hblock]

theorem colorBytes_digit (fb : Fb) (b : Bool) :
    fb.colorBytes (if b = true then 0xFFFFFF#32 else 0x000000#32) 0 ≠ 0#8 ↔ b = true := by
  unfold Fb.colorBytes
  split <;> cases b <;> decide

section

variable (h : fb.Flat)

include h

theorem Fb.Flat.shows_task1Round (hs : fb.Shows D m p) (n : ℕ) :
    fb.Shows D (task1Round fontGet fb m n) (p.counter n) := by
  have hcell : screenWidth / 2 = charW * 80 := rfl
  have hrow : screenWidth / 2 = charH * 45 := rfl
  have hlabel : screenWidth / 2 - 16 * charW = charW * 64 := rfl
  have hcleared := h.shows_fbcstr hs (s := [0x08#8]) (i := 80) (by decide) 45 0x000000#32
  have hlabelled := h.shows_fbcstr hcleared (s := counterLabel) (i := 64) (by decide) 45
    0xFFFFFF#32
  exact h.shows_fbcstr hlabelled (s := [digit n]) (i := 80) (by rw [charW]; simp) 45 0xFFFFFF#32

theorem Fb.Flat.sameBeside_task1Round (m : Mem) (n : ℕ) :
    fb.SameBeside m (task1Round fontGet fb m n) :=
  ((h.sameBeside_fbcstr m _ _ _ _).trans (h.sameBeside_fbcstr _ _ _ _ _)).trans
    (h.sameBeside_fbcstr _ _ _ _ _)

theorem Fb.Flat.shows_beside_counter (hs : fb.Shows offCounter m p) (n : ℕ) :
    fb.Shows offCounter (task1Round fontGet fb m n) p :=
  (h.shows_task1Round hs n).congr fun _ _ hD => (p.counter_off n hD).symm

theorem Fb.Flat.readCell_task1Round (m : Mem) {n : ℕ} (hn : n < 10)
    (hright : charW * 81 ≤ fb.width.toNat) (hbottom : charH * 46 ≤ fb.height.toNat) :
    fb.readCell (task1Round fontGet fb m n) 80 45 = some (digit n) := by
  obtain ⟨hprintable, hspace⟩ := digit_printable hn
  obtain ⟨p, hs⟩ := fb.exists_shows m
  have hround := h.shows_task1Round hs n
  apply readCell_of_lit hprintable
  intro y hy x hx
  have hbyte := hround (charW * 80 + x) (by omega) (charH * 45 + y) (by omega) trivial 0
    fb.depth_pos
  rw [p.counter_digit hn hx hy, Nat.add_zero] at hbyte
  rw [Fb.lit, hbyte, ← ink_eq_visible hspace, Bool.eq_iff_iff, decide_eq_true_iff]
  exact colorBytes_digit fb _

end

end

section

variable {s : Screen} {d : Desk}

theorem deskStep_fb (e : DeskEvent) : (deskStep fontGet d e).tty.fb = d.tty.fb := by
  cases e with
  | console o => exact show_fb fontGet d.tty o
  | counter => rfl

theorem desk_fb (events : List DeskEvent) :
    (events.foldl (deskStep fontGet) d).tty.fb = d.tty.fb := by
  induction events generalizing d with
  | nil => rfl
  | cons e events ih => exact ih.trans (deskStep_fb e)

theorem Tty.Shows.count (hflat : d.tty.fb.Flat) (h : d.tty.Shows offCounter s) :
    (d.count fontGet).tty.Shows offCounter s where
  onGrid := h.onGrid
  caret := h.caret
  picture := hflat.shows_beside_counter h.picture d.n

theorem sameBeside_deskStep (hflat : d.tty.fb.Flat) (e : DeskEvent) :
    d.tty.fb.SameBeside d.tty.mem (deskStep fontGet d e).tty.mem := by
  cases e with
  | console o => exact sameBeside_show hflat fontGet o
  | counter => exact hflat.sameBeside_task1Round d.tty.mem d.n

theorem deskRun_shows (hflat : d.tty.fb.Flat) (h : d.tty.Shows offCounter s)
    (events : List DeskEvent) :
    (events.foldl (deskStep fontGet) d).tty.Shows offCounter
      ((consoleOf events).foldl Screen.show s) := by
  induction events generalizing d s with
  | nil => exact h
  | cons e events ih =>
      have hflat' : (deskStep fontGet d e).tty.fb.Flat := by rwa [deskStep_fb]
      cases e with
      | console o => exact ih hflat' (h.show hflat o)
      | counter => exact ih hflat' (h.count hflat)

theorem deskRun_sameBeside (hflat : d.tty.fb.Flat) (events : List DeskEvent) :
    d.tty.fb.SameBeside d.tty.mem (events.foldl (deskStep fontGet) d).tty.mem := by
  induction events generalizing d with
  | nil => exact .refl _ _
  | cons e events ih =>
      have hrest := ih (d := deskStep fontGet d e) (by rwa [deskStep_fb])
      rw [deskStep_fb] at hrest
      exact (sameBeside_deskStep hflat e).trans hrest

theorem deskRun_n (hn : d.n < 10) (events : List DeskEvent) :
    (events.foldl (deskStep fontGet) d).n = (d.n + events.count .counter) % 10 := by
  induction events generalizing d with
  | nil => exact (Nat.mod_eq_of_lt hn).symm
  | cons e events ih =>
      cases e with
      | console o =>
          have hcount : (DeskEvent.console o :: events).count .counter = events.count .counter :=
            List.count_cons_of_ne (by simp)
          rw [hcount]
          exact ih (d := deskStep fontGet d (.console o)) hn
      | counter =>
          rw [List.foldl_cons, ih (Nat.mod_lt _ (by decide)), List.count_cons_self]
          change ((d.n + 1) % 10 + _) % 10 = _
          omega

/-- Output and rounds of the counter in any order: beside the cells of the counter the framebuffer
shows the console's screen, and after each round the digit is the number of the rounds before. -/
theorem desk_shows (m : Mem) {fb : Fb} {vbe : ℕ} (hflat : (fbInit m fb vbe).Flat)
    (events : List DeskEvent) :
    (events.foldl (deskStep fontGet) ⟨ttyInit m fb vbe, 0⟩).tty.Shows offCounter
        ((consoleOf events).foldl Screen.show Screen.blank) ∧
      (fbInit m fb vbe).SameBeside m
        (events.foldl (deskStep fontGet) ⟨ttyInit m fb vbe, 0⟩).tty.mem ∧
      (charW * 81 ≤ (fbInit m fb vbe).width.toNat →
        charH * 46 ≤ (fbInit m fb vbe).height.toNat →
        (fbInit m fb vbe).readCell (((events ++ [DeskEvent.counter]).foldl (deskStep fontGet)
          ⟨ttyInit m fb vbe, 0⟩).tty.mem) 80 45 = some (digit (events.count .counter % 10)) ∧
        ∀ d ∈ printables, (fbInit m fb vbe).LooksLike (((events ++ [DeskEvent.counter]).foldl
          (deskStep fontGet) ⟨ttyInit m fb vbe, 0⟩).tty.mem) 80 45 d ↔
            d = digit (events.count .counter % 10)) := by
  set start : Desk := ⟨ttyInit m fb vbe, 0⟩ with hstart
  refine ⟨deskRun_shows (d := start) hflat (shows_blank hflat m) events,
    (hflat.sameBeside_fill m bgc).trans (deskRun_sameBeside (d := start) hflat events),
    fun hright hbottom => ?_⟩
  have hn : (events.foldl (deskStep fontGet) start).n = events.count .counter % 10 := by
    rw [deskRun_n (d := start) (Nat.zero_lt_succ 9), hstart, Nat.zero_add]
  have hfb : (events.foldl (deskStep fontGet) start).tty.fb = fbInit m fb vbe := desk_fb events
  have hread : (events.foldl (deskStep fontGet) start).tty.fb.readCell
      ((events.foldl (deskStep fontGet) start).count fontGet).tty.mem 80 45 =
        some (digit (events.foldl (deskStep fontGet) start).n) := by
    apply Fb.Flat.readCell_task1Round
    · rwa [hfb]
    · rw [hn]
      exact Nat.mod_lt _ (by decide)
    · rwa [hfb]
    · rwa [hfb]
  rw [List.foldl_append, List.foldl_cons, List.foldl_nil, ← hn, ← hfb]
  exact ⟨hread, fun d hd => looksLike_iff hread hd⟩

end

def demoDesk : List DeskEvent := [.console (.char 0x61#8), .counter, .console .clear]

theorem demoDesk_digit : (fbInit mode118 Fb.boot 0x7E00).readCell
    ((demoDesk ++ [DeskEvent.counter]).foldl (deskStep fontGet)
      ⟨ttyInit mode118 Fb.boot 0x7E00, 0⟩).tty.mem 80 45 = some 0x31#8 :=
  ((desk_shows mode118 mode118_flat demoDesk).2.2 (by decide) (by decide)).1

end System44
