import System44.Tty

/-!
# What the framebuffer shows

A picture has a colour at each place, and the framebuffer shows it in a region when each of its
pixels there has the bytes of the colour. The pixels are apart when no two rows share memory, and
then painting one changes this one only, inside the framebuffer and nowhere else.
-/

namespace System44

/-- The colour in column `x` and row `y`. -/
abbrev Picture := ℕ → ℕ → BitVec 32

/-- Places of a picture. -/
abbrev Region := ℕ → ℕ → Prop

def everywhere : Region := fun _ _ => True

def Picture.set (p : Picture) (x y : ℕ) (c : BitVec 32) : Picture :=
  fun x' y' => if x' = x ∧ y' = y then c else p x' y'

/-- The bytes of a pixel. -/
def Fb.depth (fb : Fb) : ℕ :=
  if fb.bppBytes = 4 then 4 else if fb.bppBytes = 3 then 3 else if fb.bppBytes = 2 then 2 else 1

def Fb.colorBytes (fb : Fb) (c : BitVec 32) (k : ℕ) : Byte :=
  if fb.bppBytes = 2 then
    BitVec.ofNat 8 ((rgb565 (leBytes c 2) (leBytes c 1) (leBytes c 0)).toNat / 256 ^ k)
  else leBytes c k

def Fb.pixel (fb : Fb) (x y : ℕ) : ℕ := fb.row y + x * fb.depth

/-- There is a framebuffer, its rows do not overlap, and it ends before the address space does. -/
structure Fb.Flat (fb : Fb) : Prop where
  mapped : fb.addr ≠ 0#32
  pitch : fb.width.toNat * fb.depth ≤ fb.pitch.toNat
  fits : fb.addr.toNat + fb.height.toNat * fb.pitch.toNat ≤ 2 ^ 32

def Fb.ShowsAt (fb : Fb) (m : Mem) (x y : ℕ) (c : BitVec 32) : Prop :=
  ∀ k < fb.depth, m.get (fb.pixel x y + k) = fb.colorBytes c k

def Fb.Shows (fb : Fb) (D : Region) (m : Mem) (p : Picture) : Prop :=
  ∀ x < fb.width.toNat, ∀ y < fb.height.toNat, D x y → fb.ShowsAt m x y (p x y)

/-- The same memory outside the framebuffer. -/
def Fb.SameBeside (fb : Fb) (m m' : Mem) : Prop :=
  ∀ a < 2 ^ 32, a < fb.addr.toNat ∨ fb.addr.toNat + fb.height.toNat * fb.pitch.toNat ≤ a →
    m'.get a = m.get a

section

variable {fb : Fb} {D : Region} {m m' : Mem} {p : Picture} {x y : ℕ}

theorem Fb.depth_pos (fb : Fb) : 0 < fb.depth := by
  unfold depth
  split_ifs <;> decide

theorem Fb.depth_le (fb : Fb) : fb.depth ≤ 4 := by
  unfold depth
  split_ifs <;> decide

theorem fbPutpixel_eq_blit (haddr : fb.addr ≠ 0#32) (hx : x < fb.width.toNat)
    (hy : y < fb.height.toNat) (m : Mem) (c : BitVec 32) :
    fbPutpixel fb m x y c = m.blit (fb.pixel x y) fb.depth (fb.colorBytes c) := by
  by_cases h4 : fb.bppBytes = 4
  · have hdepth : fb.depth = 4 := if_pos h4
    have hbytes : fb.colorBytes c = leBytes c := by
      funext k
      exact if_neg (by omega)
    rw [fbPutpixel_32 haddr hx hy m c h4, Fb.pixel, hdepth, hbytes, Nat.mul_comm 4]
    rfl
  · by_cases h3 : fb.bppBytes = 3
    · have hdepth : fb.depth = 3 := by rw [Fb.depth, if_neg h4, if_pos h3]
      have hbytes : fb.colorBytes c = leBytes c := by
        funext k
        exact if_neg (by omega)
      rw [fbPutpixel_24 haddr hx hy m c h3, Fb.pixel, hdepth, hbytes]
      rfl
    · by_cases h2 : fb.bppBytes = 2
      · have hdepth : fb.depth = 2 := by rw [Fb.depth, if_neg h4, if_neg h3, if_pos h2]
        rw [fbPutpixel_16 haddr hx hy m c h2, Fb.pixel, hdepth]
        exact Mem.blit_congr _ _ fun k _ => (if_pos h2).symm
      · have hdepth : fb.depth = 1 := by rw [Fb.depth, if_neg h4, if_neg h3, if_neg h2]
        have hbytes : fb.colorBytes c = leBytes c := by
          funext k
          exact if_neg h2
        rw [fbPutpixel_8 haddr hx hy m c h4 h3 h2, Fb.pixel, hdepth, hbytes, Nat.mul_one]
        rfl

theorem rgb565_surjective (v : BitVec 16) : ∃ r g b, rgb565 r g b = v := by
  refine ⟨v.setWidth 8 <<< 3, (v >>> 5).setWidth 8 <<< 2, (v >>> 11).setWidth 8 <<< 3, ?_⟩
  apply BitVec.eq_of_getLsbD_eq
  intro i hi
  interval_cases i <;> simp [rgb565]

theorem Fb.exists_color (fb : Fb) (bytes : ℕ → Byte) :
    ∃ c, ∀ k < fb.depth, fb.colorBytes c k = bytes k := by
  by_cases h2 : fb.bppBytes = 2
  · have hdepth : fb.depth = 2 := by simp [depth, h2]
    obtain ⟨r, g, b, hv⟩ :=
      rgb565_surjective (BitVec.ofNat 16 ((bytes 0).toNat + 256 * (bytes 1).toNat))
    refine ⟨leWord fun k => if k = 0 then b else if k = 1 then g else r, fun k hk => ?_⟩
    rw [hdepth] at hk
    rw [colorBytes, if_pos h2, leBytes_leWord _ (by decide), leBytes_leWord _ (by decide),
      leBytes_leWord _ (by decide)]
    simp only [if_true, one_ne_zero, OfNat.ofNat_ne_zero, OfNat.ofNat_ne_one, if_false]
    have h0 := (bytes 0).isLt
    have h1 := (bytes 1).isLt
    apply BitVec.eq_of_toNat_eq
    rw [hv, BitVec.toNat_ofNat, BitVec.toNat_ofNat]
    interval_cases k <;> omega
  · refine ⟨leWord bytes, fun k hk => ?_⟩
    rw [colorBytes, if_neg h2]
    exact leBytes_leWord bytes (hk.trans_le fb.depth_le)

theorem Fb.exists_shows (fb : Fb) (m : Mem) : ∃ p, fb.Shows everywhere m p := by
  have hcolor (x y : ℕ) := fb.exists_color fun k => m.get (fb.pixel x y + k)
  choose p hp using hcolor
  exact ⟨p, fun x _ y _ _ k hk => (hp x y k hk).symm⟩

theorem Fb.Shows.congr {q : Picture} (h : fb.Shows D m p) (heq : ∀ x y, D x y → q x y = p x y) :
    fb.Shows D m q := by
  intro x hx y hy hD
  rw [heq x y hD]
  exact h x hx y hy hD

theorem Fb.Flat.pixel_bounds (h : fb.Flat) (hx : x < fb.width.toNat) (hy : y < fb.height.toNat) :
    fb.addr.toNat + y * fb.pitch.toNat ≤ fb.pixel x y ∧
      fb.pixel x y + fb.depth ≤ fb.addr.toNat + y * fb.pitch.toNat + fb.pitch.toNat ∧
      fb.pixel x y + fb.depth ≤ fb.addr.toNat + fb.height.toNat * fb.pitch.toNat := by
  have hrow : (x + 1) * fb.depth ≤ fb.width.toNat * fb.depth := Nat.mul_le_mul_right _ hx
  have hcol : (y + 1) * fb.pitch.toNat ≤ fb.height.toNat * fb.pitch.toNat :=
    Nat.mul_le_mul_right _ hy
  have hpitch := h.pitch
  rw [Nat.add_mul, Nat.one_mul] at hrow hcol
  unfold pixel row
  omega

/-- Two different pixels share no byte. -/
theorem Fb.Flat.apart (h : fb.Flat) {x' y' : ℕ} (hx : x < fb.width.toNat)
    (hy : y < fb.height.toNat) (hx' : x' < fb.width.toNat) (hy' : y' < fb.height.toNat)
    (hne : ¬ (x' = x ∧ y' = y)) :
    fb.pixel x' y' + fb.depth ≤ fb.pixel x y ∨ fb.pixel x y + fb.depth ≤ fb.pixel x' y' := by
  obtain ⟨hlo, hhi, -⟩ := h.pixel_bounds hx hy
  obtain ⟨hlo', hhi', -⟩ := h.pixel_bounds hx' hy'
  rcases Nat.lt_trichotomy y' y with hlt | rfl | hlt
  · have hmul : (y' + 1) * fb.pitch.toNat ≤ y * fb.pitch.toNat := Nat.mul_le_mul_right _ hlt
    rw [Nat.add_mul, Nat.one_mul] at hmul
    omega
  · rcases Nat.lt_or_gt_of_ne fun heq => hne ⟨heq, rfl⟩ with hlt | hlt
    · have hmul : (x' + 1) * fb.depth ≤ x * fb.depth := Nat.mul_le_mul_right _ hlt
      rw [Nat.add_mul, Nat.one_mul] at hmul
      unfold pixel
      omega
    · have hmul : (x + 1) * fb.depth ≤ x' * fb.depth := Nat.mul_le_mul_right _ hlt
      rw [Nat.add_mul, Nat.one_mul] at hmul
      unfold pixel
      omega
  · have hmul : (y + 1) * fb.pitch.toNat ≤ y' * fb.pitch.toNat := Nat.mul_le_mul_right _ hlt
    rw [Nat.add_mul, Nat.one_mul] at hmul
    omega

theorem Fb.Flat.showsAt_putpixel (h : fb.Flat) (hx : x < fb.width.toNat)
    (hy : y < fb.height.toNat) (c : BitVec 32) : fb.ShowsAt (fbPutpixel fb m x y c) x y c := by
  intro k hk
  have hdepth := fb.depth_le
  rw [fbPutpixel_eq_blit h.mapped hx hy, Mem.get_blit_add _ _ _ (by omega) hk]

theorem Fb.Flat.showsAt_of_ne (h : fb.Flat) {x' y' : ℕ} (hx' : x' < fb.width.toNat)
    (hy' : y' < fb.height.toNat) (hne : ¬ (x' = x ∧ y' = y)) {c' : BitVec 32}
    (hshows : fb.ShowsAt m x' y' c') (c : BitVec 32) :
    fb.ShowsAt (fbPutpixel fb m x y c) x' y' c' := by
  by_cases hclips : fb.width.toNat ≤ x ∨ fb.height.toNat ≤ y
  · rw [fbPutpixel_clipped hclips]
    exact hshows
  · rw [not_or, not_le, not_le] at hclips
    obtain ⟨hx, hy⟩ := hclips
    intro k hk
    have hdepth := fb.depth_le
    have hapart := h.apart hx hy hx' hy' hne
    obtain ⟨-, -, hend⟩ := h.pixel_bounds hx hy
    obtain ⟨-, -, hend'⟩ := h.pixel_bounds hx' hy'
    have hfits := h.fits
    rw [fbPutpixel_eq_blit h.mapped hx hy, Mem.get_blit_of_le _ _ (by omega)]
    · exact hshows k hk
    · exact Mem.le_offset (by omega) (by omega) (by omega)

theorem Fb.Flat.shows_putpixel (h : fb.Flat) (hshows : fb.Shows D m p) (x y : ℕ)
    (c : BitVec 32) : fb.Shows D (fbPutpixel fb m x y c) (p.set x y c) := by
  intro x' hx' y' hy' hD
  by_cases heq : x' = x ∧ y' = y
  · obtain ⟨rfl, rfl⟩ := heq
    rw [Picture.set, if_pos ⟨rfl, rfl⟩]
    exact h.showsAt_putpixel hx' hy' c
  · rw [Picture.set, if_neg heq]
    exact h.showsAt_of_ne hx' hy' heq (hshows x' hx' y' hy' hD) c

theorem Fb.Flat.sameBeside_putpixel (h : fb.Flat) (m : Mem) (x y : ℕ) (c : BitVec 32) :
    fb.SameBeside m (fbPutpixel fb m x y c) := by
  intro a ha hout
  by_cases hclips : fb.width.toNat ≤ x ∨ fb.height.toNat ≤ y
  · rw [fbPutpixel_clipped hclips]
  · rw [not_or, not_le, not_le] at hclips
    obtain ⟨hx, hy⟩ := hclips
    have hdepth := fb.depth_le
    obtain ⟨hlo, -, hend⟩ := h.pixel_bounds hx hy
    have hfits := h.fits
    rw [fbPutpixel_eq_blit h.mapped hx hy, Mem.get_blit_of_le _ _ (by omega)]
    exact Mem.le_offset ha (by omega) (by omega)

theorem Fb.SameBeside.refl (fb : Fb) (m : Mem) : fb.SameBeside m m := fun _ _ _ => rfl

theorem Fb.SameBeside.trans {m'' : Mem} (h : fb.SameBeside m m') (h' : fb.SameBeside m' m'') :
    fb.SameBeside m m'' :=
  fun a ha hout => (h' a ha hout).trans (h a ha hout)

theorem Fb.Flat.shows_fill (h : fb.Flat) (m : Mem) (c : BitVec 32) :
    fb.Shows D (fbFill fb m c) fun _ _ => c := by
  -- the rows above the one that is painted, and that row up to the pixel
  have hrow : ∀ y < fb.height.toNat, ∀ m,
      (∀ x < fb.width.toNat, ∀ y' < y, fb.ShowsAt m x y' c) →
      ∀ x < fb.width.toNat, ∀ y' < y + 1, fb.ShowsAt (putRow fb c y m) x y' c := by
    intro y hy m habove
    have hpainted : (∀ x < fb.width.toNat, ∀ y' < y, fb.ShowsAt (putRow fb c y m) x y' c) ∧
        ∀ x < fb.width.toNat, fb.ShowsAt (putRow fb c y m) x y c := by
      refine forUp_induct (P := fun n m => (∀ x < fb.width.toNat, ∀ y' < y, fb.ShowsAt m x y' c) ∧
        ∀ x < n, fb.ShowsAt m x y c) ⟨habove, fun x hx => absurd hx (Nat.not_lt_zero x)⟩ ?_
      rintro x hx m ⟨habove, hleft⟩
      refine ⟨fun x' hx' y' hy' => ?_, fun x' hx' => ?_⟩
      · exact h.showsAt_of_ne hx' (by omega) (by omega) (habove x' hx' y' hy') c
      · rcases Nat.lt_succ_iff_lt_or_eq.mp hx' with hlt | rfl
        · exact h.showsAt_of_ne (by omega) hy (by omega) (hleft x' hlt) c
        · exact h.showsAt_putpixel hx hy c
    intro x hx y' hy'
    rcases Nat.lt_succ_iff_lt_or_eq.mp hy' with hlt | rfl
    · exact hpainted.1 x hx y' hlt
    · exact hpainted.2 x hx
  intro x hx y hy _
  rw [fbFill_eq_putpixels]
  exact forUp_induct (P := fun n m => ∀ x < fb.width.toNat, ∀ y' < n, fb.ShowsAt m x y' c)
    (fun x _ y' hy' => absurd hy' (Nat.not_lt_zero y')) hrow x hx y hy

theorem Fb.Flat.sameBeside_fill (h : fb.Flat) (m : Mem) (c : BitVec 32) :
    fb.SameBeside m (fbFill fb m c) := by
  rw [fbFill_eq_putpixels]
  refine forUp_induct (P := fun _ m' => fb.SameBeside m m') (.refl fb m) fun y _ m' hm' => ?_
  exact forUp_induct (P := fun _ m' => fb.SameBeside m m') hm' fun x _ m'' hm'' =>
    hm''.trans (h.sameBeside_putpixel m'' x y c)

/-- A glyph at a place of the picture. -/
def Picture.stamp (p : Picture) (w h : ℕ) (rows : ℕ → ℕ → Bool) (px py : ℕ) (c : BitVec 32) :
    Picture := fun x y =>
  if px ≤ x ∧ x < px + w ∧ py ≤ y ∧ y < py + h ∧ rows (y - py) (x - px) = true then c else p x y

theorem Picture.stampRow_eq (p : Picture) (n : ℕ) (bits : ℕ → Bool) (px py : ℕ) (c : BitVec 32) :
    forUp n (fun x p => if bits x then Picture.set p (px + x) py c else p) p =
      p.stamp n 1 (fun _ => bits) px py c := by
  induction n with
  | zero =>
      funext x y
      exact (if_neg (by omega)).symm
  | succ n ih =>
      rw [forUp_succ, ih]
      funext x y
      unfold stamp
      by_cases hnew : x = px + n ∧ y = py
      · obtain ⟨rfl, rfl⟩ := hnew
        by_cases hbit : bits n = true
        · simp [set, hbit]
        · simp [hbit]
      · have hkept : (if bits n = true then
            Picture.set (p.stamp n 1 (fun _ => bits) px py c) (px + n) py c
            else p.stamp n 1 (fun _ => bits) px py c) x y =
              p.stamp n 1 (fun _ => bits) px py c x y := by
          split
          · exact if_neg hnew
          · rfl
        refine hkept.trans ?_
        unfold stamp
        congr 1
        apply propext
        constructor
        · rintro ⟨hlo, hhi, htop, hbottom, hbit⟩
          exact ⟨hlo, by omega, htop, hbottom, hbit⟩
        · rintro ⟨hlo, hhi, htop, hbottom, hbit⟩
          exact ⟨hlo, by omega, htop, hbottom, hbit⟩

theorem Picture.stamp_eq (p : Picture) (w h : ℕ) (rows : ℕ → ℕ → Bool) (px py : ℕ)
    (c : BitVec 32) : forUp h (fun y p => forUp w (fun x p =>
      if rows y x then Picture.set p (px + x) (py + y) c else p) p) p =
        p.stamp w h rows px py c := by
  induction h with
  | zero =>
      funext x y
      exact (if_neg (by omega)).symm
  | succ h ih =>
      rw [forUp_succ, ih, stampRow_eq]
      funext x y
      unfold stamp
      by_cases hrow : y = py + h
      · subst hrow
        simp
      · have hother : ¬ (px ≤ x ∧ x < px + w ∧ py + h ≤ y ∧ y < py + h + 1 ∧
            rows h (x - px) = true) := by omega
        have hsame : y < py + (h + 1) ↔ y < py + h := by omega
        simp only [if_neg hother, hsame]

section

variable (h : fb.Flat) (font : Font) (px py : ℕ) (ch : Byte) (c : BitVec 32)

include h

theorem Fb.Flat.shows_putchar (hshows : fb.Shows D m p) {rows : ℕ → ℕ → Bool}
    (hglyph : font ch = some rows) :
    fb.Shows D (fbcputchar font fb m px py ch c) (p.stamp charW charH rows px py c) := by
  rw [fbcputchar, hglyph, ← Picture.stamp_eq]
  refine forUp_rel hshows fun y _ m p hshows => forUp_rel hshows fun x _ m p hshows => ?_
  by_cases hbit : rows y x = true
  · rw [if_pos hbit, if_pos hbit]
    exact h.shows_putpixel hshows _ _ c
  · rw [if_neg hbit, if_neg hbit]
    exact hshows

theorem Fb.Flat.sameBeside_putchar (m : Mem) :
    fb.SameBeside m (fbcputchar font fb m px py ch c) := by
  unfold fbcputchar
  split
  · exact .refl fb m
  · refine forUp_induct (P := fun _ m' => fb.SameBeside m m') (.refl fb m) fun y _ m' hm' => ?_
    refine forUp_induct (P := fun _ m' => fb.SameBeside m m') hm' fun x _ m'' hm'' => ?_
    split
    · exact hm''.trans (h.sameBeside_putpixel m'' _ _ c)
    · exact hm''

end

end

end System44
