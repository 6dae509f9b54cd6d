import System44.TtyScreen

/-!
# Rectangles in the framebuffer

`fb_rect` counts from one corner to the other with 32 bits, so if that comes before it, it goes
around their end and paints everything but what lies between the two.
-/

namespace System44

/-- `fb_rect`, whose sums and differences have 32 bits. -/
def fbRect (fb : Fb) (m : Mem) (x1 y1 x2 y2 colour : BitVec 32) : Mem :=
  forUp (x2 - x1).toNat (fun i m => forUp (y2 - y1).toNat (fun j m =>
    fbPutpixel fb m (x1 + BitVec.ofNat 32 i).toNat (y1 + BitVec.ofNat 32 j).toNat colour) m) m

/-- One of the `k` coordinates from `lo` on, around the end of the 32 bits. -/
def Within (lo : BitVec 32) (k n : ℕ) : Prop :=
  n < 2 ^ 32 ∧ (BitVec.ofNat 32 n - lo).toNat < k

instance (lo : BitVec 32) (k n : ℕ) : Decidable (Within lo k n) :=
  inferInstanceAs (Decidable (_ ∧ _))

theorem within_succ (lo : BitVec 32) {k : ℕ} (hk : k < 2 ^ 32) (n : ℕ) :
    Within lo (k + 1) n ↔ Within lo k n ∨ n = (lo + BitVec.ofNat 32 k).toNat := by
  unfold Within
  have hlo := lo.isLt
  simp only [BitVec.toNat_sub, BitVec.toNat_add, BitVec.toNat_ofNat]
  omega

theorem within_of_le {lo hi : BitVec 32} (h : lo ≤ hi) (n : ℕ) :
    Within lo (hi - lo).toNat n ↔ lo.toNat ≤ n ∧ n < hi.toNat := by
  have hle : lo.toNat ≤ hi.toNat := h
  unfold Within
  have hhi := hi.isLt
  simp only [BitVec.toNat_sub, BitVec.toNat_ofNat]
  omega

theorem within_of_lt {lo hi : BitVec 32} (h : hi < lo) (n : ℕ) :
    Within lo (hi - lo).toNat n ↔ n < 2 ^ 32 ∧ (lo.toNat ≤ n ∨ n < hi.toNat) := by
  have hlt : hi.toNat < lo.toNat := h
  unfold Within
  have hlo := lo.isLt
  simp only [BitVec.toNat_sub, BitVec.toNat_ofNat]
  omega

def Picture.rect (p : Picture) (x1 y1 : BitVec 32) (w h : ℕ) (c : BitVec 32) : Picture :=
  fun x y => if Within x1 w x ∧ Within y1 h y then c else p x y

theorem Picture.column_eq (p : Picture) (x : ℕ) (y1 : BitVec 32) {h : ℕ} (hh : h ≤ 2 ^ 32)
    (c : BitVec 32) : forUp h (fun j p => Picture.set p x (y1 + BitVec.ofNat 32 j).toNat c) p =
      fun x' y' => if x' = x ∧ Within y1 h y' then c else p x' y' := by
  induction h with
  | zero =>
      funext x' y'
      exact (if_neg fun hw => Nat.not_lt_zero _ hw.2.2).symm
  | succ h ih =>
      rw [forUp_succ, ih (by omega)]
      funext x' y'
      have hnext := within_succ y1 (k := h) (by omega) y'
      generalize (y1 + BitVec.ofNat 32 h).toNat = next at hnext ⊢
      by_cases hy : y' = next
      · by_cases hx : x' = x
        · simp [set, hx, hy, hy ▸ hnext]
        · simp [set, hx]
      · simp [set, hy, hnext]

theorem Picture.rect_eq (p : Picture) (x1 y1 : BitVec 32) {w h : ℕ} (hw : w ≤ 2 ^ 32)
    (hh : h ≤ 2 ^ 32) (c : BitVec 32) : forUp w (fun i p => forUp h (fun j p =>
      Picture.set p (x1 + BitVec.ofNat 32 i).toNat (y1 + BitVec.ofNat 32 j).toNat c) p) p =
        p.rect x1 y1 w h c := by
  induction w with
  | zero =>
      funext x y
      exact (if_neg fun hin => Nat.not_lt_zero _ hin.1.2).symm
  | succ w ih =>
      rw [forUp_succ, ih (by omega), column_eq _ _ _ hh]
      funext x y
      have hnext := within_succ x1 (k := w) (by omega) x
      unfold rect
      generalize (x1 + BitVec.ofNat 32 w).toNat = next at hnext ⊢
      by_cases hx : x = next
      · by_cases hy : Within y1 h y
        · simp [hx, hy, hx ▸ hnext]
        · simp [hy]
      · simp [hx, hnext]

section

variable {fb : Fb} {D : Region} {m : Mem} {p : Picture} (h : fb.Flat)
  (x1 y1 x2 y2 colour : BitVec 32)

include h

theorem Fb.Flat.shows_rect (hshows : fb.Shows D m p) :
    fb.Shows D (fbRect fb m x1 y1 x2 y2 colour)
      (p.rect x1 y1 (x2 - x1).toNat (y2 - y1).toNat colour) := by
  rw [← Picture.rect_eq p x1 y1 (x2 - x1).isLt.le (y2 - y1).isLt.le]
  refine forUp_rel hshows fun i _ m p hshows => forUp_rel hshows fun j _ m p hshows => ?_
  exact h.shows_putpixel hshows _ _ colour

theorem Fb.Flat.sameBeside_rect (m : Mem) :
    fb.SameBeside m (fbRect fb m x1 y1 x2 y2 colour) := by
  refine forUp_induct (P := fun _ m' => fb.SameBeside m m') (.refl fb m) fun i _ m' hm' => ?_
  exact forUp_induct (P := fun _ m' => fb.SameBeside m m') hm' fun j _ m'' hm'' =>
    hm''.trans (h.sameBeside_putpixel m'' _ _ colour)

end

/-- `fb_rect` paints the pixels from one corner up to the other, around the end of the 32 bits if
that comes before it, and changes no other byte. -/
theorem fbRect_exact {fb : Fb} (h : fb.Flat) (m : Mem) (x1 y1 x2 y2 colour : BitVec 32) :
    (∀ x < fb.width.toNat, ∀ y < fb.height.toNat,
      Within x1 (x2 - x1).toNat x → Within y1 (y2 - y1).toNat y →
        fb.ShowsAt (fbRect fb m x1 y1 x2 y2 colour) x y colour) ∧
    (∀ x < fb.width.toNat, ∀ y < fb.height.toNat,
      ¬ (Within x1 (x2 - x1).toNat x ∧ Within y1 (y2 - y1).toNat y) → ∀ k < fb.depth,
        (fbRect fb m x1 y1 x2 y2 colour).get (fb.pixel x y + k) = m.get (fb.pixel x y + k)) ∧
    fb.SameBeside m (fbRect fb m x1 y1 x2 y2 colour) := by
  obtain ⟨p, hp⟩ := fb.exists_shows m
  have hrect := h.shows_rect x1 y1 x2 y2 colour hp
  refine ⟨fun x hx y hy hinx hiny => ?_, fun x hx y hy hout k hk => ?_,
    h.sameBeside_rect x1 y1 x2 y2 colour m⟩
  · have hpixel := hrect x hx y hy trivial
    rwa [Picture.rect, if_pos ⟨hinx, hiny⟩] at hpixel
  · have hpixel := hrect x hx y hy trivial k hk
    rw [Picture.rect, if_neg hout] at hpixel
    rw [hpixel, hp x hx y hy trivial k hk]

/-- From column 10 to column 5 the rectangle goes over the right edge of the screen. -/
theorem mode118_around :
    (fbInit mode118 Fb.boot 0x7E00).ShowsAt (fbRect (fbInit mode118 Fb.boot 0x7E00) mode118 10#32
      10#32 5#32 12#32 0xFF0000#32) 1000 11 0xFF0000#32 := by
  have hcolumn : Within 10#32 (5#32 - 10#32).toNat 1000 :=
    (within_of_lt (by decide) 1000).mpr ⟨by decide, Or.inl (by decide)⟩
  have hrow : Within 10#32 (12#32 - 10#32).toNat 11 := (within_of_le (by decide) 11).mpr (by decide)
  exact (fbRect_exact mode118_flat mode118 10#32 10#32 5#32 12#32 0xFF0000#32).1 1000 (by decide) 11
    (by decide) hcolumn hrow

end System44
