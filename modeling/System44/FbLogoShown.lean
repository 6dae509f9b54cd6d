import System44.FbLogo
import System44.FbPicture
import System44.PmmLater

/-!
# What the logo shows

The copy loop of `fblogo` stores the bytes of the visible pixels and no others. Where the memory of
the allocator lies below the framebuffer, the pixels on the screen have the bytes of the file
afterwards, nothing else on it has changed, and the block that held the image is free again.
-/

namespace System44

section

variable {m : Mem} {s d a : ℕ}

theorem get_copyPixel_of_ne (h : ∀ k < 3, a % 2 ^ 32 ≠ (d + k) % 2 ^ 32) :
    (copyPixel m s d).get a = m.get a := by
  have h0 : a % 2 ^ 32 ≠ d % 2 ^ 32 := h 0 (by decide)
  rw [copyPixel, Mem.get_set_of_ne _ _ (h 2 (by decide)), Mem.get_set_of_ne _ _ (h 1 (by decide)),
    Mem.get_set_of_ne _ _ h0]

theorem get_copyPixel (h : ∀ j < 3, ∀ k < 3, (s + j) % 2 ^ 32 ≠ (d + k) % 2 ^ 32) {k : ℕ}
    (hk : k < 3) : (copyPixel m s d).get (d + k) = m.get (s + k) := by
  have hsecond : (m.set d (m.get s)).get (s + 1) = m.get (s + 1) :=
    Mem.get_set_of_ne _ _ (h 1 (by decide) 0 (by decide))
  have hthird : ((m.set d (m.get s)).set (d + 1) (m.get (s + 1))).get (s + 2) = m.get (s + 2) := by
    rw [Mem.get_set_of_ne _ _ (h 2 (by decide) 1 (by decide))]
    exact Mem.get_set_of_ne _ _ (h 2 (by decide) 0 (by decide))
  rw [copyPixel, hsecond, hthird]
  obtain rfl | rfl | rfl : k = 0 ∨ k = 1 ∨ k = 2 := by omega
  · have hfirst : ((m.set d (m.get s)).set (d + 1) (m.get (s + 1))).get d = m.get s := by
      rw [Mem.get_set_of_ne _ _ (by omega), Mem.get_set_self]
    exact (Mem.get_set_of_ne _ _ (by omega)).trans hfirst
  · rw [Mem.get_set_of_ne _ _ (by omega), Mem.get_set_self]
  · rw [Mem.get_set_self]

end

/-- From `m` to `m'` exactly these addresses have been stored to. -/
structure StoresTo (m m' : Mem) (S : ℕ → Prop) : Prop where
  writes : ∃ stored, m'.writes = stored ++ m.writes ∧ ∀ a, a ∈ stored ↔ S a
  frame : ∀ a, ¬ S (a % 2 ^ 32) → m'.get a = m.get a

theorem storesTo_copyPixel (m : Mem) (s d : ℕ) :
    StoresTo m (copyPixel m s d) fun a => ∃ k < 3, a = (d + k) % 2 ^ 32 := by
  refine ⟨⟨[(d + 2) % 2 ^ 32, (d + 1) % 2 ^ 32, d % 2 ^ 32], rfl, fun a => ?_⟩, fun a ha => ?_⟩
  · simp only [List.mem_cons, List.not_mem_nil, or_false]
    constructor
    · rintro (h | h | h)
      · exact ⟨2, by decide, h⟩
      · exact ⟨1, by decide, h⟩
      · exact ⟨0, by decide, h⟩
    · rintro ⟨k, hk, h⟩
      obtain rfl | rfl | rfl : k = 0 ∨ k = 1 ∨ k = 2 := by omega
      · exact Or.inr (Or.inr h)
      · exact Or.inr (Or.inl h)
      · exact Or.inl h
  · exact get_copyPixel_of_ne fun k hk heq => ha ⟨k, hk, heq⟩

/-- A loop stores to where its rounds do. -/
theorem storesTo_forUp {n : ℕ} {body : ℕ → Mem → Mem} {S : ℕ → ℕ → Prop}
    (h : ∀ i < n, ∀ m, StoresTo m (body i m) (S i)) (m : Mem) :
    StoresTo m (forUp n body m) fun a => ∃ i < n, S i a := by
  refine forUp_induct (P := fun j m' => StoresTo m m' fun a => ∃ i < j, S i a)
    ⟨⟨[], rfl, fun a => by simp⟩, fun a _ => rfl⟩ ?_
  rintro j hj m' ⟨⟨stored, hstored, hmem⟩, hframe⟩
  obtain ⟨⟨new, hnew, hround⟩, hlast⟩ := h j hj m'
  refine ⟨⟨new ++ stored, by rw [hnew, hstored, List.append_assoc], fun a => ?_⟩, fun a ha => ?_⟩
  · rw [List.mem_append, hround, hmem]
    constructor
    · rintro (hin | ⟨i, hi, hin⟩)
      · exact ⟨j, Nat.lt_succ_self j, hin⟩
      · exact ⟨i, Nat.lt_succ_of_lt hi, hin⟩
    · rintro ⟨i, hi, hin⟩
      rcases Nat.lt_succ_iff_lt_or_eq.mp hi with hlt | rfl
      · exact Or.inr ⟨i, hlt, hin⟩
      · exact Or.inl hin
  · rw [hlast a fun hin => ha ⟨j, Nat.lt_succ_self j, hin⟩]
    exact hframe a fun ⟨i, hi, hin⟩ => ha ⟨i, Nat.lt_succ_of_lt hi, hin⟩

/-- A byte of a visible pixel. -/
def Logo.Visible (c : Logo) (fb : Fb) (startX startY : BitVec 32) (a : ℕ) : Prop :=
  ∃ y < c.rows fb startY, ∃ x < c.cols fb startX, ∃ k < 3,
    a = (logoDst fb startX startY y x + k) % 2 ^ 32

section

variable {c : Logo} {fb : Fb} {startX startY : BitVec 32}

/-- The copy loop stores to the places of the visible pixels. -/
theorem Logo.storesTo_copy (c : Logo) (fb : Fb) (startX startY : BitVec 32) :
    StoresTo c.machine.mem (c.copy fb startX startY) (c.Visible fb startX startY) := by
  rw [Logo.copy]
  apply storesTo_forUp
  intro y _ m
  apply storesTo_forUp
  exact fun x _ m => storesTo_copyPixel m _ _

/-- Under `LogoSafe` the copy loop stays on the screen. -/
theorem LogoSafe.stored_onScreen (h : LogoSafe c fb startX startY) :
    ∃ stored, (c.copy fb startX startY).writes = stored ++ c.machine.mem.writes ∧
      ∀ a ∈ stored, Mem.offset fb.addr.toNat a < fb.height.toNat * fb.pitch.toNat := by
  obtain ⟨stored, hstored, hmem⟩ := (c.storesTo_copy fb startX startY).writes
  refine ⟨stored, hstored, fun a ha => ?_⟩
  obtain ⟨y, hy, x, hx, k, hk, rfl⟩ := (hmem a).mp ha
  rw [Mem.offset_congr _ (Nat.mod_mod _ (2 ^ 32))]
  exact (h y hy x hx k hk).screen

theorem logoDst_eq (hdepth : fb.depth = 3) (y x : ℕ) : logoDst fb startX startY y x =
    fb.pixel (startX.toNat + x) (startY.toNat + y) := by
  rw [logoDst, Fb.pixel, Fb.row, hdepth, Nat.add_mul, Nat.add_mul]
  omega

theorem Logo.src_add (c : Logo) (y x k : ℕ) :
    c.src y x + k = c.imgBuf + (c.rowStart y + 3 * x + k) := by
  rw [Logo.src, Logo.rowStart]
  omega

def Logo.Beside (c : Logo) (fb : Fb) : Prop :=
  ∀ t < c.filled, (c.imgBuf + t) % 2 ^ 32 < fb.addr.toNat ∨
    fb.addr.toNat + fb.height.toNat * fb.pitch.toNat ≤ (c.imgBuf + t) % 2 ^ 32

def Logo.copyRow (c : Logo) (fb : Fb) (startX startY : BitVec 32) (y : ℕ) (m : Mem) : Mem :=
  forUp (c.cols fb startX) (fun x m => copyPixel m (c.src y x) (logoDst fb startX startY y x)) m

def Logo.RowShown (c : Logo) (fb : Fb) (startX startY : BitVec 32) (m : Mem) (y n : ℕ) : Prop :=
  ∀ x < n, ∀ k < 3, m.get (fb.pixel (startX.toNat + x) (startY.toNat + y) + k) =
    c.machine.mem.get (c.src y x + k)

section

variable (hflat : fb.Flat) (hdepth : fb.depth = 3) (hX : startX.toNat < fb.width.toNat)
  (hY : startY.toNat < fb.height.toNat) (hfits : LogoFits c fb startX startY)
  (hbeside : c.Beside fb)

include hflat hdepth hX hY hfits hbeside

theorem copyPixel_shows {m : Mem} (hm : fb.SameBeside c.machine.mem m) {y x : ℕ}
    (hy : y < c.rows fb startY) (hx : x < c.cols fb startX) :
    fb.SameBeside c.machine.mem (copyPixel m (c.src y x) (logoDst fb startX startY y x)) ∧
      (∀ k < 3, (copyPixel m (c.src y x) (logoDst fb startX startY y x)).get
        (fb.pixel (startX.toNat + x) (startY.toNat + y) + k) =
          c.machine.mem.get (c.src y x + k)) ∧
      ∀ y' < c.rows fb startY, ∀ x' < c.cols fb startX, ¬ (x' = x ∧ y' = y) → ∀ k < 3,
        (copyPixel m (c.src y x) (logoDst fb startX startY y x)).get
          (fb.pixel (startX.toNat + x') (startY.toNat + y') + k) =
            m.get (fb.pixel (startX.toNat + x') (startY.toNat + y') + k) := by
  have hcols := Logo.cols_le (c := c) hX
  have hrows := Logo.rows_le (c := c) hY
  have hfit := hflat.fits
  have hpx : startX.toNat + x < fb.width.toNat := by omega
  have hpy : startY.toNat + y < fb.height.toNat := by omega
  obtain ⟨hlo, hrow, hend⟩ := hflat.pixel_bounds hpx hpy
  rw [hdepth] at hend
  rw [logoDst_eq hdepth]
  have hsrc : ∀ k < 3, (c.src y x + k) % 2 ^ 32 < fb.addr.toNat ∨
      fb.addr.toNat + fb.height.toNat * fb.pitch.toNat ≤ (c.src y x + k) % 2 ^ 32 := by
    intro k hk
    have hvisible := hfits (Nat.zero_lt_of_lt hx) y hy
    rw [c.src_add]
    exact hbeside _ (lt_of_lt_of_le (by omega) hvisible)
  refine ⟨fun a ha hout => ?_, fun k hk => ?_, fun y' hy' x' hx' hne k hk => ?_⟩
  · rw [get_copyPixel_of_ne fun k hk => by omega]
    exact hm a ha hout
  · rw [get_copyPixel (fun j hj k hk => ?_) hk, ← Mem.get_congr m (Nat.mod_mod _ (2 ^ 32)),
      ← Mem.get_congr c.machine.mem (Nat.mod_mod _ (2 ^ 32))]
    · exact hm _ (Nat.mod_lt _ (by decide)) (hsrc k hk)
    · have hj' := hsrc j hj
      omega
  · have hpx' : startX.toNat + x' < fb.width.toNat := by omega
    have hpy' : startY.toNat + y' < fb.height.toNat := by omega
    have hapart := hflat.apart hpx hpy hpx' hpy' (by omega)
    obtain ⟨-, -, hend'⟩ := hflat.pixel_bounds hpx' hpy'
    rw [hdepth] at hapart hend'
    exact get_copyPixel_of_ne fun j hj => by omega

theorem copyRow_shows {m : Mem} (hm : fb.SameBeside c.machine.mem m) {y : ℕ}
    (hy : y < c.rows fb startY)
    (hrows : ∀ y' < y, c.RowShown fb startX startY m y' (c.cols fb startX)) :
    fb.SameBeside c.machine.mem (c.copyRow fb startX startY y m) ∧
      ∀ y' < y + 1,
        c.RowShown fb startX startY (c.copyRow fb startX startY y m) y' (c.cols fb startX) := by
  have hloop : fb.SameBeside c.machine.mem (c.copyRow fb startX startY y m) ∧
      (∀ y' < y,
        c.RowShown fb startX startY (c.copyRow fb startX startY y m) y' (c.cols fb startX)) ∧
      c.RowShown fb startX startY (c.copyRow fb startX startY y m) y (c.cols fb startX) := by
    refine forUp_induct (P := fun n m => fb.SameBeside c.machine.mem m ∧
      (∀ y' < y, c.RowShown fb startX startY m y' (c.cols fb startX)) ∧
        c.RowShown fb startX startY m y n)
      ⟨hm, hrows, fun x hx => absurd hx (Nat.not_lt_zero x)⟩ ?_
    rintro x hx m ⟨hm, hbefore, hrow⟩
    obtain ⟨hsame, hpixel, hothers⟩ :=
      copyPixel_shows hflat hdepth hX hY hfits hbeside hm hy hx
    refine ⟨hsame, fun y' hy' x' hx' k hk => ?_, fun x' hx' k hk => ?_⟩
    · rw [hothers y' (hy'.trans hy) x' hx' (fun h => hy'.ne h.2) k hk]
      exact hbefore y' hy' x' hx' k hk
    · rcases Nat.lt_succ_iff_lt_or_eq.mp hx' with hlt | rfl
      · rw [hothers y hy x' (hlt.trans hx) (fun h => hlt.ne h.1) k hk]
        exact hrow x' hlt k hk
      · exact hpixel k hk
  obtain ⟨hsame, hbefore, hlast⟩ := hloop
  refine ⟨hsame, fun y' hy' => ?_⟩
  rcases Nat.lt_succ_iff_lt_or_eq.mp hy' with hlt | rfl
  · exact hbefore y' hlt
  · exact hlast

/-- The whole visible part of the image reaches the screen. -/
theorem Logo.copy_shows : fb.SameBeside c.machine.mem (c.copy fb startX startY) ∧
    ∀ y < c.rows fb startY,
      c.RowShown fb startX startY (c.copy fb startX startY) y (c.cols fb startX) := by
  rw [Logo.copy]
  refine forUp_induct (P := fun n m => fb.SameBeside c.machine.mem m ∧
    ∀ y < n, c.RowShown fb startX startY m y (c.cols fb startX))
    ⟨.refl fb _, fun y hy => absurd hy (Nat.not_lt_zero y)⟩ ?_
  rintro y hy m ⟨hm, hrows⟩
  exact copyRow_shows hflat hdepth hX hY hfits hbeside hm hy hrows

end

theorem pixel_onScreen (hflat : fb.Flat) (hdepth : fb.depth = 3)
    (hX : startX.toNat < fb.width.toNat) (hY : startY.toNat < fb.height.toNat) {y x k : ℕ}
    (hy : y < c.rows fb startY) (hx : x < c.cols fb startX) (hk : k < 3) :
    fb.addr.toNat ≤ fb.pixel (startX.toNat + x) (startY.toNat + y) + k ∧
      fb.pixel (startX.toNat + x) (startY.toNat + y) + k < 2 ^ 32 := by
  have hcols := Logo.cols_le (c := c) hX
  have hrows := Logo.rows_le (c := c) hY
  have hfit := hflat.fits
  have hpx : startX.toNat + x < fb.width.toNat := by omega
  have hpy : startY.toNat + y < fb.height.toNat := by omega
  obtain ⟨hlo, -, hend⟩ := hflat.pixel_bounds hpx hpy
  rw [hdepth] at hend
  omega

/-- The block that the image is read into. -/
def Logo.InBlock (c : Logo) (a : ℕ) : Prop :=
  c.imgBuf ≤ a ∧ a < c.imgBuf + (imgPages c.w c.h).toNat * pageSize

/-- The allocator and its bitmap, whose pages it cannot hand out, lie below the framebuffer. -/
structure LogoRoom (M : Machine) (fb : Fb) : Prop where
  bounds : PmmBounds M.pmm
  marked : ∀ a < 2 ^ 32, InBitmap M.pmm a →
    M.pmm.maxPages ≤ a / pageSize ∨ bitmapTest M.mem M.pmm (a / pageSize) = true
  bitmap_below : ∀ a < 2 ^ 32, InBitmap M.pmm a → a < fb.addr.toNat
  pages_below : M.pmm.maxPages * pageSize ≤ fb.addr.toNat

/-- What a call of `fblogo` that has shown its image leaves behind. -/
structure LogoShown (M M' : Machine) (c : Logo) (fb : Fb) (startX startY : BitVec 32) : Prop where
  pixels : ∀ y < c.rows fb startY, ∀ x < c.cols fb startX, ∀ k < 3,
    M'.mem.get (fb.pixel (startX.toNat + x) (startY.toNat + y) + k) =
      c.file.byte M.disk (c.offBits.toNat + (c.rowStart y + 3 * x + k))
  frame : ∀ a < 2 ^ 32, ¬ c.Visible fb startX startY a → ¬ c.InBlock a → ¬ InBitmap M.pmm a →
    M'.mem.get a = M.mem.get a
  bits : ∀ q < 8 * M.pmm.bitmapSize, bitmapTest M'.mem M'.pmm q = bitmapTest M.mem M.pmm q
  disk : M'.disk.byteAt = M.disk.byteAt

section

variable {M : Machine} {sb filename : ℕ} {v : LogoLocals}
  (hload : fblogoLoad M sb filename v = some (.ok c))

include hload

theorem Logo.inBlock_of_lt {t : ℕ} (ht : t < (imgSize c.w c.h).toNat) :
    c.InBlock (c.imgBuf + t) := by
  have hblock := imgSize_le_block (fblogoLoad_pages hload)
  exact ⟨Nat.le_add_right _ _, by omega⟩

variable (hroom : LogoRoom M fb)

include hroom

/-- The block is below the framebuffer and has no byte of the bitmap in it. -/
theorem Logo.block_free {a : ℕ} (ha : c.InBlock a) : a < fb.addr.toNat ∧ ¬ InBitmap M.pmm a := by
  obtain ⟨hbuf, disk, mem, temp, out, -, halloc, -⟩ := fblogoLoad_ok hload
  have hne : (pmmAlloc M.mem M.pmm (imgPages c.w c.h).toNat).2.2 ≠ 0 := by rwa [halloc]
  obtain ⟨-, -, ⟨hnull, -⟩ | ⟨page, hptr, hle, hrun, -⟩⟩ :=
    pmmAlloc_effect (m := M.mem) hroom.bounds (imgPages c.w c.h).toNat
  · exact absurd hnull hne
  · rw [halloc] at hptr
    obtain ⟨hlo, hhi⟩ := ha
    have hbelow := hroom.pages_below
    have haddr := fb.addr.isLt
    change c.imgBuf = page * pageSize at hptr
    rw [hptr] at hlo hhi
    unfold pageSize at *
    refine ⟨by omega, fun hin => ?_⟩
    have hclear := clearBit_eq_true.mp
      (hrun.free_of_mem (p := a / 4096) (by omega) (by omega))
    rcases hroom.marked a (by omega) hin with hbehind | hset
    · rw [pageSize] at hbehind
      omega
    · rw [pageSize, hclear] at hset
      cases hset

theorem Logo.beside : c.Beside fb := by
  intro t ht
  have hle : c.filled ≤ (imgSize c.w c.h).toNat := Nat.min_le_left _ _
  have hbelow := (Logo.block_free hload hroom (Logo.inBlock_of_lt hload (ht.trans_le hle))).1
  have haddr := fb.addr.isLt
  left
  omega

/-- Up to the copy loop only the block and the bitmap are stored to. -/
theorem fblogoLoad_frame {a : ℕ} (ha : a < 2 ^ 32) (hblock : ¬ c.InBlock a) :
    c.machine.mem.get a = (pmmAlloc M.mem M.pmm (imgPages c.w c.h).toNat).1.get a := by
  obtain ⟨-, disk, mem, temp, out, -, halloc, hread, hok, hmem, -⟩ := fblogoLoad_ok hload
  have hle := c.file.copied_le c.offBits (imgSize c.w c.h)
  have hsize := (imgSize c.w c.h).isLt
  rw [hmem, kfsExtension0_mem hread hok, halloc, Mem.get_blit_of_le _ _ (by omega)]
  by_contra hlt
  apply hblock
  have hback := Mem.mod_add_offset c.imgBuf a
  have hbelow := (Logo.block_free hload hroom (Logo.inBlock_of_lt hload
    (t := Mem.offset c.imgBuf a) (by omega))).1
  have haddr := fb.addr.isLt
  have hin := Logo.inBlock_of_lt hload (t := Mem.offset c.imgBuf a) (by omega)
  have hsame : c.imgBuf + Mem.offset c.imgBuf a = a := by omega
  rwa [hsame] at hin

/-- Where the visible rows are in the file, `fblogo` shows the image, row `y` from the top with row
`h - 1 - y` of the file, and leaves nothing else behind. -/
theorem fblogo_shown (hflat : fb.Flat) (hdepth : fb.depth = 3) (hX : startX.toNat < fb.width.toNat)
    (hY : startY.toNat < fb.height.toNat) (hfits : LogoFits c fb startX startY) :
    ∃ M', fblogo M sb fb filename startX startY v = some (0, M') ∧
      LogoShown M M' c fb startX startY := by
  obtain ⟨hbuf, disk, mem, temp, out, hbyte, halloc, hread, -, -, hdisk⟩ := fblogoLoad_ok hload
  have hne : (pmmAlloc M.mem M.pmm (imgPages c.w c.h).toNat).2.2 ≠ 0 := by rwa [halloc]
  have hbounds : PmmBounds c.machine.pmm := by
    have heffect := (pmmAlloc_effect (m := M.mem) hroom.bounds (imgPages c.w c.h).toNat).1
    rwa [halloc] at heffect
  obtain ⟨hint, hstatics⟩ := pmmAlloc_statics M.mem M.pmm (imgPages c.w c.h).toNat
  rw [halloc] at hstatics
  change c.machine.pmm = { M.pmm with lastFreePage := hint } at hstatics
  have hbitmap : ∀ a, InBitmap c.machine.pmm a ↔ InBitmap M.pmm a := by
    rw [hstatics]
    exact fun a => Iff.rfl
  have hkept := (c.storesTo_copy fb startX startY).frame
  refine ⟨⟨(pmmFree (c.copy fb startX startY) c.machine.pmm c.imgBuf (imgPages c.w c.h).toNat).1,
    c.machine.disk,
    (pmmFree (c.copy fb startX startY) c.machine.pmm c.imgBuf (imgPages c.w c.h).toNat).2⟩,
    by rw [fblogo, hload]; rfl, fun y hy x hx k hk => ?_, fun a ha hvisible hblock hbit => ?_,
    fun q hq => ?_, by rw [hdisk, kfsExtension0_byteAt hread, hbyte]⟩
  · obtain ⟨-, hshown⟩ := Logo.copy_shows hflat hdepth hX hY hfits (Logo.beside hload hroom)
    have hfile := fblogoLoad_filled hload (t := c.rowStart y + 3 * x + k)
      (lt_of_lt_of_le (by omega) (hfits (Nat.zero_lt_of_lt hx) y hy))
    obtain ⟨hlo, hlt⟩ := pixel_onScreen hflat hdepth hX hY hy hx hk
    rw [get_pmmFree hbounds, hshown y hy x hx k hk, c.src_add, hfile]
    intro hin
    exact absurd (hroom.bitmap_below _ hlt ((hbitmap _).mp hin)) (not_lt.mpr hlo)
  · rw [get_pmmFree hbounds _ _ _ fun hin => hbit ((hbitmap a).mp hin), hkept a,
      fblogoLoad_frame hload hroom ha hblock, get_pmmAlloc hroom.bounds _ _ hbit]
    rwa [Nat.mod_eq_of_lt ha]
  · -- neither the image nor the screen has a byte of the bitmap
    have hsame : ∀ a, InBitmap M.pmm a → (c.copy fb startX startY).get a =
        (pmmAlloc M.mem M.pmm (imgPages c.w c.h).toNat).1.get a := by
      intro a ha
      have hlt : a % 2 ^ 32 < 2 ^ 32 := Nat.mod_lt _ (by decide)
      have ha' : InBitmap M.pmm (a % 2 ^ 32) := by
        rwa [InBitmap, Mem.offset_congr _ (Nat.mod_mod a (2 ^ 32))]
      rw [hkept a, ← Mem.get_congr _ (Nat.mod_mod a (2 ^ 32)), fblogoLoad_frame hload hroom hlt,
        Mem.get_congr _ (Nat.mod_mod a (2 ^ 32))]
      · exact fun hblock => (Logo.block_free hload hroom hblock).2 ha'
      · rintro ⟨y, hy, x, hx, k, hk, heq⟩
        obtain ⟨hlo, hend⟩ := pixel_onScreen hflat hdepth hX hY hy hx hk
        rw [logoDst_eq hdepth, Nat.mod_eq_of_lt hend] at heq
        have hbelow := hroom.bitmap_below _ hlt ha'
        omega
    have hback := bitmapTest_givenBack hroom.bounds hne hsame hq
    rw [halloc] at hback
    obtain ⟨hint', hfreed⟩ := pmmFree_statics (c.copy fb startX startY) c.machine.pmm c.imgBuf
      (imgPages c.w c.h).toNat
    rw [← hback]
    apply bitmapTest_congr_bitmap
    rw [hfreed, hstatics]

end

end

/-- The one pixel of the file is in the corner of the screen. -/
theorem pixelLogo_shown : ∃ c M', fblogoLoad (logoVolume 1#32 1#32 58#32) demoSuperblock demoName
    blankLocals = some (.ok c) ∧ fblogo (logoVolume 1#32 1#32 58#32) demoSuperblock demoFb demoName
      0#32 0#32 blankLocals = some (0, M') ∧
    LogoShown (logoVolume 1#32 1#32 58#32) M' c demoFb 0#32 0#32 ∧
    c.rows demoFb 0#32 = 1 ∧ c.cols demoFb 0#32 = 1 := by
  obtain ⟨c, hload, hfile, hoff, hw, hh⟩ := exists_logo pixelLogo_header
  have hcols : c.cols demoFb 0#32 = 1 := by
    rw [Logo.cols, hw]
    decide
  have hrows : c.rows demoFb 0#32 = 1 := by
    rw [Logo.rows, hh]
    decide
  have hfits : LogoFits c demoFb 0#32 0#32 := by
    rw [logoFits_iff (by rw [hw]; decide) (by rw [hw, hh]; decide) (by omega) (by omega), hfile,
      hoff, hcols, hw, hh]
    decide
  have haddr : demoFb.addr.toNat = 0xE0000000 := rfl
  have hpmm : (logoVolume 1#32 1#32 58#32).pmm = ⟨0x50000, 8, 64, 1⟩ := rfl
  have hin : ∀ a < 2 ^ 32, InBitmap (logoVolume 1#32 1#32 58#32).pmm a →
      0x50000 ≤ a ∧ a < 0x50008 := by
    intro a ha hin
    simp only [hpmm, InBitmap, Mem.offset] at hin
    omega
  have hroom : LogoRoom (logoVolume 1#32 1#32 58#32) demoFb := by
    refine ⟨⟨by decide, by decide, by decide, by decide⟩, fun a ha hbit => Or.inl ?_,
      fun a ha hbit => ?_, by decide⟩
    · have hlo := (hin a ha hbit).1
      rw [hpmm, pageSize]
      change 64 ≤ a / 4096
      omega
    · have hhi := (hin a ha hbit).2
      omega
  obtain ⟨M', hrun, hshown⟩ := fblogo_shown hload hroom ⟨by decide, by decide, by decide⟩
    (by decide) (by decide) (by decide) hfits
  exact ⟨c, M', hload, hrun, hshown, hrows, hcols⟩

end System44
