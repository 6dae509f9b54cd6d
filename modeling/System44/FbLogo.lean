import System44.Fb
import System44.FbRead
import System44.Genkfs

/-!
# The logo

`fblogo` loads an image from the disk and copies it to the framebuffer, from the last of its rows
up. The two headers and the buffers of the three reads are locals, each in a memory of its own, and
hold any bytes at first.
-/

namespace System44

/-- What the locals of a call hold before it. -/
structure LogoLocals where
  fh : Mem
  ih : Mem
  temp : Fin 3 → Mem

def sizeofBmpFileHeader : BitVec 32 := 14#32
def sizeofBmpInfoHeader : BitVec 32 := 40#32

def bfType (fh : Mem) : ℕ := fh.load16 0
def bfOffBits (fh : Mem) : BitVec 32 := fh.load32 10
def biWidth (ih : Mem) : BitVec 32 := ih.load32 4
def biHeight (ih : Mem) : BitVec 32 := ih.load32 8
def biBitCount (ih : Mem) : ℕ := ih.load16 14
def biCompression (ih : Mem) : BitVec 32 := ih.load32 16

def rowSize (w : BitVec 32) : BitVec 32 := (w * 3#32 + 3#32) &&& ~~~3#32

def imgSize (w h : BitVec 32) : BitVec 32 := rowSize w * h

/-- `(img_size + 4095) / 4096`. -/
def imgPages (w h : BitVec 32) : BitVec 32 := (imgSize w h + 4095#32) / 4096#32

/-- What `fblogo` knows when it reaches its copy loop. -/
structure Logo where
  machine : Machine
  file : KfsEntry
  offBits : BitVec 32
  w : BitVec 32
  h : BitVec 32
  imgBuf : ℕ

/-- `fblogo` up to its copy loop. The entry is read anew by every call that is given it. -/
def fblogoLoad (M : Machine) (sb filename : ℕ) (v : LogoLocals) :
    Option (Except (ℤ × Machine) Logo) := do
  match ← kfsFind M.mem sb filename with
  | none => some (.error (-1, M))
  | some i =>
    let f := kfsFile sb i
    let fh ← kfsExtension0 M.disk v.fh (v.temp 0) (kfsEntry M.mem f) 0#32 0 sizeofBmpFileHeader
    if fh.result < 0 then some (.error (-2, { M with disk := fh.disk }))
    else
      let ih ← kfsExtension0 fh.disk v.ih (v.temp 1) (kfsEntry M.mem f) sizeofBmpFileHeader 0
        sizeofBmpInfoHeader
      let M := { M with disk := ih.disk }
      if ih.result < 0 then some (.error (-2, M))
      else if bfType fh.mem ≠ 0x4D42 then some (.error (-3, M))
      else if biBitCount ih.mem ≠ 24 ∨ biCompression ih.mem ≠ 0#32 then some (.error (-4, M))
      else
        let w := biWidth ih.mem
        let h := biHeight ih.mem
        let (mem, pmm, imgBuf) := pmmAlloc M.mem M.pmm (imgPages w h).toNat
        if imgBuf = 0 then some (.error (-6, ⟨mem, M.disk, pmm⟩))
        else
          let img ← kfsExtension0 M.disk mem (v.temp 2) (kfsEntry mem f) (bfOffBits fh.mem) imgBuf
            (imgSize w h)
          if img.result < 0 then
            let (mem, pmm) := pmmFree img.mem pmm imgBuf (imgPages w h).toNat
            some (.error (-5, ⟨mem, img.disk, pmm⟩))
          else some (.ok ⟨⟨img.mem, img.disk, pmm⟩, kfsEntry mem f, bfOffBits fh.mem, w, h, imgBuf⟩)

/-- `s` in row `y` of the screen, in front of pixel `x`. -/
def Logo.src (c : Logo) (y x : ℕ) : ℕ :=
  c.imgBuf + ((c.h - 1#32 - BitVec.ofNat 32 y) * rowSize c.w).toNat + 3 * x

/-- `d` in row `y`, in front of pixel `x`. -/
def logoDst (fb : Fb) (startX startY : BitVec 32) (y x : ℕ) : ℕ :=
  fb.addr.toNat + startY.toNat * fb.pitch.toNat + startX.toNat * 3 + y * fb.pitch.toNat + 3 * x

/-- How often `y < h && y < max_h` holds. -/
def Logo.rows (c : Logo) (fb : Fb) (startY : BitVec 32) : ℕ :=
  (min c.h.toInt (fb.height - startY).toInt).toNat

/-- How often `x < limit` holds. -/
def Logo.cols (c : Logo) (fb : Fb) (startX : BitVec 32) : ℕ :=
  (min c.w.toInt (fb.width - startX).toInt).toNat

/-- Three times `*d++ = *s++`. -/
def copyPixel (m : Mem) (s d : ℕ) : Mem :=
  let m := m.set d (m.get s)
  let m := m.set (d + 1) (m.get (s + 1))
  m.set (d + 2) (m.get (s + 2))

def Logo.copy (c : Logo) (fb : Fb) (startX startY : BitVec 32) : Mem :=
  forUp (c.rows fb startY) (fun y m =>
    forUp (c.cols fb startX) (fun x m => copyPixel m (c.src y x) (logoDst fb startX startY y x)) m)
    c.machine.mem

def fblogo (M : Machine) (sb : ℕ) (fb : Fb) (filename : ℕ) (startX startY : BitVec 32)
    (v : LogoLocals) : Option (ℤ × Machine) := do
  match ← fblogoLoad M sb filename v with
  | .error out => some out
  | .ok c =>
    let (mem, pmm) := pmmFree (c.copy fb startX startY) c.machine.pmm c.imgBuf
      (imgPages c.w c.h).toNat
    some (0, ⟨mem, c.machine.disk, pmm⟩)

/-- How much of the block holds bytes of the file. -/
def Logo.filled (c : Logo) : ℕ := c.file.inRange c.offBits (imgSize c.w c.h)

/-- A byte is copied from the part of the block that the file has filled to the framebuffer. -/
structure CopySafe (c : Logo) (fb : Fb) (s d : ℕ) : Prop where
  block : Mem.offset c.imgBuf s < (imgPages c.w c.h).toNat * pageSize
  filled : Mem.offset c.imgBuf s < c.filled
  screen : Mem.offset fb.addr.toNat d < fb.height.toNat * fb.pitch.toNat

/-- All the bytes of the copy loop are. -/
def LogoSafe (c : Logo) (fb : Fb) (startX startY : BitVec 32) : Prop :=
  ∀ y < c.rows fb startY, ∀ x < c.cols fb startX, ∀ k < 3,
    CopySafe c fb (c.src y x + k) (logoDst fb startX startY y x + k)

def Logo.rowStart (c : Logo) (y : ℕ) : ℕ :=
  ((c.h - 1#32 - BitVec.ofNat 32 y) * rowSize c.w).toNat

/-- The visible part of every visible row lies in the file and in the size that the image is
given. -/
def LogoFits (c : Logo) (fb : Fb) (startX startY : BitVec 32) : Prop :=
  0 < c.cols fb startX → ∀ y < c.rows fb startY,
    c.rowStart y + 3 * c.cols fb startX ≤
      min (imgSize c.w c.h).toNat (c.file.size.toNat - c.offBits.toNat)

theorem imgSize_le_block {w h : BitVec 32} (hpages : imgPages w h ≠ 0#32) :
    (imgSize w h).toNat ≤ (imgPages w h).toNat * pageSize := by
  have hlt := (imgSize w h).isLt
  have hnat : (imgPages w h).toNat ≠ 0 := fun h0 => hpages (BitVec.eq_of_toNat_eq h0)
  have hdiv : (imgPages w h).toNat = ((imgSize w h).toNat + 4095) % 2 ^ 32 / 4096 := by
    rw [imgPages, BitVec.toNat_udiv, BitVec.toNat_add]
    rfl
  rw [hdiv] at hnat ⊢
  rw [pageSize]
  omega

theorem ok_of_check {ε α : Type} {p : Prop} [Decidable p] {e : ε} {k : Option (Except ε α)} {a : α}
    (h : (if p then some (.error e) else k) = some (.ok a)) : ¬ p ∧ k = some (.ok a) := by
  by_cases hp : p
  · rw [if_pos hp] at h
    cases h
  · exact ⟨hp, (if_neg hp).symm.trans h⟩

theorem fblogoLoad_ok {M : Machine} {sb filename : ℕ} {v : LogoLocals} {c : Logo}
    (h : fblogoLoad M sb filename v = some (.ok c)) :
    c.imgBuf ≠ 0 ∧ ∃ disk mem temp out, disk.byteAt = M.disk.byteAt ∧
      pmmAlloc M.mem M.pmm (imgPages c.w c.h).toNat = (mem, c.machine.pmm, c.imgBuf) ∧
      kfsExtension0 disk mem temp c.file c.offBits c.imgBuf (imgSize c.w c.h) = some out ∧
      0 ≤ out.result ∧ c.machine.mem = out.mem ∧ c.machine.disk = out.disk := by
  rw [fblogoLoad] at h
  obtain ⟨found, -, h⟩ := Option.bind_eq_some_iff.mp h
  cases found with
  | none => cases h
  | some i =>
      obtain ⟨fh, hfh, h⟩ := Option.bind_eq_some_iff.mp h
      obtain ⟨-, h⟩ := ok_of_check h
      obtain ⟨ih, hih, h⟩ := Option.bind_eq_some_iff.mp h
      obtain ⟨-, h⟩ := ok_of_check h
      obtain ⟨-, h⟩ := ok_of_check h
      obtain ⟨-, h⟩ := ok_of_check h
      obtain ⟨hbuf, h⟩ := ok_of_check h
      obtain ⟨img, himg, h⟩ := Option.bind_eq_some_iff.mp h
      obtain ⟨hresult, h⟩ := ok_of_check h
      obtain rfl := Except.ok.inj (Option.some_inj.mp h)
      have hbyte := (kfsExtension0_byteAt hih).trans (kfsExtension0_byteAt hfh)
      exact ⟨hbuf, _, _, _, img, hbyte, rfl, himg, not_lt.mp hresult, rfl, rfl⟩

theorem fblogoLoad_pages {M : Machine} {sb filename : ℕ} {v : LogoLocals} {c : Logo}
    (h : fblogoLoad M sb filename v = some (.ok c)) : imgPages c.w c.h ≠ 0#32 := by
  obtain ⟨hbuf, disk, mem, temp, out, -, halloc, -⟩ := fblogoLoad_ok h
  intro hpages
  rw [hpages] at halloc
  exact hbuf (congrArg (fun r => r.2.2) halloc).symm

theorem fblogoLoad_filled {M : Machine} {sb filename : ℕ} {v : LogoLocals} {c : Logo}
    (h : fblogoLoad M sb filename v = some (.ok c)) {t : ℕ} (ht : t < c.filled) :
    c.machine.mem.get (c.imgBuf + t) = c.file.byte M.disk (c.offBits.toNat + t) := by
  obtain ⟨-, disk, mem, temp, out, hbyte, -, hread, hok, hmem, -⟩ := fblogoLoad_ok h
  rw [hmem, kfsExtension0_get hread hok ht, KfsEntry.byte, hbyte]
  rfl

section

variable {c : Logo} {fb : Fb} {startX startY : BitVec 32}

theorem Logo.cols_le (h : startX.toNat < fb.width.toNat) :
    startX.toNat + c.cols fb startX ≤ fb.width.toNat := by
  have hw := fb.width.isLt
  have hsub : (fb.width - startX).toNat = fb.width.toNat - startX.toNat := by
    rw [BitVec.toNat_sub]
    omega
  have hint := BitVec.toInt_eq_toNat_cond (fb.width - startX)
  rw [Logo.cols]
  split at hint <;> omega

theorem Logo.rows_le (h : startY.toNat < fb.height.toNat) :
    startY.toNat + c.rows fb startY ≤ fb.height.toNat := by
  have hh := fb.height.isLt
  have hsub : (fb.height - startY).toNat = fb.height.toNat - startY.toNat := by
    rw [BitVec.toNat_sub]
    omega
  have hint := BitVec.toInt_eq_toNat_cond (fb.height - startY)
  rw [Logo.rows]
  split at hint <;> omega

theorem logoDst_screen {y x k : ℕ} (hpitch : 3 * fb.width.toNat ≤ fb.pitch.toNat)
    (hX : startX.toNat < fb.width.toNat) (hY : startY.toNat < fb.height.toNat)
    (hy : y < c.rows fb startY) (hx : x < c.cols fb startX) (hk : k < 3) :
    Mem.offset fb.addr.toNat (logoDst fb startX startY y x + k) <
      fb.height.toNat * fb.pitch.toNat := by
  have hcols := Logo.cols_le (c := c) hX
  have hrows := Logo.rows_le (c := c) hY
  have hrow : (startY.toNat + y + 1) * fb.pitch.toNat ≤ fb.height.toNat * fb.pitch.toNat :=
    Nat.mul_le_mul_right _ (by omega)
  have hdst : logoDst fb startX startY y x + k = fb.addr.toNat +
      ((startY.toNat + y) * fb.pitch.toNat + (startX.toNat * 3 + 3 * x + k)) := by
    rw [logoDst, Nat.add_mul]
    omega
  rw [hdst, Mem.offset_add_mod]
  rw [Nat.succ_mul] at hrow
  exact (Nat.mod_le _ _).trans_lt (by omega)

theorem Logo.row_filled_iff (c : Logo) (y : ℕ) {n : ℕ} (hn : 0 < n) :
    (∀ x < n, ∀ k < 3, Mem.offset c.imgBuf (c.src y x + k) < c.filled) ↔
      c.rowStart y + 3 * n ≤ c.filled := by
  have hfilled : c.filled < 2 ^ 32 := (Nat.min_le_left _ _).trans_lt (BitVec.isLt _)
  have hstart : c.rowStart y < 2 ^ 32 := BitVec.isLt _
  have hsrc (x k : ℕ) : Mem.offset c.imgBuf (c.src y x + k) =
      (c.rowStart y + 3 * x + k) % 2 ^ 32 := by
    rw [← Mem.offset_add_mod c.imgBuf]
    congr 1
    rw [Logo.src, Logo.rowStart]
    omega
  constructor
  · intro h
    by_contra hlt
    -- the last byte, or the last one that lies below the end of the numbers
    obtain ⟨i, hi, hout⟩ : ∃ i < 3 * n, c.filled ≤ (c.rowStart y + i) % 2 ^ 32 := by
      by_cases hwrap : c.rowStart y + 3 * n ≤ 2 ^ 32
      · exact ⟨3 * n - 1, by omega, by omega⟩
      · exact ⟨2 ^ 32 - 1 - c.rowStart y, by omega, by omega⟩
    have hbyte := h (i / 3) (by omega) (i % 3) (Nat.mod_lt _ (by decide))
    rw [hsrc, Nat.add_assoc, Nat.div_add_mod] at hbyte
    omega
  · intro h x hx k hk
    rw [hsrc]
    exact (Nat.mod_le _ _).trans_lt (by omega)

/-- The copy loop is safe exactly when the visible part of every visible row lies in the file and in
the size computed for the image, which has wrapped around as the beginnings of the rows have. -/
theorem fblogo_safe_iff {M : Machine} {sb filename : ℕ} {v : LogoLocals}
    (hload : fblogoLoad M sb filename v = some (.ok c))
    (hpitch : 3 * fb.width.toNat ≤ fb.pitch.toNat) (hX : startX.toNat < fb.width.toNat)
    (hY : startY.toNat < fb.height.toNat) :
    LogoSafe c fb startX startY ↔ LogoFits c fb startX startY := by
  constructor
  · intro h hcols y hy
    apply (c.row_filled_iff y hcols).mp
    exact fun x hx k hk => (h y hy x hx k hk).filled
  · intro h y hy x hx k hk
    have hcols : 0 < c.cols fb startX := Nat.zero_lt_of_lt hx
    have hfilled := (c.row_filled_iff y hcols).mpr (h hcols y hy) x hx k hk
    have hblock := imgSize_le_block (fblogoLoad_pages hload)
    have hle : c.filled ≤ (imgSize c.w c.h).toNat := Nat.min_le_left _ _
    exact ⟨by omega, hfilled, logoDst_screen hpitch hX hY hy hx hk⟩

end

theorem and_not_add_and (v m : BitVec 32) : (v &&& ~~~m) + (v &&& m) = v := by
  rw [BitVec.add_eq_or_of_and_eq_zero]
  · ext i hi
    simp only [BitVec.getElem_or, BitVec.getElem_and, BitVec.getElem_not]
    cases v[i] <;> cases m[i] <;> rfl
  · ext i hi
    simp only [BitVec.getElem_and, BitVec.getElem_not, BitVec.getElem_zero]
    cases v[i] <;> cases m[i] <;> rfl

theorem toNat_and_not_three (v : BitVec 32) : (v &&& ~~~3#32).toNat = v.toNat / 4 * 4 := by
  have hsum := congrArg BitVec.toNat (and_not_add_and v 3#32)
  have hmod : (v &&& 3#32).toNat = v.toNat % 4 := by
    rw [BitVec.toNat_and]
    exact Nat.and_two_pow_sub_one_eq_mod v.toNat 2
  have hle : (v &&& ~~~3#32).toNat ≤ v.toNat := by
    rw [BitVec.toNat_and]
    exact Nat.and_le_left
  have hv := v.isLt
  rw [BitVec.toNat_add, hmod] at hsum
  omega

theorem toNat_rowSize {w : BitVec 32} (h : 3 * w.toNat + 3 < 2 ^ 32) :
    (rowSize w).toNat = (3 * w.toNat + 3) / 4 * 4 := by
  have hsum : (w * 3#32 + 3#32).toNat = 3 * w.toNat + 3 := by
    rw [BitVec.toNat_add, BitVec.toNat_mul]
    simp only [BitVec.toNat_ofNat]
    omega
  rw [rowSize, toNat_and_not_three, hsum]

section

variable {c : Logo} {fb : Fb} {startX startY : BitVec 32}

theorem Logo.rowStart_eq (himg : c.h.toNat * (rowSize c.w).toNat < 2 ^ 32) {y : ℕ}
    (hy : y < c.rows fb startY) : c.rowStart y = (c.h.toNat - 1 - y) * (rowSize c.w).toNat := by
  have hint := BitVec.toInt_eq_toNat_cond c.h
  have hlt : y < c.h.toNat := by
    rw [Logo.rows] at hy
    split at hint <;> omega
  have hh := c.h.isLt
  have hsub : (c.h - 1#32 - BitVec.ofNat 32 y).toNat = c.h.toNat - 1 - y := by
    rw [BitVec.toNat_sub, BitVec.toNat_sub]
    simp only [BitVec.toNat_ofNat]
    omega
  have hle : (c.h.toNat - 1 - y) * (rowSize c.w).toNat ≤ c.h.toNat * (rowSize c.w).toNat :=
    Nat.mul_le_mul_right _ (by omega)
  rw [Logo.rowStart, BitVec.toNat_mul, hsub, Nat.mod_eq_of_lt (hle.trans_lt himg)]

theorem logoFits_iff (hw : 3 * c.w.toNat + 3 < 2 ^ 32)
    (himg : c.h.toNat * (rowSize c.w).toNat < 2 ^ 32) (hcols : 0 < c.cols fb startX)
    (hrows : 0 < c.rows fb startY) : LogoFits c fb startX startY ↔
      c.offBits.toNat + (c.h.toNat - 1) * (rowSize c.w).toNat + 3 * c.cols fb startX ≤
        c.file.size.toNat := by
  constructor
  · intro h
    have hfirst := h hcols 0 hrows
    rw [c.rowStart_eq himg hrows, Nat.sub_zero] at hfirst
    omega
  · intro h _ y hy
    have hrow := toNat_rowSize hw
    have hcw : c.cols fb startX ≤ c.w.toNat := by
      have hint := BitVec.toInt_eq_toNat_cond c.w
      rw [Logo.cols]
      split at hint <;> omega
    have hh : 0 < c.h.toNat := by
      have hint := BitVec.toInt_eq_toNat_cond c.h
      rw [Logo.rows] at hrows
      split at hint <;> omega
    have hsize : (imgSize c.w c.h).toNat = (c.h.toNat - 1) * (rowSize c.w).toNat +
        (rowSize c.w).toNat := by
      rw [← Nat.succ_mul, Nat.succ_eq_add_one, Nat.sub_add_cancel hh, imgSize, BitVec.toNat_mul,
        Nat.mul_comm, Nat.mod_eq_of_lt himg]
    have hle : (c.h.toNat - 1 - y) * (rowSize c.w).toNat ≤
        (c.h.toNat - 1) * (rowSize c.w).toNat := Nat.mul_le_mul_right _ (Nat.sub_le _ _)
    rw [c.rowStart_eq himg hy]
    omega

end

def bmpHeaders (w h : BitVec 32) : List Byte :=
  [0x42#8, 0x4D#8] ++ wordBytes 0#32 ++ wordBytes 0#32 ++ wordBytes 54#32 ++ wordBytes 40#32 ++
    wordBytes w ++ wordBytes h ++ [1#8, 0#8, 24#8, 0#8] ++ wordBytes 0#32

/-- The file `a` with these headers, of `size` bytes, in sector 1; the pages from 1 on are free. -/
def logoVolume (w h size : BitVec 32) : Machine where
  mem :=
    let m := demoVolume.mem.store32 (demoSuperblock + 4) 1#32
    let m := m.set (kfsFile demoSuperblock 0) 0x61#8
    let m := m.store32 (kfsFile demoSuperblock 0 + 32) 1#32
    m.store32 (kfsFile demoSuperblock 0 + 36) size
  disk :=
    { steadyDisk with
      sector := fun s i => if s = 1 then (bmpHeaders w h).getD i 0#8 else 0#8 }
  pmm := ⟨0x50000, 8, 64, 1⟩

def blankLocals : LogoLocals := ⟨demoMachine.mem, demoMachine.mem, fun _ => demoMachine.mem⟩

/-- 1024 x 768 pixels of 24 bits. -/
def demoFb : Fb := ⟨0xE0000000#32, 1024#32, 768#32, 3072#32, 24#8⟩

def Logo.header (c : Logo) : KfsEntry × BitVec 32 × BitVec 32 × BitVec 32 :=
  (c.file, c.offBits, c.w, c.h)

theorem exists_logo {r : Option (Except (ℤ × Machine) Logo)}
    {file : KfsEntry} {offBits w h : BitVec 32}
    (heq : (r.bind Except.toOption).map Logo.header = some (file, offBits, w, h)) :
    ∃ c, r = some (.ok c) ∧ c.file = file ∧ c.offBits = offBits ∧ c.w = w ∧ c.h = h := by
  match r, heq with
  | some (.ok c), heq =>
    obtain ⟨rfl, rfl, rfl, rfl⟩ : c.file = file ∧ c.offBits = offBits ∧ c.w = w ∧ c.h = h := by
      simpa [Logo.header, Except.toOption] using heq
    exact ⟨c, rfl, rfl, rfl, rfl, rfl⟩

theorem pixelLogo_header : ((fblogoLoad (logoVolume 1#32 1#32 58#32) demoSuperblock demoName
    blankLocals).bind Except.toOption).map Logo.header =
      some (⟨1#32, 58#32⟩, 54#32, 1#32, 1#32) := by
  decide +kernel

theorem wideLogo_header : ((fblogoLoad (logoVolume 0x5555#32 65537#32 54#32) demoSuperblock demoName
    blankLocals).bind Except.toOption).map Logo.header =
      some (⟨1#32, 54#32⟩, 54#32, 0x5555#32, 65537#32) := by
  decide +kernel

/-- The one pixel of a whole file of 58 bytes is shown. -/
theorem pixelLogo_safe : ∃ c, fblogoLoad (logoVolume 1#32 1#32 58#32) demoSuperblock demoName
    blankLocals = some (.ok c) ∧ LogoSafe c demoFb 0#32 0#32 := by
  obtain ⟨c, hload, hfile, hoff, hw, hh⟩ := exists_logo pixelLogo_header
  have hcols : c.cols demoFb 0#32 = 1 := by
    rw [Logo.cols, hw]
    decide
  have hrows : c.rows demoFb 0#32 = 1 := by
    rw [Logo.rows, hh]
    decide
  refine ⟨c, hload, (fblogo_safe_iff hload (by decide) (by decide) (by decide)).mpr ?_⟩
  rw [logoFits_iff (by rw [hw]; decide) (by rw [hw, hh]; decide) (by omega) (by omega), hfile, hoff,
    hcols, hw, hh]
  decide

/-- 21845 x 65537 pixels take `2 ^ 32 + 65536` bytes, and the block has room for the 65536: the
second row on the screen is read from behind it. -/
theorem wideLogo_not_safe : ∃ c, fblogoLoad (logoVolume 0x5555#32 65537#32 54#32) demoSuperblock
    demoName blankLocals = some (.ok c) ∧
    (imgPages c.w c.h).toNat * pageSize ≤ Mem.offset c.imgBuf (c.src 1 0) ∧
    ¬ LogoSafe c demoFb 0#32 0#32 := by
  obtain ⟨c, hload, -, -, hw, hh⟩ := exists_logo wideLogo_header
  have hout : (imgPages c.w c.h).toNat * pageSize ≤ Mem.offset c.imgBuf (c.src 1 0) := by
    rw [Logo.src, Nat.add_assoc, Mem.offset_add_mod, hw, hh]
    decide
  refine ⟨c, hload, hout, fun hsafe => not_lt.mpr hout (hsafe 1 ?_ 0 ?_ 0 (by decide)).block⟩
  · rw [Logo.rows, hh]
    decide
  · rw [Logo.cols, hw]
    decide

end System44
