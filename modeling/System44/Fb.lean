import System44.ByteMemory
import System44.ForLoop

/-!
# The framebuffer

`fb` describes the picture that the boot loader has set up, and the pixels lie in memory from
`fb.addr` on, one row every `fb.pitch` bytes. `fb_fill` and `fb_putpixel` store a pixel in the
format that `fb.bpp` asks for, each with its own choice of the format.
-/

namespace System44

/-- `fb_info_t`. -/
structure Fb where
  addr : BitVec 32
  width : BitVec 32
  height : BitVec 32
  pitch : BitVec 32
  bpp : Byte

/-- The value of `fb` when the kernel starts. -/
def Fb.boot : Fb := ⟨0#32, 0#32, 0#32, 0#32, 0#8⟩

def Fb.bppBytes (fb : Fb) : ℕ := fb.bpp.toNat / 8

/-- `fb.addr + y * fb.pitch`. -/
def Fb.row (fb : Fb) (y : ℕ) : ℕ := fb.addr.toNat + y * fb.pitch.toNat

def rgb565 (r g b : Byte) : BitVec 16 :=
  (b &&& 0xF8#8).setWidth 16 <<< 8 ||| (g &&& 0xFC#8).setWidth 16 <<< 3 ||| (r >>> 3).setWidth 16

/-- The mode information lies at `vbe`. -/
def fbInit (m : Mem) (fb : Fb) (vbe : ℕ) : Fb :=
  if vbe = 0 then fb
  else
    let w := m.load16 (vbe + 0x12)
    let h := m.load16 (vbe + 0x14)
    let p := m.load16 (vbe + 0x10)
    let bpp := m.get (vbe + 0x19)
    let phys := m.load32 (vbe + 0x28)
    if w = 0 ∨ h = 0 then fb
    else
      let bpp := if bpp = 0#8 then 32#8 else bpp
      let p := if p = 0 then w * (bpp.toNat / 8) % 2 ^ 16 else p
      ⟨phys, BitVec.ofNat 32 w, BitVec.ofNat 32 h, BitVec.ofNat 32 p, bpp⟩

def fbFill (fb : Fb) (m : Mem) (color : BitVec 32) : Mem :=
  if fb.addr = 0#32 then m
  else
    forUp fb.height.toNat (fun y m =>
      let row := fb.row y
      if fb.bppBytes = 4 then
        forUp fb.width.toNat (fun x m => m.store32 (row + 4 * x) color) m
      else if fb.bppBytes = 3 then
        forUp fb.width.toNat (fun x m =>
          let px := row + x * 3
          ((m.set px (leBytes color 0)).set (px + 1) (leBytes color 1)).set (px + 2)
            (leBytes color 2)) m
      else if fb.bppBytes = 2 then
        let c16 := rgb565 (leBytes color 2) (leBytes color 1) (leBytes color 0)
        forUp fb.width.toNat (fun x m => m.store16 (row + x * 2) c16.toNat) m
      else forUp fb.width.toNat (fun x m => m.set (row + x) (leBytes color 0)) m) m

def fbPutpixel (fb : Fb) (m : Mem) (x y : ℕ) (c : BitVec 32) : Mem :=
  if fb.addr = 0#32 then m
  else if fb.width.toNat ≤ x ∨ fb.height.toNat ≤ y then m
  else
    let row := fb.row y
    if fb.bppBytes = 4 then m.store32 (row + x * 4) c
    else if fb.bppBytes = 3 then
      let px := row + x * 3
      ((m.set px (leBytes c 0)).set (px + 1) (leBytes c 1)).set (px + 2) (leBytes c 2)
    else if fb.bppBytes = 2 then
      m.store16 (row + x * 2) (rgb565 (leBytes c 2) (leBytes c 1) (leBytes c 0)).toNat
    else m.set (row + x) (leBytes c 0)

/-- Calls of `fb_putpixel` for a row, from left to right. -/
def putRow (fb : Fb) (color : BitVec 32) (y : ℕ) (m : Mem) : Mem :=
  forUp fb.width.toNat (fun x m => fbPutpixel fb m x y color) m

theorem fbPutpixel_null {fb : Fb} (h : fb.addr = 0#32) (m : Mem) (x y : ℕ) (c : BitVec 32) :
    fbPutpixel fb m x y c = m := if_pos h

section

variable {fb : Fb} (haddr : fb.addr ≠ 0#32) {x y : ℕ} (hx : x < fb.width.toNat)
  (hy : y < fb.height.toNat) (m : Mem) (c : BitVec 32)

include haddr hx hy

theorem fbPutpixel_32 (h : fb.bppBytes = 4) :
    fbPutpixel fb m x y c = m.store32 (fb.row y + 4 * x) c := by
  rw [fbPutpixel, if_neg haddr, if_neg (by omega), if_pos h, Nat.mul_comm]

theorem fbPutpixel_24 (h : fb.bppBytes = 3) :
    fbPutpixel fb m x y c = ((m.set (fb.row y + x * 3) (leBytes c 0)).set
      (fb.row y + x * 3 + 1) (leBytes c 1)).set (fb.row y + x * 3 + 2) (leBytes c 2) := by
  rw [fbPutpixel, if_neg haddr, if_neg (by omega), if_neg (by omega), if_pos h]

theorem fbPutpixel_16 (h : fb.bppBytes = 2) :
    fbPutpixel fb m x y c = m.store16 (fb.row y + x * 2)
      (rgb565 (leBytes c 2) (leBytes c 1) (leBytes c 0)).toNat := by
  rw [fbPutpixel, if_neg haddr, if_neg (by omega), if_neg (by omega), if_neg (by omega), if_pos h]

theorem fbPutpixel_8 (h4 : fb.bppBytes ≠ 4) (h3 : fb.bppBytes ≠ 3) (h2 : fb.bppBytes ≠ 2) :
    fbPutpixel fb m x y c = m.set (fb.row y + x) (leBytes c 0) := by
  rw [fbPutpixel, if_neg haddr, if_neg (by omega), if_neg h4, if_neg h3, if_neg h2]

end

/-- Filling the screen is painting every pixel of it, row by row. -/
theorem fbFill_eq_putpixels (fb : Fb) (m : Mem) (color : BitVec 32) :
    fbFill fb m color = forUp fb.height.toNat (putRow fb color) m := by
  by_cases haddr : fb.addr = 0#32
  · rw [fbFill, if_pos haddr, forUp_id]
    intro y _ m
    exact forUp_id (fun x _ m => fbPutpixel_null haddr m x y color) m
  · rw [fbFill, if_neg haddr]
    apply forUp_congr
    intro y hy m
    dsimp only
    rw [putRow]
    by_cases h4 : fb.bppBytes = 4
    · rw [if_pos h4]
      exact forUp_congr (fun x hx m => (fbPutpixel_32 haddr hx hy m color h4).symm) m
    · rw [if_neg h4]
      by_cases h3 : fb.bppBytes = 3
      · rw [if_pos h3]
        exact forUp_congr (fun x hx m => (fbPutpixel_24 haddr hx hy m color h3).symm) m
      · rw [if_neg h3]
        by_cases h2 : fb.bppBytes = 2
        · rw [if_pos h2]
          exact forUp_congr (fun x hx m => (fbPutpixel_16 haddr hx hy m color h2).symm) m
        · rw [if_neg h2]
          exact forUp_congr (fun x hx m => (fbPutpixel_8 haddr hx hy m color h4 h3 h2).symm) m

end System44
