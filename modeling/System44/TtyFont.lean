import Mathlib.Data.List.Basic
import System44.Tty

/-!
# The font of the console

The glyphs of `basic8x8`, from the space to the tilde and the backspace, with sixteen rows of nine
pixels each.
-/

namespace System44

/-- `basic8x8`: three octal digits are a row, from the top, and a bit that is set is a `#`, from the
left. -/
def basic8x8 : List (Byte × ℕ) :=
  [(0x20#8, 0o777777777777777777777777777777777777777777777777),
    (0x21#8, 0o000000000030074074074030030030000030030000000000),
    (0x22#8, 0o000000000306306306214000000000000000000000000000),
    (0x23#8, 0o000000000000154154376154154154376154154000000000),
    (0x24#8, 0o000030030174306302300174006006206306174030030000),
    (0x25#8, 0o000000000000000000304314030060140314214000000000),
    (0x26#8, 0o000000000070154154070166334314314314166000000000),
    (0x27#8, 0o000000000014014014004000000000000000000000000000),
    (0x28#8, 0o000030060140140140140140140140140060030000000000),
    (0x29#8, 0o000140060030030030030030030030030060140000000000),
    (0x2A#8, 0o000000000000000146074377074146000000000000000000),
    (0x2B#8, 0o000000000000000000000000060060374060060000000000),
    (0x2C#8, 0o000000000000000000000000000000000060060060140000),
    (0x2D#8, 0o000000000000000000000376000000000000000000000000),
    (0x2E#8, 0o000000000000000000000000000000000030030000000000),
    (0x2F#8, 0o000000000000000002006014030060140300200000000000),
    (0x30#8, 0o000000000074146303303333333303303146074000000000),
    (0x31#8, 0o000000000060160360060060060060060060374000000000),
    (0x32#8, 0o000000000174306006014030060140300306376000000000),
    (0x33#8, 0o000000000174306006006074006006006306174000000000),
    (0x34#8, 0o000000000014034074154314376014014014036000000000),
    (0x35#8, 0o000000000376300300300374006006006306174000000000),
    (0x36#8, 0o000000000070140300300374306306306306174000000000),
    (0x37#8, 0o000000000376306006006014030060060060060000000000),
    (0x38#8, 0o000000000174306306306174306306306306174000000000),
    (0x39#8, 0o000000000174306306306176006006006014170000000000),
    (0x3A#8, 0o000000000000000000030030000000000030030000000000),
    (0x3B#8, 0o000000000000000000030030000000000030030060000000),
    (0x3C#8, 0o000000000000014030060140300140060030014000000000),
    (0x3D#8, 0o000000000000000000376000000376000000000000000000),
    (0x3E#8, 0o000000000000300140060030014030060140300000000000),
    (0x3F#8, 0o000000000174306306014030030030000030030000000000),
    (0x40#8, 0o000000000000174306306336336336334300174000000000),
    (0x41#8, 0o000000000020070154306306376306306306306000000000),
    (0x42#8, 0o000000000374146146146174146146146146374000000000),
    (0x43#8, 0o000000000074146302300300300300302146074000000000),
    (0x44#8, 0o000000000370154146146146146146146154370000000000),
    (0x45#8, 0o000000000376146142150170150140142146376000000000),
    (0x46#8, 0o000000000376146142150170150140140140360000000000),
    (0x47#8, 0o000000000074146302300300336306306146072000000000),
    (0x48#8, 0o000000000306306306306376306306306306306000000000),
    (0x49#8, 0o000000000170060060060060060060060060170000000000),
    (0x4A#8, 0o000000000036014014014014014314314314170000000000),
    (0x4B#8, 0o000000000346146146154170170154146146346000000000),
    (0x4C#8, 0o000000000360140140140140140140142146376000000000),
    (0x4D#8, 0o000000000303347377377333303303303303303000000000),
    (0x4E#8, 0o000000000306346366376336316306306306306000000000),
    (0x4F#8, 0o000000000174306306306306306306306306174000000000),
    (0x50#8, 0o000000000374146146146174140140140140360000000000),
    (0x51#8, 0o000000000174306306306306306306326336174014016000),
    (0x52#8, 0o000000000374146146146174154146146146346000000000),
    (0x53#8, 0o000000000174306306140070014006306306174000000000),
    (0x54#8, 0o000000000377333231030030030030030030074000000000),
    (0x55#8, 0o000000000306306306306306306306306306174000000000),
    (0x56#8, 0o000000000303303303303303303303146074030000000000),
    (0x57#8, 0o000000000303303303303303333333377146146000000000),
    (0x58#8, 0o000000000303303146074030030074146303303000000000),
    (0x59#8, 0o000000000303303303146074030030030030074000000000),
    (0x5A#8, 0o000000000377303206014030060140301303377000000000),
    (0x5B#8, 0o000000000170140140140140140140140140170000000000),
    (0x5C#8, 0o000000000000000200300140060030014006002000000000),
    (0x5D#8, 0o000000000170030030030030030030030030170000000000),
    (0x5E#8, 0o000000020070154306000000000000000000000000000000),
    (0x5F#8, 0o000000000000000000000000000000000000000000377000),
    (0x60#8, 0o000000000000060060030000000000000000000000000000),
    (0x61#8, 0o000000000000000000170014174314314314166000000000),
    (0x62#8, 0o000000000340140140170154146146146146174000000000),
    (0x63#8, 0o000000000000000000174306300300300306174000000000),
    (0x64#8, 0o000000034014014014074154314314314314166000000000),
    (0x65#8, 0o000000000000000000174306376300300306174000000000),
    (0x66#8, 0o000000000070154144140360140140140140360000000000),
    (0x67#8, 0o000000000000000000166314314314314314174014314170),
    (0x68#8, 0o000000000340140140154166146146146146346000000000),
    (0x69#8, 0o000000000060060000160060060060060060170000000000),
    (0x6A#8, 0o000000000014014000034014014014014014014314314170),
    (0x6B#8, 0o000000000340140140146154170170154146346000000000),
    (0x6C#8, 0o000000000160060060060060060060060060170000000000),
    (0x6D#8, 0o000000000000000000346377333333333333333000000000),
    (0x6E#8, 0o000000000000000000334146146146146146146000000000),
    (0x6F#8, 0o000000000000000000174306306306306306174000000000),
    (0x70#8, 0o000000000000000000334146146146146146174140140360),
    (0x71#8, 0o000000000000000000166314314314314314174014036000),
    (0x72#8, 0o000000000000000000334166146140140140360000000000),
    (0x73#8, 0o000000000000000000174306140070014306174000000000),
    (0x74#8, 0o000000000020060060374060060060060066034000000000),
    (0x75#8, 0o000000000000000000314314314314314314166000000000),
    (0x76#8, 0o000000000000000000303303303303146074030000000000),
    (0x77#8, 0o000000000000000000303303303333333377146000000000),
    (0x78#8, 0o000000000000000000303146074030074146303000000000),
    (0x79#8, 0o000000000000000000303303303303303303176006014370),
    (0x7A#8, 0o000000000000000000376314030060140306376000000000),
    (0x7B#8, 0o000000000034060060060340060060060060034000000000),
    (0x7C#8, 0o000000000060060060060000060060060060060000000000),
    (0x7D#8, 0o000000000360030030030016030030030030360000000000),
    (0x7E#8, 0o000000000000000000000166334000000000000000000000),
    (0x08#8, 0o777777777777777777777777777777777777777777777777)]

/-- `font_get`, with the rows of the entry. -/
def fontGet : Font := fun c =>
  (basic8x8.find? fun f => f.1 = c).map fun f y x => f.2.testBit (143 - (9 * y + x))

def ink (c : Byte) (y x : ℕ) : Bool :=
  match fontGet c with
  | none => false
  | some rows => rows y x

theorem ink_block {c : Byte} (hc : c = 0x20#8 ∨ c = 0x08#8) :
    ∀ y < charH, ∀ x < charW, ink c y x = true := by
  rcases hc with rfl | rfl <;> decide +kernel

end System44
