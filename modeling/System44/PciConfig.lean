import System44.PciEnumerate

/-!
# Configuration space that is written to

The registers of every function on every bus, each with the bits of it that a write can change.
`pciConfigReadDword` and `pciConfigWriteDword` reach the register that the address selects, and
`pciProbeDevice` is read here against the configuration space of all buses.
-/

namespace System44

/-- A bus, a device, a function and the offset of a double word. -/
abbrev PciReg := ℕ × ℕ × ℕ × ℕ

structure PciConfig where
  reg : PciReg → BitVec 32
  writable : PciReg → BitVec 32

def selected (address : ℕ) : PciReg :=
  (address / 2 ^ 16 % 2 ^ 8, address / 2 ^ 11 % 2 ^ 5, address / 2 ^ 8 % 2 ^ 3,
    address / 2 ^ 2 % 2 ^ 6 * 4)

namespace PciConfig

variable (s : PciConfig)

/-- A write changes the writable bits of one register. -/
def write (k : PciReg) (v : BitVec 32) : PciConfig :=
  { s with
    reg := Function.update s.reg k (s.reg k &&& ~~~s.writable k ||| v &&& s.writable k) }

/-- What is read from `CONFIG_DATA`: bit 31 of the address enables the access. -/
def readData (address : ℕ) : BitVec 32 :=
  if address / 2 ^ 31 % 2 = 1 then s.reg (selected address) else BitVec.allOnes 32

def writeData (address : ℕ) (v : BitVec 32) : PciConfig :=
  if address / 2 ^ 31 % 2 = 1 then s.write (selected address) v else s

def readDword (bus slot func offset : ℕ) : BitVec 32 :=
  s.readData (configAddress bus slot func offset)

def writeDword (bus slot func offset : ℕ) (v : BitVec 32) : PciConfig :=
  s.writeData (configAddress bus slot func offset) v

theorem configAddress_enabled (bus slot func offset : ℕ) :
    configAddress bus slot func offset / 2 ^ 31 % 2 = 1 := by
  have hbit : (configAddress bus slot func offset).testBit 31 = true := by
    rw [configAddress, Nat.testBit_or, Bool.or_eq_true]
    exact Or.inr (by decide)
  rwa [Nat.testBit_eq_decide_div_mod_eq, decide_eq_true_eq] at hbit

theorem readDword_eq (bus slot func offset : ℕ) :
    s.readDword bus slot func offset = s.reg (selected (configAddress bus slot func offset)) :=
  if_pos (configAddress_enabled bus slot func offset)

theorem writeDword_eq (bus slot func offset : ℕ) (v : BitVec 32) :
    s.writeDword bus slot func offset v =
      s.write (selected (configAddress bus slot func offset)) v :=
  if_pos (configAddress_enabled bus slot func offset)

theorem selected_configAddress {bus slot func offset : ℕ} (hbus : bus < 256) (hslot : slot < 32)
    (hfunc : func < 8) (hlt : offset < 256) (hword : offset % 4 = 0) :
    selected (configAddress bus slot func offset) = (bus, slot, func, offset) := by
  have hshift (x y n : ℕ) (hy : y < 2 ^ n) : x <<< n ||| y = x * 2 ^ n + y := by
    rw [← Nat.shiftLeft_add_eq_or_of_lt hy, Nat.shiftLeft_eq]
  have hlow := hshift func offset 8 hlt
  have hslotted := hshift slot (func * 2 ^ 8 + offset) 11 (by omega)
  have hbused := hshift bus (slot * 2 ^ 11 + (func * 2 ^ 8 + offset)) 16 (by omega)
  have haddress := calc configAddress bus slot func offset
      _ = bus <<< 16 ||| (slot <<< 11 ||| (func <<< 8 ||| offset)) ||| 2 ^ 31 := by
        rw [configAddress, and_fc_eq hlt hword]
        simp only [Nat.or_assoc, Nat.reducePow]
      _ = bus * 2 ^ 16 + (slot * 2 ^ 11 + (func * 2 ^ 8 + offset)) ||| 2 ^ 31 := by
        rw [hlow, hslotted, hbused]
      _ = bus * 2 ^ 16 + (slot * 2 ^ 11 + (func * 2 ^ 8 + offset)) + 2 ^ 31 :=
        Nat.or_two_pow_eq_add_of_lt (by omega)
  rw [selected, haddress, Prod.mk.injEq, Prod.mk.injEq, Prod.mk.injEq]
  exact ⟨by omega, by omega, by omega, by omega⟩

theorem reg_write_self (k : PciReg) (v : BitVec 32) :
    (s.write k v).reg k = s.reg k &&& ~~~s.writable k ||| v &&& s.writable k :=
  Function.update_self ..

theorem write_restore (k : PciReg) (v : BitVec 32) : (s.write k v).write k (s.reg k) = s := by
  have hkept : (s.reg k &&& ~~~s.writable k ||| v &&& s.writable k) &&& ~~~s.writable k |||
      s.reg k &&& s.writable k = s.reg k := by
    ext i hi
    simp only [BitVec.getElem_or, BitVec.getElem_and, BitVec.getElem_not]
    cases (s.reg k)[i] <;> cases (s.writable k)[i] <;> simp
  have hreg : Function.update (s.write k v).reg k
      ((s.write k v).reg k &&& ~~~s.writable k ||| s.reg k &&& s.writable k) = s.reg := by
    rw [reg_write_self, hkept, write, Function.update_idem, Function.update_eq_self]
  exact congrArg (PciConfig.mk · s.writable) hreg

end PciConfig

/-- `pciProbeDevice` on any bus. -/
def PciConfig.probeDevice (s : PciConfig) (bus dev func : ℕ) (out : PciDevice) : ℤ × PciDevice :=
  probeRecord (s.readDword bus dev func) out

namespace PciConfig

/-- The record has the base address registers and the interrupt line of the function. -/
structure Complete (s : PciConfig) (bus dev func : ℕ) (r : PciDevice) : Prop where
  bars : ∀ i : Fin 6, (r.bar i).addr = s.reg (bus, dev, func, 0x10 + 4 * i)
  line : r.intLine = (s.reg (bus, dev, func, 0x3C)).extractLsb' 0 8

def headerType (s : PciConfig) (bus dev func : ℕ) : BitVec 8 :=
  (s.reg (bus, dev, func, 0x0C)).extractLsb' 16 8

/-- The number of the layout, without the flag of devices with several functions. -/
def headerLayout (s : PciConfig) (bus dev func : ℕ) : BitVec 8 :=
  s.headerType bus dev func &&& 0x7F#8

def multiFunction (s : PciConfig) (bus dev func : ℕ) : Bool :=
  (s.headerType bus dev func).getLsbD 7

/-- The pin is read for the line, and behind the flag nothing is read at all. -/
def RecordExact (s : PciConfig) (bus dev func : ℕ) : Prop :=
  if s.multiFunction bus dev func then
    (∀ i : Fin 6, s.reg (bus, dev, func, 0x10 + 4 * i) = 0#32) ∧
      (s.reg (bus, dev, func, 0x3C)).extractLsb' 0 8 = 0#8
  else (s.reg (bus, dev, func, 0x3C)).extractLsb' 8 8 =
    (s.reg (bus, dev, func, 0x3C)).extractLsb' 0 8

instance (s : PciConfig) (bus dev func : ℕ) : Decidable (s.RecordExact bus dev func) :=
  inferInstanceAs (Decidable (ite _ _ _))

theorem byte_eq_zero_iff (b : BitVec 8) (hlayout : b &&& 0x7F#8 = 0#8) :
    b = 0#8 ↔ b.getLsbD 7 = false := by
  revert b
  decide

section

variable {s : PciConfig} {bus dev func : ℕ} (hbus : bus < 256) (hdev : dev < 32) (hfunc : func < 8)

include hbus hdev hfunc

theorem readDword_reg {offset : ℕ} (hlt : offset < 256) (hword : offset % 4 = 0) :
    s.readDword bus dev func offset = s.reg (bus, dev, func, offset) := by
  rw [readDword_eq, selected_configAddress hbus hdev hfunc hlt hword]

theorem probeDevice_present {out : PciDevice} (hpresent : (s.probeDevice bus dev func out).1 = 0) :
    (∀ i, ((s.probeDevice bus dev func out).2.bar i).addr =
      if s.headerType bus dev func = 0#8 then s.reg (bus, dev, func, 0x10 + 4 * i) else 0#32) ∧
    (s.probeDevice bus dev func out).2.intLine =
      if s.headerType bus dev func = 0#8 then (s.reg (bus, dev, func, 0x3C)).extractLsb' 8 8
      else 0#8 := by
  have hread {offset : ℕ} (hlt : offset < 256) (hword : offset % 4 = 0) :
      s.readDword bus dev func offset = s.reg (bus, dev, func, offset) :=
    readDword_reg hbus hdev hfunc hlt hword
  have hheader : (getByte (s.readDword bus dev func 0x0C) 2).setWidth 8 =
      s.headerType bus dev func := by
    rw [hread (by decide) (by decide), setWidth_getByte _ (by decide), headerType]
  have hpin : (getByte (s.readDword bus dev func 0x3C) 1).setWidth 8 =
      (s.reg (bus, dev, func, 0x3C)).extractLsb' 8 8 := by
    rw [hread (by decide) (by decide), setWidth_getByte _ (by decide)]
  unfold probeDevice probeRecord at hpresent ⊢
  dsimp only at hpresent ⊢
  split at hpresent
  · exact absurd (show (-1 : ℤ) = 0 from hpresent) (by decide)
  · rename_i hvendor
    rw [if_neg hvendor]
    by_cases hzero : s.headerType bus dev func = 0#8
    · rw [if_pos (hheader.trans hzero)]
      refine ⟨fun i => ?_, ?_⟩
      · rw [if_pos hzero]
        exact hread (by omega) (by omega)
      · rw [if_pos hzero]
        exact hpin
    · rw [if_neg fun h => hzero (hheader.symm.trans h)]
      refine ⟨fun i => ?_, ?_⟩
      · rw [if_neg hzero]
        rfl
      · rw [if_neg hzero]
        rfl

/-- The record of a function of layout 0 is complete exactly when the interrupt pin happens to be
the line, or, for a device with several functions, when everything that is left out is zero. -/
theorem record_complete_iff {out : PciDevice} (hpresent : (s.probeDevice bus dev func out).1 = 0)
    (hlayout : s.headerLayout bus dev func = 0#8) :
    s.Complete bus dev func (s.probeDevice bus dev func out).2 ↔ s.RecordExact bus dev func := by
  obtain ⟨hbars, hline⟩ := probeDevice_present hbus hdev hfunc hpresent
  have hheader : s.headerType bus dev func = 0#8 ↔ s.multiFunction bus dev func = false :=
    byte_eq_zero_iff _ hlayout
  rw [RecordExact]
  cases hmulti : s.multiFunction bus dev func with
  | true =>
      have hne : s.headerType bus dev func ≠ 0#8 := fun h =>
        Bool.false_ne_true ((hheader.mp h).symm.trans hmulti)
      rw [if_pos rfl]
      constructor
      · intro h
        refine ⟨fun i => ?_, ?_⟩
        · rw [← h.bars i, hbars i, if_neg hne]
        · rw [← h.line, hline, if_neg hne]
      · intro h
        refine ⟨fun i => ?_, ?_⟩
        · rw [hbars i, if_neg hne, h.1 i]
        · rw [hline, if_neg hne, h.2]
  | false =>
      have hzero := hheader.mpr hmulti
      rw [if_neg Bool.false_ne_true]
      constructor
      · intro h
        rw [← h.line, hline, if_pos hzero]
      · intro h
        refine ⟨fun i => ?_, ?_⟩
        · rw [hbars i, if_pos hzero]
        · rw [hline, if_pos hzero, h]

end

end PciConfig

/-- One device on bus 0 with a memory BAR, and the given header type and interrupt register. -/
def demoFunction (header interrupt : BitVec 32) : PciConfig where
  reg k :=
    if k = (0, 3, 0, 0x00) then 0x100E8086#32
    else if k = (0, 3, 0, 0x0C) then header
    else if k = (0, 3, 0, 0x10) then 0xFEBC0000#32
    else if k = (0, 3, 0, 0x3C) then interrupt
    else 0#32
  writable _ := 0#32

/-- A function that uses no interrupt. -/
theorem quietFunction_complete :
    (demoFunction 0#32 0#32).Complete 0 3 0
      ((demoFunction 0#32 0#32).probeDevice 0 3 0 PciDevice.zero).2 :=
  (PciConfig.record_complete_iff (by decide) (by decide) (by decide) (by decide)
    (by decide)).mpr (by decide)

/-- A function on pin 1 and line 11, first alone in its device and then not. -/
theorem networkFunction_not_complete :
    ((demoFunction 0x000000#32 0x10B#32).headerLayout 0 3 0 = 0#8 ∧
      ((demoFunction 0x000000#32 0x10B#32).probeDevice 0 3 0 PciDevice.zero).1 = 0 ∧
      ¬ (demoFunction 0x000000#32 0x10B#32).Complete 0 3 0
        ((demoFunction 0x000000#32 0x10B#32).probeDevice 0 3 0 PciDevice.zero).2) ∧
    (demoFunction 0x800000#32 0x10B#32).headerLayout 0 3 0 = 0#8 ∧
      ((demoFunction 0x800000#32 0x10B#32).probeDevice 0 3 0 PciDevice.zero).1 = 0 ∧
      ¬ (demoFunction 0x800000#32 0x10B#32).Complete 0 3 0
        ((demoFunction 0x800000#32 0x10B#32).probeDevice 0 3 0 PciDevice.zero).2 := by
  refine ⟨⟨by decide, by decide, fun h => ?_⟩, by decide, by decide, fun h => ?_⟩
  · exact absurd h.line (by decide)
  · exact absurd (h.bars 0) (by decide)

end System44
