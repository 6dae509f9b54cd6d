import System44.PciConfig

/-!
# Probing the base address registers

`pciProbeBars` writes ones to a register, reads back which of them it has kept and writes the old
value again. A 64-bit BAR takes two registers, the second of which the loop skips. The size that is
recorded is the low byte of the size found.
-/

namespace System44

/-- The devices and `*out`. -/
structure BarProbe where
  config : PciConfig
  out : PciDevice

namespace PciDevice

def setBar (d : PciDevice) (i : ℕ) (b : PciBar) : PciDevice :=
  { d with bar := fun j => if j.val = i then b else d.bar j }

/-- `out->bar[i]`. -/
def barNo (d : PciDevice) (i : ℕ) : PciBar := d.bar (Fin.ofNat 6 i)

/-- `out->bar[i].size = 0; out->bar[i].is_io = 0`. -/
def skipBar (d : PciDevice) (i : ℕ) : PciDevice :=
  { d with bar := fun j => if j.val = i then ⟨false, 0#8, (d.bar j).addr⟩ else d.bar j }

theorem barNo_setBar (d : PciDevice) {i j : ℕ} (hj : j < 6) (b : PciBar) :
    (d.setBar i b).barNo j = if j = i then b else d.barNo j := by
  have hval : (Fin.ofNat 6 j).val = j := Nat.mod_eq_of_lt hj
  simp only [barNo, setBar, hval]

theorem barNo_skipBar (d : PciDevice) {i j : ℕ} (hj : j < 6) :
    (d.skipBar i).barNo j = if j = i then ⟨false, 0#8, (d.barNo j).addr⟩ else d.barNo j := by
  have hval : (Fin.ofNat 6 j).val = j := Nat.mod_eq_of_lt hj
  simp only [barNo, skipBar, hval]

end PciDevice

/-- Ones are written to the register at `offset`; the result is what it then reads, and the devices
after the old value `orig` has been written back. -/
def probeOnes (config : PciConfig) (bus dev func offset : ℕ) (orig : BitVec 32) :
    BitVec 32 × PciConfig :=
  let config := config.writeDword bus dev func offset 0xFFFFFFFF#32
  let probe := config.readDword bus dev func offset
  (probe, config.writeDword bus dev func offset orig)

/-- One round of the loop, with `i` before `i++`. -/
def pciProbeBar (bus dev func : ℕ) (s : BarProbe) (i : ℕ) : BarProbe × ℕ :=
  let offset := 0x10 + i * 4
  let orig := s.config.readDword bus dev func offset
  if orig = 0#32 then ({ s with out := s.out.skipBar i }, i)
  else
    let (probe, config) := probeOnes s.config bus dev func offset orig
    if probe = 0#32 then (⟨config, s.out.skipBar i⟩, i)
    else if probe &&& 0x1#32 ≠ 0#32 then
      let size := ~~~(probe &&& 0xFFFFFFFC#32) + 1#32
      (⟨config, s.out.setBar i ⟨true, size.setWidth 8, orig &&& 0xFFFFFFFC#32⟩⟩, i)
    else if probe >>> 1 &&& 0x3#32 = 0x2#32 ∧ i + 1 < 6 then
      let nextOffset := 0x10 + (i + 1) * 4
      let origHi := config.readDword bus dev func nextOffset
      let (probeHi, config) := probeOnes config bus dev func nextOffset origHi
      let fullProbe := probeHi.setWidth 64 <<< 32 ||| probe.setWidth 64
      let mask := ~~~(fullProbe &&& ~~~0xF#64)
      let size := mask + 1#64
      let fullOrig := origHi.setWidth 64 <<< 32 ||| orig.setWidth 64
      let bar := ⟨false, (size.setWidth 32).setWidth 8, (fullOrig &&& ~~~0xF#64).setWidth 32⟩
      (⟨config, (s.out.setBar i bar).setBar (i + 1) ⟨false, 0#8, 0#32⟩⟩, i + 1)
    else
      let mask := ~~~(probe &&& 0xFFFFFFF0#32)
      let size := mask + 1#32
      (⟨config, s.out.setBar i ⟨false, size.setWidth 8, orig &&& 0xFFFFFFF0#32⟩⟩, i)

def pciProbeBarsLoop (bus dev func : ℕ) : ℕ → BarProbe → ℕ → BarProbe
  | 0, s, _ => s
  | n + 1, s, i =>
    if i < 6 then
      let (s, i) := pciProbeBar bus dev func s i
      pciProbeBarsLoop bus dev func n s (i + 1)
    else s

def pciProbeBars (config : PciConfig) (bus dev func : ℕ) (out : PciDevice) : BarProbe :=
  pciProbeBarsLoop bus dev func 6 ⟨config, out⟩ 0

section

variable (bus dev func : ℕ)

def barReg (offset : ℕ) : PciReg := selected (configAddress bus dev func offset)

theorem probeOnes_eq (config : PciConfig) (offset : ℕ) :
    probeOnes config bus dev func offset (config.readDword bus dev func offset) =
      ((config.write (barReg bus dev func offset) 0xFFFFFFFF#32).reg (barReg bus dev func offset),
        config) := by
  rw [probeOnes, PciConfig.writeDword_eq, PciConfig.readDword_eq, PciConfig.readDword_eq,
    PciConfig.writeDword_eq]
  exact congrArg _ (config.write_restore _ _)

theorem pciProbeBar_config (s : BarProbe) (i : ℕ) :
    (pciProbeBar bus dev func s i).1.config = s.config := by
  rw [pciProbeBar]
  simp only [probeOnes_eq]
  repeat' split
  all_goals rfl

theorem pciProbeBarsLoop_config (n : ℕ) (s : BarProbe) (i : ℕ) :
    (pciProbeBarsLoop bus dev func n s i).config = s.config := by
  induction n generalizing s i with
  | zero => rfl
  | succ n ih =>
      rw [pciProbeBarsLoop]
      split
      · exact (ih _ _).trans (pciProbeBar_config bus dev func s i)
      · rfl

/-- Probing leaves every register of every function as it was. -/
theorem pciProbeBars_restores (config : PciConfig) (out : PciDevice) (k : PciReg) :
    (pciProbeBars config bus dev func out).config.reg k = config.reg k := by
  rw [pciProbeBars, pciProbeBarsLoop_config]

end

end System44
