import System44.Cursor
import Mathlib.Data.Nat.Bitwise

/-!
# PCI configuration space and its enumeration

Configuration space is read through two ports: the address of a register is written to one and its
value is read from the other. A `PciSpace` is what the functions on bus 0 answer, and
`pciConfigReadDword`, `pciProbeDevice` and `pciEnumerate` read it as the driver does.
-/

namespace System44

/-- The double word of a device, a function and a register, the latter by its offset in bytes. -/
abbrev PciSpace := ℕ → ℕ → ℕ → BitVec 32

structure PciBar where
  isIo : Bool
  size : BitVec 8
  addr : BitVec 32

/-- `pci_Device`. -/
structure PciDevice where
  bar : Fin 6 → PciBar
  vendor : BitVec 16
  device : BitVec 16
  status : BitVec 16
  command : BitVec 16
  headerType : BitVec 8
  classCode : BitVec 8
  subclass : BitVec 8
  progIf : BitVec 8
  intLine : BitVec 8

structure PciOut where
  pci : PciDevice
  bus : ℕ
  dev : ℕ
  func : ℕ

/-- What `pciConfigReadDword` writes to `CONFIG_ADDRESS`. -/
def configAddress (bus slot func offset : ℕ) : ℕ :=
  bus <<< 16 ||| slot <<< 11 ||| func <<< 8 ||| (offset &&& 0xFC) ||| 0x80000000

/-- What is then read from `CONFIG_DATA`: there is no device on another bus than 0. -/
def configData (space : PciSpace) (address : ℕ) : BitVec 32 :=
  if address / 2 ^ 31 % 2 = 1 ∧ address / 2 ^ 16 % 2 ^ 8 = 0 then
    space (address / 2 ^ 11 % 2 ^ 5) (address / 2 ^ 8 % 2 ^ 3) (address / 2 ^ 2 % 2 ^ 6 * 4)
  else BitVec.allOnes 32

def pciConfigReadDword (space : PciSpace) (bus slot func offset : ℕ) : BitVec 32 :=
  configData space (configAddress bus slot func offset)

def getByte (dword : BitVec 32) (offset : ℕ) : BitVec 32 :=
  dword >>> ((offset &&& 3) * 8) &&& 0xFF#32

def getWord (dword : BitVec 32) (offset : ℕ) : BitVec 32 :=
  dword >>> ((offset &&& 2) * 8) &&& 0xFFFF#32

/-- `pci_Device pci = {0}`. -/
def PciDevice.zero : PciDevice :=
  ⟨fun _ => ⟨false, 0#8, 0#32⟩, 0#16, 0#16, 0#16, 0#16, 0#8, 0#8, 0#8, 0#8, 0#8⟩

/-- The body of `pciProbeDevice`, over the double words that it reads: the return value, and `*out`
afterwards. -/
def probeRecord (read : ℕ → BitVec 32) (out : PciDevice) : ℤ × PciDevice :=
  let pci := { PciDevice.zero with
    vendor := (getWord (read 0x00) 0).setWidth 16
    device := (getWord (read 0x00) 2).setWidth 16 }
  if pci.vendor = 0xFFFF#16 then (-1, out)
  else
    let pci := { pci with
      status := (getWord (read 0x04) 2).setWidth 16
      command := (getWord (read 0x04) 0).setWidth 16
      classCode := (getByte (read 0x08) 3).setWidth 8
      subclass := (getByte (read 0x08) 2).setWidth 8
      progIf := (getByte (read 0x08) 1).setWidth 8
      headerType := (getByte (read 0x0C) 2).setWidth 8 }
    if pci.headerType = 0#8 then
      (0, { pci with
        bar := fun i => { pci.bar i with addr := read (0x10 + 4 * i) }
        intLine := (getByte (read 0x3C) 1).setWidth 8 })
    else (0, pci)

def pciProbeDevice (space : PciSpace) (bus dev func : ℕ) (out : PciDevice) : ℤ × PciDevice :=
  probeRecord (pciConfigReadDword space bus dev func) out

/-- The locals of `pciEnumerate`, and the array it fills. -/
structure PciEnum where
  device : PciDevice
  records : Cursor PciOut

/-- `out[out_pos++] = (struct pci_Out){ .pci = device, .bus = bus, .dev = dev, .func = func }`. -/
def PciEnum.record (s : PciEnum) (dev func : ℕ) : PciEnum :=
  { s with records := s.records.push ⟨s.device, 0, dev, func⟩ }

def probeFunction (space : PciSpace) (dev : ℕ) (s : PciEnum) (f : ℕ) : PciEnum :=
  let (r, device) := pciProbeDevice space 0 dev f s.device
  let s := { s with device := device }
  if r ≠ 0 then s else s.record dev f

def probeSlot (space : PciSpace) (s : PciEnum) (dev : ℕ) : PciEnum :=
  let (r, device) := pciProbeDevice space 0 dev 0 s.device
  let s := { s with device := device }
  if r ≠ 0 then s
  else
    let s := s.record dev 0
    if s.device.headerType &&& 0x80#8 ≠ 0#8 then
      (List.range' 1 7).foldl (probeFunction space dev) s
    else s

/-- `device` is what the uninitialised local of that name holds at first. -/
def pciEnumerate (space : PciSpace) (device : PciDevice) (out : ℕ → PciOut) : PciEnum :=
  (List.range 32).foldl (probeSlot space) ⟨device, ⟨out, 0⟩⟩

end System44
