import System44.ByteMemory
import Mathlib.Logic.Function.Basic

/-!
# The ATA driver and the disk it polls

The disk is a device behind eight ports. After every command and after every sector that it has
transferred it is busy for a while and then answers with a status that stays until the driver acts;
`reply n` is the answer to the `n`-th such event, so one `Drive` fixes one behaviour of the disk and
a statement about every `Drive` is one about every behaviour. Status bits that the driver never
tests are left out.

The driver itself is `ata_read_sectors` and `ata_write_sectors`, down to the port accesses, with the
pointer as the string instructions leave it. A loop that waits for a bit that never comes has no
result.
-/

namespace System44

abbrev Sector := Fin 512 → Byte

def Sector.byte (s : Sector) (i : ℕ) : Byte := s (Fin.ofNat 512 i)

/-- The sector whose bytes lie at `buf`. -/
def sectorAt (m : Mem) (buf : ℕ) : Sector := fun i => m.get (buf + i)

/-- The disk's answer to a command or to a transferred sector: how many status reads find it busy
and how many more find nothing, then the status, and whether the sector that is written in return
is really stored. -/
structure Reply where
  busy : ℕ
  pause : ℕ
  drq : Bool
  err : Bool
  kept : Bool
  deriving DecidableEq

structure Drive where
  sector : ℕ → Sector
  reply : ℕ → Reply
  serial : ℕ
  busy : ℕ
  pause : ℕ
  left : ℕ
  cur : ℕ
  driveHead : Byte
  seccount : Byte
  lbaLo : Byte
  lbaMid : Byte
  lbaHi : Byte
  /-- The sectors stored so far, newest first. -/
  accepted : List (ℕ × Sector)

def ataPrimarySeccount : ℕ := 0x1F2
def ataPrimaryLbaLo : ℕ := 0x1F3
def ataPrimaryLbaMid : ℕ := 0x1F4
def ataPrimaryLbaHi : ℕ := 0x1F5
def ataPrimaryDrive : ℕ := 0x1F6
def ataPrimaryCommand : ℕ := 0x1F7
def ataCmdReadSectors : Byte := 0x20#8
def ataCmdWriteSectors : Byte := 0x30#8
def ataStatusBsy : Byte := 0x80#8
def ataStatusDrq : Byte := 0x08#8
def ataStatusErr : Byte := 0x01#8

def errFailed : ℤ := -1

/-- Sector numbers have 28 bits. -/
def lbaLimit : ℕ := 2 ^ 28

namespace Drive

def status (d : Drive) : Byte :=
  if 0 < d.busy then ataStatusBsy
  else if 0 < d.pause then 0#8
  else (if (d.reply d.serial).drq ∧ 0 < d.left then ataStatusDrq else 0#8) |||
    if (d.reply d.serial).err then ataStatusErr else 0#8

def polled (d : Drive) : Drive :=
  if 0 < d.busy then { d with busy := d.busy - 1 }
  else if 0 < d.pause then { d with pause := d.pause - 1 }
  else d

def inbStatus (d : Drive) : Byte × Drive := (d.status, d.polled)

/-- The disk begins to work on its next answer. -/
def next (d : Drive) : Drive :=
  { d with
    serial := d.serial + 1
    busy := (d.reply (d.serial + 1)).busy
    pause := (d.reply (d.serial + 1)).pause }

def lbaReg (d : Drive) : ℕ :=
  d.driveHead.toNat % 16 * 2 ^ 24 + d.lbaHi.toNat * 2 ^ 16 + d.lbaMid.toNat * 2 ^ 8 + d.lbaLo.toNat

/-- A count register of zero asks for 256 sectors. -/
def start (d : Drive) : Drive :=
  { d.next with
    cur := d.lbaReg
    left := if d.seccount = 0#8 then 256 else d.seccount.toNat }

def outb (d : Drive) (port : ℕ) (data : Byte) : Drive :=
  if port = ataPrimarySeccount then { d with seccount := data }
  else if port = ataPrimaryLbaLo then { d with lbaLo := data }
  else if port = ataPrimaryLbaMid then { d with lbaMid := data }
  else if port = ataPrimaryLbaHi then { d with lbaHi := data }
  else if port = ataPrimaryDrive then { d with driveHead := data }
  else if port = ataPrimaryCommand ∧ (data = ataCmdReadSectors ∨ data = ataCmdWriteSectors) then
    d.start
  else d

def transferred (d : Drive) : Drive :=
  { d.next with cur := (d.cur + 1) % lbaLimit, left := d.left - 1 }

/-- The disk after a sector has been written. -/
def stored (d : Drive) (s : Sector) : Drive :=
  if (d.reply d.serial).kept then
    { d.transferred with
      sector := Function.update d.sector d.cur s
      accepted := (d.cur, s) :: d.accepted }
  else d.transferred

/-- `insw(ATA_PRIMARY_DATA, buf, 256)`. `rep insw` leaves the pointer behind the last word, and
the register that holds it is the caller's. -/
def insw (d : Drive) (m : Mem) (buf : ℕ) : Drive × Mem × ℕ :=
  (d.transferred, m.blit buf 512 (d.sector d.cur).byte, buf + 512)

/-- `outsw(ATA_PRIMARY_DATA, buf, 256)`, which leaves the pointer behind the sector too. -/
def outsw (d : Drive) (m : Mem) (buf : ℕ) : Drive × ℕ := (d.stored (sectorAt m buf), buf + 512)

end Drive

def pollUntil (done : Byte → Bool) : ℕ → Drive → Option Drive
  | 0, _ => none
  | fuel + 1, d =>
    let (status, d) := d.inbStatus
    if done status then some d else pollUntil done fuel d

/-- From then on the status no longer changes. -/
def Drive.patience (d : Drive) : ℕ := d.busy + d.pause + 1

def ataWaitBusy (d : Drive) : Option Drive :=
  pollUntil (fun status => status &&& ataStatusBsy == 0#8) d.patience d

def ataWaitDrq (d : Drive) : Option Drive :=
  pollUntil (fun status => status &&& ataStatusDrq != 0#8) d.patience d

def ataCommand (d : Drive) (lba count : ℕ) (command : Byte) : Drive :=
  let d := d.outb ataPrimaryDrive (0xE0#8 ||| BitVec.ofNat 8 (lba / 2 ^ 24 % 16))
  let d := d.outb ataPrimarySeccount (BitVec.ofNat 8 count)
  let d := d.outb ataPrimaryLbaLo (BitVec.ofNat 8 lba)
  let d := d.outb ataPrimaryLbaMid (BitVec.ofNat 8 (lba / 2 ^ 8))
  let d := d.outb ataPrimaryLbaHi (BitVec.ofNat 8 (lba / 2 ^ 16))
  d.outb ataPrimaryCommand command

/-- Wait for the next sector; the flag is the `ERR` bit of the status then. -/
def ataWaitSector (d : Drive) : Option (Bool × Drive) := do
  let d ← ataWaitBusy d
  let d ← ataWaitDrq d
  let (status, d) := d.inbStatus
  pure (status &&& ataStatusErr != 0#8, d)

/-- The transfer loop of `ata_read_sectors`; the flag tells whether it ran to its end. `buf += 256`
comes on top of what `insw` has added, so the sectors go to places 1024 bytes apart. -/
def readLoop : ℕ → Drive → Mem → ℕ → Option (Bool × Drive × Mem)
  | 0, d, m, _ => some (true, d, m)
  | n + 1, d, m, buf => do
    let (err, d) ← ataWaitSector d
    if err then some (false, d, m)
    else
      let (d, m, buf) := d.insw m buf
      readLoop n d m (buf + 512)

/-- The transfer loop of `ata_write_sectors`. -/
def writeLoop : ℕ → Drive → Mem → ℕ → Option (Bool × Drive)
  | 0, d, _, _ => some (true, d)
  | n + 1, d, m, buf => do
    let (err, d) ← ataWaitSector d
    if err then some (false, d)
    else
      let (d, buf) := d.outsw m buf
      writeLoop n d m (buf + 512)

/-- The count is passed as a `uint8_t`. -/
def ataReadSectors (d : Drive) (m : Mem) (lba count buffer : ℕ) : Option (ℤ × Drive × Mem) := do
  let count := count % 2 ^ 8
  if count = 0 then some (errFailed, d, m)
  else
    let d ← ataWaitBusy d
    let d := ataCommand d lba count ataCmdReadSectors
    let (done, d, m) ← readLoop count d m buffer
    if done then some (count, d, m) else some (errFailed, d, m)

def ataWriteSectors (d : Drive) (m : Mem) (lba count buffer : ℕ) : Option (ℤ × Drive) := do
  let count := count % 2 ^ 8
  if count = 0 then some (errFailed, d)
  else
    let d ← ataWaitBusy d
    let d := ataCommand d lba count ataCmdWriteSectors
    let (done, d) ← writeLoop count d m buffer
    if done then some (count, d) else some (errFailed, d)

end System44
