import System44.KfsFind

/-!
# Loading a program

`uexExec` reads the first sector of the file into its own frame, finds a place for the program and
puts the image there in three steps: what is left of the first sector, the other sectors by one
transfer, and zeros up to the size in memory. The frame, with `secbuf` and `hdr`, is kept apart from
the memory the image goes to; the directory entry `f` is not, and is read again where the source
reads it again.
-/

namespace System44

structure UexHdr where
  magic : BitVec 32
  entry : BitVec 32
  loadAddr : BitVec 32
  fileSize : BitVec 32
  memSize : BitVec 32
  flags : BitVec 32
  deriving DecidableEq

/-- What the caller gets to know about the memory of the program. -/
structure UexAlloc where
  base : ℕ
  pages : ℕ
  deriving DecidableEq

/-- What a call leaves behind; `entry` and `alloc` are what it stored through its pointers. -/
structure UexExit where
  result : ℤ
  machine : Machine
  entry : Option (BitVec 32)
  alloc : Option UexAlloc

def uexMagic : BitVec 32 := 0x31555845#32
def sizeofUexHdr : ℕ := 24
def errIo : ℤ := 2
def errFormat : ℤ := 3
def errOom : ℤ := 5

/-- The header that begins with the given bytes. -/
def uexHdr (bytes : ℕ → Byte) : UexHdr where
  magic := leWord fun i => bytes i
  entry := leWord fun i => bytes (4 + i)
  loadAddr := leWord fun i => bytes (8 + i)
  fileSize := leWord fun i => bytes (12 + i)
  memSize := leWord fun i => bytes (16 + i)
  flags := leWord fun i => bytes (20 + i)

/-- `(hdr.memSize + 4095) / 4096`. -/
def UexHdr.pages (hdr : UexHdr) : ℕ := ((hdr.memSize + 4095#32) / 4096#32).toNat

/-- The choice of `dest`, which is 0 when there is no memory. -/
def uexDest (m : Mem) (p : Pmm) (hdr : UexHdr) : Mem × Pmm × ℕ :=
  if hdr.loadAddr = 0#32 then pmmAlloc m p hdr.pages else (m, p, hdr.loadAddr.toNat)

def uexAlloc (hdr : UexHdr) (dest : ℕ) : UexAlloc :=
  if hdr.loadAddr = 0#32 then ⟨dest, hdr.pages⟩ else ⟨0, 0⟩

/-- `512 - sizeof(hdr)`. -/
def firstChunk : ℕ := 512 - sizeofUexHdr

/-- The image is put to `dest`: what is behind the header in `secbuf`, the sectors, the zeros. -/
def uexLoad (m : Mem) (disk : Drive) (sb i : ℕ) (hdr : UexHdr) (secbuf : Mem) (dest : ℕ) :
    Option (ℤ × Drive × Mem) := do
  let toCopy := hdr.fileSize.toNat
  let copied := if toCopy < firstChunk then toCopy else firstChunk
  let m := m.blit dest copied fun k => secbuf.get (sizeofUexHdr + k)
  let remaining := BitVec.ofNat 32 (toCopy - copied)
  let sectors := (remaining + 511#32) / 512#32
  let transfer :=
    if copied < toCopy then
      ataReadSectors disk m (startLba m sb i + 1#32).toNat sectors.toNat (dest + copied)
    else some (errSuccess, disk, m)
  let (r, disk, m) ← transfer
  if r < 0 then some (errIo, disk, m)
  else if hdr.fileSize.toNat < hdr.memSize.toNat then
    some (errSuccess, disk, m.blit (dest + hdr.fileSize.toNat)
      (hdr.memSize.toNat - hdr.fileSize.toNat) fun _ => 0#8)
  else some (errSuccess, disk, m)

def uexEntry (hdr : UexHdr) (dest : ℕ) : BitVec 32 :=
  if hdr.loadAddr = 0#32 then BitVec.ofNat 32 dest + hdr.entry else hdr.entry

/-- The frame of a call before anything is stored in it. -/
def stackFrame : Mem := ⟨fun _ => 0#8, []⟩

/-- `wanted` tells whether the caller passes a `struct uexAlloc`. -/
def uexExec (M : Machine) (sb name : ℕ) (wanted : Bool) : Option UexExit := do
  match ← kfsFind M.mem sb name with
  | none => some ⟨errNotFound, M, none, none⟩
  | some i =>
    if (fileSize M.mem sb i).toNat < sizeofUexHdr then some ⟨errFormat, M, none, none⟩
    else
      let (r, disk, secbuf) ←
        ataReadSectors M.disk stackFrame (startLba M.mem sb i).toNat 1 0
      if r < 0 then some ⟨errIo, { M with disk := disk }, none, none⟩
      else
        let hdr := uexHdr secbuf.get
        if hdr.magic ≠ uexMagic then some ⟨errFormat, { M with disk := disk }, none, none⟩
        else
          let (m, p, dest) := uexDest M.mem M.pmm hdr
          if dest = 0 then some ⟨errOom, ⟨m, disk, p⟩, none, none⟩
          else
            let alloc := if wanted then some (uexAlloc hdr dest) else none
            let (r, disk, m) ← uexLoad m disk sb i hdr secbuf dest
            if r = errSuccess then
              some ⟨errSuccess, ⟨m, disk, p⟩, some (uexEntry hdr dest), alloc⟩
            else some ⟨r, ⟨m, disk, p⟩, none, alloc⟩

end System44
