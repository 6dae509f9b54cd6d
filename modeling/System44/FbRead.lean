import System44.KfsLayout

/-!
# Reading a part of a file

`kfsExtension0` of the framebuffer driver copies a range of a file to `buf`, one sector at a time
by way of its own buffer `temp`. The directory entry is read before anything is stored, and `temp`
lies in no memory but its own.
-/

namespace System44

/-- `start_lba` and `size` of `struct kfs_file`. -/
structure KfsEntry where
  startLba : BitVec 32
  size : BitVec 32
  deriving DecidableEq

def kfsEntry (m : Mem) (f : ℕ) : KfsEntry := ⟨m.load32 (f + 32), m.load32 (f + 36)⟩

/-- The variables of the loop; `sectors` lists the sectors that have been asked for. -/
structure Reading where
  disk : Drive
  mem : Mem
  temp : Mem
  sector : BitVec 32
  sectorOffset : ℕ
  remaining : ℕ
  p : ℕ
  sectors : List (BitVec 32)

def Reading.copyLen (s : Reading) : ℕ :=
  if s.remaining < 512 - s.sectorOffset then s.remaining else 512 - s.sectorOffset

def Reading.copy (s : Reading) (disk : Drive) (temp : Mem) : Reading where
  disk := disk
  mem := s.mem.blit s.p s.copyLen fun i => temp.get (s.sectorOffset + i)
  temp := temp
  sector := s.sector + 1#32
  sectorOffset := 0
  remaining := s.remaining - s.copyLen
  p := s.p + s.copyLen
  sectors := s.sectors ++ [s.sector]

/-- The result, and what the call leaves behind. -/
structure Ranged where
  result : ℤ
  disk : Drive
  mem : Mem
  sectors : List (BitVec 32)

def kfsExtension0Loop : ℕ → Reading → Option Ranged
  | 0, s => if s.remaining = 0 then some ⟨0, s.disk, s.mem, s.sectors⟩ else none
  | fuel + 1, s => do
    if s.remaining = 0 then some ⟨0, s.disk, s.mem, s.sectors⟩
    else
      let (r, disk, temp) ← ataReadSectors s.disk s.temp s.sector.toNat 1 0
      if r < 0 then some ⟨-1, disk, s.mem, s.sectors ++ [s.sector]⟩
      else kfsExtension0Loop fuel (s.copy disk temp)

/-- `if(offset + size > f->size) size = f->size - offset`. -/
def KfsEntry.clamp (f : KfsEntry) (offset size : BitVec 32) : BitVec 32 :=
  if f.size < offset + size then f.size - offset else size

def firstReading (disk : Drive) (mem temp : Mem) (f : KfsEntry) (offset : BitVec 32) (buf : ℕ)
    (size : BitVec 32) : Reading where
  disk := disk
  mem := mem
  temp := temp
  sector := f.startLba + offset / 512#32
  sectorOffset := (offset % 512#32).toNat
  remaining := size.toNat
  p := buf
  sectors := []

/-- `mem` holds `buf`. -/
def kfsExtension0 (disk : Drive) (mem temp : Mem) (f : KfsEntry) (offset : BitVec 32) (buf : ℕ)
    (size : BitVec 32) : Option Ranged :=
  if f.size ≤ offset then some ⟨0, disk, mem, []⟩
  else
    let size := f.clamp offset size
    kfsExtension0Loop size.toNat (firstReading disk mem temp f offset buf size)

theorem byteAt_add_ofNat (d : Drive) (sector : BitVec 32) (j i : ℕ) :
    d.byteAt (sector + BitVec.ofNat 32 j).toNat i = d.byteAt sector.toNat (512 * j + i) := by
  have hlba : ((sector + BitVec.ofNat 32 j).toNat + i / 512) % lbaLimit =
      (sector.toNat + (512 * j + i) / 512) % lbaLimit := by
    rw [BitVec.toNat_add, BitVec.toNat_ofNat, lbaLimit]
    omega
  rw [Drive.byteAt, Drive.byteAt, hlba]
  exact Sector.byte_congr _ (by omega)

namespace Reading

/-- Not behind the end of a sector, and no more than 32 bits to go. -/
structure Sound (s : Reading) : Prop where
  sectorOffset : s.sectorOffset < 512
  remaining : s.remaining < 2 ^ 32

/-- The bytes from where the reading stands. -/
def byte (s : Reading) (i : ℕ) : Byte := s.disk.byteAt s.sector.toNat (s.sectorOffset + i)

def Ahead (s : Reading) (t : BitVec 32) : Prop :=
  ∃ j, 512 * j < s.sectorOffset + s.remaining ∧ t = s.sector + BitVec.ofNat 32 j

theorem copyLen_le (s : Reading) : s.copyLen ≤ s.remaining ∧ s.copyLen ≤ 512 - s.sectorOffset := by
  rw [copyLen]
  split <;> omega

theorem copyLen_pos {s : Reading} (h : s.Sound) (hrem : s.remaining ≠ 0) : 0 < s.copyLen := by
  have hoff := h.sectorOffset
  rw [copyLen]
  split <;> omega

theorem copyLen_cases (s : Reading) :
    s.copyLen = s.remaining ∨ s.copyLen = 512 - s.sectorOffset := by
  rw [copyLen]
  split
  · exact Or.inl rfl
  · exact Or.inr rfl

theorem Sound.copy {s : Reading} (h : s.Sound) (disk : Drive) (temp : Mem) :
    (s.copy disk temp).Sound where
  sectorOffset := Nat.zero_lt_succ 511
  remaining := Nat.lt_of_le_of_lt (Nat.sub_le _ _) h.remaining

theorem Ahead.first {s : Reading} (h : s.remaining ≠ 0) : s.Ahead s.sector :=
  ⟨0, by omega, (BitVec.add_zero _).symm⟩

theorem Ahead.of_copy {s : Reading} {disk : Drive} {temp : Mem} {t : BitVec 32}
    (h : (s.copy disk temp).Ahead t) (hs : s.Sound) : s.Ahead t := by
  obtain ⟨j, hj, ht⟩ := h
  have hoff := hs.sectorOffset
  have hlen := s.copyLen_cases
  refine ⟨j + 1, ?_, ?_⟩
  · change 512 * j < 0 + (s.remaining - s.copyLen) at hj
    omega
  · rw [ht, BitVec.ofNat_add, BitVec.add_comm (BitVec.ofNat 32 j), ← BitVec.add_assoc]
    rfl

theorem blit_copy {s : Reading} {disk : Drive} {temp : Mem} (hs : s.Sound)
    (hdisk : disk.byteAt = s.disk.byteAt)
    (htemp : ∀ i < 512, temp.get i = s.disk.byteAt s.sector.toNat i) :
    (s.copy disk temp).mem.blit (s.copy disk temp).p (s.copy disk temp).remaining
      (s.copy disk temp).byte = s.mem.blit s.p s.remaining s.byte := by
  have hle := s.copyLen_le
  have hlen := s.copyLen_cases
  have hoff := hs.sectorOffset
  have hsum : s.copyLen + (s.remaining - s.copyLen) = s.remaining := by omega
  simp only [copy]
  rw [Mem.blit_blit, hsum]
  apply Mem.blit_congr
  intro i hi
  by_cases hcopied : i < s.copyLen
  · rw [if_pos hcopied, htemp _ (by omega)]
    rfl
  · have hat : 512 * 1 + (0 + (i - s.copyLen)) = s.sectorOffset + i := by omega
    rw [if_neg hcopied, byte, byte, hdisk, byteAt_add_ofNat, hat]

end Reading

theorem ataReadSectors_one {d disk : Drive} {m temp : Mem} {lba : ℕ} {r : ℤ}
    (h : ataReadSectors d m lba 1 0 = some (r, disk, temp)) :
    disk.byteAt = d.byteAt ∧ disk.reply = d.reply ∧
      (0 ≤ r → ∀ i < 512, temp.get i = d.byteAt lba i) := by
  obtain ⟨hr, hunw, hmem⟩ := ataReadSectors_some h
  refine ⟨hunw.byteAt, hunw.reply, fun hok i hi => ?_⟩
  have hpassed : d.passed 1 = 1 := by
    rw [hr, Drive.answer] at hok
    by_contra hne
    rw [if_neg fun hall => hne hall.2] at hok
    exact absurd hok (by decide)
  rw [hpassed] at hmem
  have hget := Mem.get_blit_add m 0 (d.byteAt lba) (n := 512) (by decide) hi
  rw [hmem, ← hget, Nat.zero_add, Mem.blitBlocks_one]

/-- What the loop has done when it ends. -/
structure Reading.Ends (s : Reading) (out : Ranged) : Prop where
  byteAt : out.disk.byteAt = s.disk.byteAt
  sectors : ∀ t ∈ out.sectors, t ∈ s.sectors ∨ s.Ahead t
  mem : 0 ≤ out.result → out.mem = s.mem.blit s.p s.remaining s.byte

theorem Reading.ends_done {s : Reading} (h0 : s.remaining = 0) :
    s.Ends ⟨0, s.disk, s.mem, s.sectors⟩ where
  byteAt := rfl
  sectors t ht := Or.inl ht
  mem _ := by rw [h0, Mem.blit_zero]

theorem Reading.ends_failed {s : Reading} (h0 : s.remaining ≠ 0) {disk : Drive}
    (hdisk : disk.byteAt = s.disk.byteAt) :
    s.Ends ⟨-1, disk, s.mem, s.sectors ++ [s.sector]⟩ where
  byteAt := hdisk
  sectors t ht := by
    rcases List.mem_append.mp ht with ht | ht
    · exact Or.inl ht
    · exact Or.inr (List.mem_singleton.mp ht ▸ Reading.Ahead.first h0)
  mem hok := absurd (show (0 : ℤ) ≤ -1 from hok) (by decide)

theorem Reading.Ends.of_copy {s : Reading} {disk : Drive} {temp : Mem} {out : Ranged}
    (h : (s.copy disk temp).Ends out) (hs : s.Sound) (h0 : s.remaining ≠ 0)
    (hdisk : disk.byteAt = s.disk.byteAt)
    (htemp : ∀ i < 512, temp.get i = s.disk.byteAt s.sector.toNat i) : s.Ends out where
  byteAt := h.byteAt.trans hdisk
  sectors t ht := by
    rcases h.sectors t ht with ht | ht
    · exact (Reading.ends_failed h0 hdisk).sectors t ht
    · exact Or.inr (ht.of_copy hs)
  mem hok := by rw [h.mem hok, Reading.blit_copy hs hdisk htemp]

theorem kfsExtension0Loop_ends {fuel : ℕ} {s : Reading} {out : Ranged} (hs : s.Sound)
    (h : kfsExtension0Loop fuel s = some out) : s.Ends out := by
  induction fuel generalizing s with
  | zero =>
      rw [kfsExtension0Loop] at h
      by_cases h0 : s.remaining = 0
      · rw [if_pos h0] at h
        exact Option.some_inj.mp h ▸ Reading.ends_done h0
      · rw [if_neg h0] at h
        cases h
  | succ fuel ih =>
      rw [kfsExtension0Loop] at h
      by_cases h0 : s.remaining = 0
      · rw [if_pos h0] at h
        exact Option.some_inj.mp h ▸ Reading.ends_done h0
      · rw [if_neg h0] at h
        obtain ⟨⟨r, disk, temp⟩, hread, h⟩ := Option.bind_eq_some_iff.mp h
        obtain ⟨hbyte, -, htemp⟩ := ataReadSectors_one hread
        dsimp only at h
        by_cases hr : r < 0
        · rw [if_pos hr] at h
          exact Option.some_inj.mp h ▸ Reading.ends_failed h0 hbyte
        · rw [if_neg hr] at h
          exact (ih (hs.copy disk temp) h).of_copy hs h0 hbyte (htemp (not_lt.mp hr))

theorem kfsExtension0Loop_of_errorFree {fuel : ℕ} {s : Reading} (hs : s.Sound)
    (hdisk : s.disk.ErrorFree) (hfuel : s.remaining ≤ fuel) :
    ∃ out, kfsExtension0Loop fuel s = some out ∧ out.result = 0 := by
  induction fuel generalizing s with
  | zero =>
      have h0 : s.remaining = 0 := Nat.le_zero.mp hfuel
      rw [kfsExtension0Loop, if_pos h0]
      exact ⟨_, rfl, rfl⟩
  | succ fuel ih =>
      rw [kfsExtension0Loop]
      by_cases h0 : s.remaining = 0
      · rw [if_pos h0]
        exact ⟨_, rfl, rfl⟩
      · obtain ⟨⟨r, disk, temp⟩, hread⟩ :=
          ataReadSectors_of_errorFree hdisk s.temp s.sector.toNat 1 0
        have hr : 0 ≤ r := by
          rw [(ataReadSectors_some hread).1]
          exact hdisk.answer_nonneg.mpr (by decide)
        have hpos := Reading.copyLen_pos hs h0
        rw [if_neg h0, hread, Option.bind_eq_bind, Option.bind_some]
        dsimp only
        rw [if_neg (not_lt.mpr hr)]
        apply ih (hs.copy disk temp) (hdisk.congr (ataReadSectors_one hread).2.1)
        change s.remaining - s.copyLen ≤ fuel
        omega

namespace KfsEntry

/-- Byte `t` of the file. -/
def byte (f : KfsEntry) (d : Drive) (t : ℕ) : Byte := d.byteAt f.startLba.toNat t

def InExtent (f : KfsEntry) (t : BitVec 32) : Prop :=
  ∃ j, 512 * j < f.size.toNat ∧ t = f.startLba + BitVec.ofNat 32 j

/-- How many bytes of the range are in the file. -/
def inRange (f : KfsEntry) (offset size : BitVec 32) : ℕ :=
  min size.toNat (f.size.toNat - offset.toNat)

/-- How many bytes the call copies when nothing fails. -/
def copied (f : KfsEntry) (offset size : BitVec 32) : ℕ :=
  if f.size ≤ offset then 0 else (f.clamp offset size).toNat

theorem copied_lt (f : KfsEntry) (offset size : BitVec 32) : f.copied offset size < 2 ^ 32 := by
  rw [copied]
  split
  · decide
  · exact BitVec.isLt _

theorem copied_eq_inRange_iff (f : KfsEntry) (offset size : BitVec 32) :
    f.copied offset size = f.inRange offset size ↔
      f.size ≤ offset ∨ offset.toNat + size.toNat < 2 ^ 32 := by
  have hf := f.size.isLt
  have hoff := offset.isLt
  have hsize := size.isLt
  rw [copied, inRange, clamp]
  by_cases hend : f.size ≤ offset
  · rw [if_pos hend]
    rw [BitVec.le_def] at hend
    exact iff_of_true (by omega) (Or.inl hend)
  · rw [if_neg hend, or_iff_right hend]
    rw [BitVec.le_def] at hend
    by_cases hover : f.size < offset + size
    · rw [if_pos hover, BitVec.toNat_sub]
      rw [BitVec.lt_def, BitVec.toNat_add] at hover
      omega
    · rw [if_neg hover]
      rw [BitVec.lt_def, BitVec.toNat_add] at hover
      omega

theorem inRange_le_copied (f : KfsEntry) (offset size : BitVec 32) :
    f.inRange offset size ≤ f.copied offset size := by
  by_cases hfits : f.size ≤ offset ∨ offset.toNat + size.toNat < 2 ^ 32
  · exact ((f.copied_eq_inRange_iff offset size).mpr hfits).ge
  · have hf := f.size.isLt
    have hover : ¬ f.size < offset + size := by
      rw [BitVec.lt_def, BitVec.toNat_add]
      rw [BitVec.le_def] at hfits
      omega
    rw [copied, if_neg fun hend => hfits (Or.inl hend), clamp, if_neg hover]
    exact Nat.min_le_left _ _

theorem copied_le (f : KfsEntry) (offset size : BitVec 32) :
    f.copied offset size ≤ size.toNat := by
  have hf := f.size.isLt
  rw [copied, clamp]
  by_cases hend : f.size ≤ offset
  · rw [if_pos hend]
    exact Nat.zero_le _
  · rw [if_neg hend]
    rw [BitVec.le_def] at hend
    split
    · rename_i hover
      rw [BitVec.lt_def, BitVec.toNat_add] at hover
      rw [BitVec.toNat_sub]
      omega
    · exact Nat.le_refl _

end KfsEntry

section

variable {disk : Drive} {mem temp : Mem} {f : KfsEntry} {offset : BitVec 32} {buf : ℕ}
  {size : BitVec 32} {out : Ranged}

theorem kfsExtension0_within (h : ¬ f.size ≤ offset) :
    kfsExtension0 disk mem temp f offset buf size = kfsExtension0Loop (f.clamp offset size).toNat
      (firstReading disk mem temp f offset buf (f.clamp offset size)) := if_neg h

theorem firstReading_sound : (firstReading disk mem temp f offset buf size).Sound where
  sectorOffset := by
    rw [firstReading, BitVec.toNat_umod]
    exact Nat.mod_lt _ (by decide)
  remaining := BitVec.isLt _

theorem offset_div : offset / 512#32 = BitVec.ofNat 32 (offset.toNat / 512) := by
  apply BitVec.eq_of_toNat_eq
  have hlt := offset.isLt
  rw [BitVec.toNat_udiv, BitVec.toNat_ofNat, BitVec.toNat_ofNat,
    Nat.mod_eq_of_lt (by omega : offset.toNat / 512 < 2 ^ 32)]

theorem firstReading_byte :
    (firstReading disk mem temp f offset buf size).byte =
      fun i => f.byte disk (offset.toNat + i) := by
  funext i
  have hat : 512 * (offset.toNat / 512) + (offset.toNat % 512 + i) = offset.toNat + i := by omega
  rw [firstReading, Reading.byte, offset_div, byteAt_add_ofNat, BitVec.toNat_umod]
  exact congrArg _ hat

theorem kfsExtension0_mem (h : kfsExtension0 disk mem temp f offset buf size = some out)
    (hok : 0 ≤ out.result) : out.mem = mem.blit buf (f.copied offset size)
      fun i => f.byte disk (offset.toNat + i) := by
  rw [KfsEntry.copied]
  by_cases hend : f.size ≤ offset
  · rw [kfsExtension0, if_pos hend] at h
    obtain rfl := Option.some_inj.mp h
    rw [if_pos hend, Mem.blit_zero]
  · rw [kfsExtension0_within hend] at h
    rw [if_neg hend, (kfsExtension0Loop_ends firstReading_sound h).mem hok, firstReading_byte]
    rfl

theorem kfsExtension0_get (h : kfsExtension0 disk mem temp f offset buf size = some out)
    (hok : 0 ≤ out.result) {t : ℕ} (ht : t < f.inRange offset size) :
    out.mem.get (buf + t) = f.byte disk (offset.toNat + t) := by
  have hlt := ht.trans_le (f.inRange_le_copied offset size)
  rw [kfsExtension0_mem h hok, Mem.get_blit_add _ _ _ (f.copied_lt offset size).le hlt]

theorem kfsExtension0_byteAt (h : kfsExtension0 disk mem temp f offset buf size = some out) :
    out.disk.byteAt = disk.byteAt := by
  by_cases hend : f.size ≤ offset
  · rw [kfsExtension0, if_pos hend] at h
    obtain rfl := Option.some_inj.mp h
    rfl
  · rw [kfsExtension0_within hend] at h
    exact (kfsExtension0Loop_ends firstReading_sound h).byteAt

theorem kfsExtension0_sectors (h : kfsExtension0 disk mem temp f offset buf size = some out)
    {t : BitVec 32} (ht : t ∈ out.sectors) : offset.toNat < f.size.toNat ∧ ∃ j,
      512 * j < offset.toNat + f.copied offset size ∧ t = f.startLba + BitVec.ofNat 32 j := by
  rw [KfsEntry.copied]
  by_cases hend : f.size ≤ offset
  · rw [kfsExtension0, if_pos hend] at h
    obtain rfl := Option.some_inj.mp h
    cases ht
  · rw [kfsExtension0_within hend] at h
    rw [if_neg hend]
    obtain hnil | ⟨j, hj, rfl⟩ := (kfsExtension0Loop_ends firstReading_sound h).sectors t ht
    · cases hnil
    · refine ⟨not_le.mp hend, offset.toNat / 512 + j, ?_, ?_⟩
      · change 512 * j < (offset % 512#32).toNat + (f.clamp offset size).toNat at hj
        rw [BitVec.toNat_umod] at hj
        change 512 * j < offset.toNat % 512 + _ at hj
        omega
      · change f.startLba + offset / 512#32 + BitVec.ofNat 32 j = _
        rw [offset_div, BitVec.ofNat_add, BitVec.add_assoc]

theorem kfsExtension0_of_errorFree (hdisk : disk.ErrorFree) (mem temp : Mem) (f : KfsEntry)
    (offset : BitVec 32) (buf : ℕ) (size : BitVec 32) :
    ∃ out, kfsExtension0 disk mem temp f offset buf size = some out ∧ out.result = 0 := by
  by_cases hend : f.size ≤ offset
  · exact ⟨_, if_pos hend, rfl⟩
  · rw [kfsExtension0_within hend]
    exact kfsExtension0Loop_of_errorFree firstReading_sound hdisk (Nat.le_refl _)

end

/-- The call returns 0, has stored the bytes of the range that are in the file and nothing else,
and has asked for sectors of the file only. -/
def RangedExact (disk : Drive) (mem temp : Mem) (f : KfsEntry) (offset : BitVec 32) (buf : ℕ)
    (size : BitVec 32) : Prop :=
  ∃ out, kfsExtension0 disk mem temp f offset buf size = some out ∧ out.result = 0 ∧
    out.mem = mem.blit buf (f.inRange offset size) (fun i => f.byte disk (offset.toNat + i)) ∧
    ∀ t ∈ out.sectors, f.InExtent t

theorem RangedExact.copied_eq {disk : Drive} {mem temp : Mem} {f : KfsEntry}
    {offset size : BitVec 32} {buf : ℕ} (h : RangedExact disk mem temp f offset buf size) :
    f.copied offset size = f.inRange offset size := by
  obtain ⟨out, hcall, hresult, hmem, -⟩ := h
  exact Mem.length_eq_of_blit_eq ((kfsExtension0_mem hcall hresult.ge).symm.trans hmem)

/-- On an error-free disk a ranged read is exact if and only if the range begins behind the end of
the file, or its own end is a 32-bit number. -/
theorem rangedExact_iff {disk : Drive} (hdisk : disk.ErrorFree) (mem temp : Mem) (f : KfsEntry)
    (offset : BitVec 32) (buf : ℕ) (size : BitVec 32) :
    RangedExact disk mem temp f offset buf size ↔
      f.size ≤ offset ∨ offset.toNat + size.toNat < 2 ^ 32 := by
  rw [← f.copied_eq_inRange_iff]
  constructor
  · exact RangedExact.copied_eq
  · intro heq
    obtain ⟨out, hcall, hresult⟩ := kfsExtension0_of_errorFree hdisk mem temp f offset buf size
    refine ⟨out, hcall, hresult, ?_, fun t ht => ?_⟩
    · rw [← heq]
      exact kfsExtension0_mem hcall hresult.ge
    · obtain ⟨hlt, j, hj, rfl⟩ := kfsExtension0_sectors hcall ht
      refine ⟨j, ?_, rfl⟩
      rw [heq, KfsEntry.inRange] at hj
      omega

/-- A file of 1000 bytes from sector 1 on. -/
def demoEntry : KfsEntry := ⟨1#32, 1000#32⟩

/-- The second header of an image. -/
theorem demoEntry_exact :
    RangedExact steadyDisk demoMachine.mem demoMachine.mem demoEntry 14#32 demoData 40#32 :=
  (rangedExact_iff (fun _ => rfl) _ _ _ _ _ _).mpr (Or.inr (by decide))

/-- The pixels of an image whose header gives it almost `2 ^ 32` bytes: the range would end behind
the last 32-bit number, and all its bytes are stored. -/
theorem demoEntry_not_exact :
    demoEntry.inRange 54#32 0xFFFFFFF0#32 = 946 ∧
    demoEntry.copied 54#32 0xFFFFFFF0#32 = 0xFFFFFFF0 ∧
    ¬ RangedExact steadyDisk demoMachine.mem demoMachine.mem demoEntry 54#32 demoData
      0xFFFFFFF0#32 := by
  refine ⟨by decide, by decide, fun h => ?_⟩
  have heq := h.copied_eq
  revert heq
  decide

end System44
