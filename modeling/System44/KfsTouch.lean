import System44.Vfs

/-!
# Files with long names

`kfs_write` copies the whole name into the 32 bytes that the slot has for it. From the 33rd byte on
the copy runs over `start_lba` and `size`, which are stored after it, and from the 41st byte on it
leaves the slot. `touch` passes names of up to 121 bytes.
-/

namespace System44

/-- A name that `touch` passes: the rest of the line behind the command, in the shell's own
array. -/
structure TouchName (m : Mem) (sb name len : ℕ) : Prop where
  string : StringAt m name len
  len_le : len ≤ 121
  apart : ∀ i ≤ len, sizeofKfsSuperblock ≤ Mem.offset sb (name + i)

def newSlotByte (m : Mem) (sb name len : ℕ) (size : BitVec 32) (t : ℕ) : Byte :=
  if t < 32 then
    if t ≤ len then m.get (name + t) else m.get (kfsFile sb (fileCount m sb) + t)
  else if t < 36 then leBytes (nextLba m sb (fileCount m sb)) (t - 32)
  else leBytes size (t - 36)

def filledByte (m : Mem) (sb name len : ℕ) (size : BitVec 32) (x : ℕ) : Byte :=
  if sizeofKfsFile * fileCount m sb ≤ x ∧ x < sizeofKfsFile * (fileCount m sb + 1) then
    newSlotByte m sb name len size (x - sizeofKfsFile * fileCount m sb)
  else m.get (kfsFile sb 0 + x)

def FilledName (m : Mem) (sb name len : ℕ) (size : BitVec 32) (i : ℕ) : Prop :=
  ∀ t ≤ len, filledByte m sb name len size (sizeofKfsFile * i + t) = m.get (name + t)

def TailThere (m : Mem) (sb name len : ℕ) : Prop :=
  ∀ t, sizeofKfsFile ≤ t → t ≤ len →
    m.get (kfsFile sb (fileCount m sb) + t) = m.get (name + t)

def FilledFirst (m : Mem) (sb name len : ℕ) (size : BitVec 32) : Prop :=
  ∃ i ≤ fileCount m sb, FilledName m sb name len size i ∧
    (∀ j < i, ¬ FilledName m sb name len size j) ∧
    (i < fileCount m sb → fileSize m sb i = size)

/-- A write of the name, whatever the disk does, stays in the new slot, and if it reports success
the name leads to an entry of the size that was written. -/
def WriteInSlot (m : Mem) (sb name data : ℕ) (size : BitVec 32) : Prop :=
  ∀ (M M' : Machine) (r : ℤ), M.mem = m → kfsWrite M sb name data size = some (r, M') →
    (∀ a, OffSlot sb (fileCount m sb) a → M'.mem.get a = m.get a) ∧
      (0 ≤ r → ∃ i, kfsFind M'.mem sb name = some (some i) ∧ fileSize M'.mem sb i = size)

section

variable {m : Mem} {sb name len : ℕ}

theorem TouchName.offset_eq (h : TouchName m sb name len) {i : ℕ} (hi : i ≤ len) :
    Mem.offset sb (name + i) = Mem.offset sb name + i := by
  have hlen := h.len_le
  have hbase := h.apart 0 (Nat.zero_le _)
  have hlt := Mem.offset_lt sb name
  by_contra hne
  have hwrap : 2 ^ 32 - Mem.offset sb name ≤ i := by
    unfold Mem.offset at *
    omega
  have hzero := h.apart (2 ^ 32 - Mem.offset sb name) (by omega)
  unfold Mem.offset sizeofKfsSuperblock at *
  omega

theorem TouchName.offSlot (h : TouchName m sb name len) {k : ℕ} (hk : k < kfsMaxFiles) {i : ℕ}
    (hi : i ≤ len) : OffSlot sb k (name + i) := by
  have hmax : k < 8 := hk
  have hoff := h.apart i hi
  unfold OffSlot sizeofKfsFile sizeofKfsSuperblock at *
  omega

theorem TouchName.ahead (h : TouchName m sb name len) {k : ℕ} (hk : k < kfsMaxFiles) {i : ℕ}
    (hi : i ≤ len) : i ≤ Mem.offset (kfsFile sb k) (name + i) := by
  have hmax : k < 8 := hk
  have hlen := h.len_le
  have hoff := h.offset_eq hi
  have hbase : sizeofKfsSuperblock ≤ Mem.offset sb name := h.apart 0 (Nat.zero_le _)
  unfold sizeofKfsSuperblock at hbase
  rw [kfsFile]
  unfold sizeofKfsFile
  exact Mem.le_offset_shift (Or.inr (by omega)) (by omega)

theorem strcpy_touch (hk : fileCount m sb < kfsMaxFiles) (h : TouchName m sb name len)
    (v : BitVec 32) : strcpy (m.store32 (sb + 4) v) (kfsFile sb (fileCount m sb)) name =
      some ((m.store32 (sb + 4) v).blit (kfsFile sb (fileCount m sb)) (len + 1)
        fun t => m.get (name + t)) := by
  have hlen := h.len_le
  have hsame : ∀ i ≤ len, (m.store32 (sb + 4) v).get (name + i) = m.get (name + i) :=
    fun i hi => get_store_fileCount v (h.offSlot hk hi)
  rw [strcpy_ahead _ (h.string.congr hsame) (by unfold addressSpace; omega)
    fun i hi => h.ahead hk hi]
  exact congrArg some (Mem.blit_congr _ _ fun t ht => hsame t (by omega))

end

section

variable {M M' : Machine} {sb name data len : ℕ} {size : BitVec 32} {r : ℤ}
  (hk : fileCount M.mem sb < kfsMaxFiles) (hname : TouchName M.mem sb name len)

include hk hname

theorem kfsWrite_touch (h : kfsWrite M sb name data size = some (r, M')) :
    M'.mem = entryAdded M.mem sb name len size := by
  have hlen := hname.len_le
  refine (kfsWrite_copied hk (by omega) (fun m' hcopy => ?_) h).1
  exact Option.some_inj.mp (hcopy.symm.trans (strcpy_touch hk hname _))

theorem exists_kfsWrite_touch (hdisk : M.disk.ErrorFree) (data : ℕ) (size : BitVec 32) :
    ∃ r M', kfsWrite M sb name data size = some (r, M') ∧ 0 ≤ r := by
  have hret : ∀ (d : Drive) (m : Mem) (lba count buf : ℕ), d.ErrorFree →
      ∃ r d', ataWriteSectors d m lba count buf = some (r, d') ∧ d'.ErrorFree ∧
        r = d.answer count := by
    intro d m lba count buf hd
    obtain ⟨⟨r, d'⟩, hw⟩ := Option.isSome_iff_exists.mp
      (ataWriteSectors_isSome_iff.mpr (hd.returns count))
    obtain ⟨hr, stored, hwritten⟩ := ataWriteSectors_some hw
    exact ⟨r, d', hw, hd.congr hwritten.reply, hr⟩
  rw [kfsWrite, if_neg (Nat.not_le_of_lt hk)]
  simp only [strcpy_touch hk hname, Option.bind_eq_bind, Option.bind_some]
  obtain ⟨r', disk, hdata, hdisk', -⟩ := hret M.disk _ _ _ _ hdisk
  rw [hdata, Option.bind_some]
  obtain ⟨r, disk', hsuper, -, hr⟩ := hret disk _ _ _ _ hdisk'
  rw [hsuper, Option.bind_some]
  refine ⟨r, _, rfl, ?_⟩
  rw [hr, hdisk'.answer_nonneg]
  decide

end

section

variable {m : Mem} {sb name len : ℕ} {size : BitVec 32} (hk : fileCount m sb < kfsMaxFiles)

include hk

theorem get_entryAdded_offSlot {a : ℕ} (hlen : len ≤ 121) (h : OffSlot sb (fileCount m sb) a) :
    (entryAdded m sb name len size).get a =
      if Mem.offset (kfsFile sb (fileCount m sb)) a ≤ len then
        m.get (name + Mem.offset (kfsFile sb (fileCount m sb)) a)
      else m.get a := by
  rw [entryAdded, Mem.store32, get_blit_slot _ hk (by decide) (Or.inl h), Mem.store32,
    get_blit_slot _ hk (by decide) (Or.inl h), Mem.get_blit _ _ _ _ (by omega),
    get_store_fileCount _ h]
  simp only [Nat.lt_succ_iff]

theorem get_entryAdded_slot {t : ℕ} (hlen : len ≤ 121) (ht : t < sizeofKfsFile) :
    (entryAdded m sb name len size).get (kfsFile sb (fileCount m sb) + t) =
      newSlotByte m sb name len size t := by
  have hmax : fileCount m sb < 8 := hk
  unfold sizeofKfsFile at ht
  rw [newSlotByte, entryAdded]
  by_cases hname : t < 32
  · rw [if_pos hname, Mem.get_store32_beside _ _ (by decide) (by omega) (by omega),
      Mem.get_store32_beside _ _ (by decide) (by omega) (by omega), Mem.get_blit _ _ _ _ (by omega),
      Mem.offset_add _ (by omega), kfsFile_add,
      Mem.get_store32_beside _ _ (by decide) (by unfold sizeofKfsFile; omega) (by omega)]
    simp only [Nat.lt_succ_iff]
  · rw [if_neg hname]
    by_cases hlba : t < 36
    · have htl : kfsFile sb (fileCount m sb) + t =
          kfsFile sb (fileCount m sb) + 32 + (t - 32) := by omega
      rw [if_pos hlba, htl, Mem.store32, Mem.get_blit_add _ _ _ (by decide) (by omega)]
    · have htl : kfsFile sb (fileCount m sb) + t =
          kfsFile sb (fileCount m sb) + 36 + (t - 36) := by omega
      rw [if_neg hlba, Mem.get_store32_beside _ _ (by decide) (by omega) (by omega), htl,
        Mem.store32, Mem.get_blit_add _ _ _ (by decide) (by omega)]

theorem entryAdded_frame_iff (hlen : len ≤ 121) :
    (∀ a, OffSlot sb (fileCount m sb) a → (entryAdded m sb name len size).get a = m.get a) ↔
      TailThere m sb name len := by
  have hmax : fileCount m sb < 8 := hk
  constructor
  · intro hframe t ht hle
    unfold sizeofKfsFile at ht
    have hoff : OffSlot sb (fileCount m sb) (kfsFile sb (fileCount m sb) + t) := by
      rw [OffSlot, kfsFile_add, Mem.offset_add _ (by unfold sizeofKfsFile; omega)]
      unfold sizeofKfsFile
      omega
    rw [← hframe _ hoff, get_entryAdded_offSlot hk hlen hoff, Mem.offset_add _ (by omega),
      if_pos hle]
  · intro htail a ha
    rw [get_entryAdded_offSlot hk hlen ha]
    split
    · rename_i hle
      have hmod := Mem.mod_add_offset (kfsFile sb (fileCount m sb)) a
      have hge : sizeofKfsFile ≤ Mem.offset (kfsFile sb (fileCount m sb)) a := by
        unfold OffSlot Mem.offset kfsFile sizeofKfsFile at *
        omega
      rw [← htail _ hge hle]
      exact m.get_congr hmod
    · rfl

variable (hlen : len ≤ 121) (htail : TailThere m sb name len)

include hlen htail

theorem get_entryAdded_filled {i t : ℕ} (hi : i ≤ fileCount m sb) (ht : t ≤ len) :
    (entryAdded m sb name len size).get (kfsFile sb i + t) =
      filledByte m sb name len size (sizeofKfsFile * i + t) := by
  have hmax : fileCount m sb < 8 := hk
  have hat : kfsFile sb i + t = kfsFile sb 0 + (sizeofKfsFile * i + t) := by
    unfold kfsFile sizeofKfsFile
    omega
  rw [filledByte]
  split
  · rename_i hslot
    have hin : kfsFile sb i + t = kfsFile sb (fileCount m sb) +
        (sizeofKfsFile * i + t - sizeofKfsFile * fileCount m sb) := by
      unfold kfsFile sizeofKfsFile at *
      omega
    rw [hin]
    exact get_entryAdded_slot hk hlen (by unfold sizeofKfsFile at *; omega)
  · rename_i hslot
    rw [← hat]
    refine (entryAdded_frame_iff hk hlen).mpr htail _ ?_
    rw [OffSlot, kfsFile_add, Mem.offset_add _ (by unfold sizeofKfsFile; omega)]
    unfold sizeofKfsFile at *
    omega

variable (hname : TouchName m sb name len)

include hname

theorem sameName_entryAdded_iff {i : ℕ} (hi : i ≤ fileCount m sb) :
    SameName (entryAdded m sb name len size) sb name len i ↔ FilledName m sb name len size i := by
  refine forall_congr' fun t => forall_congr' fun ht => ?_
  rw [get_entryAdded_filled hk hlen htail hi ht,
    (entryAdded_frame_iff hk hlen).mpr htail _ (hname.offSlot hk ht)]

theorem kfsFind_entryAdded_iff :
    (∃ i, kfsFind (entryAdded m sb name len size) sb name = some (some i) ∧
      fileSize (entryAdded m sb name len size) sb i = size) ↔ FilledFirst m sb name len size := by
  have hmax : fileCount m sb < 8 := hk
  have hstring : StringAt (entryAdded m sb name len size) name len := hname.string.congr fun t ht =>
    (entryAdded_frame_iff hk hlen).mpr htail _ (hname.offSlot hk ht)
  have hspace : len < addressSpace := by
    unfold addressSpace
    omega
  have hold : ∀ i < fileCount m sb,
      fileSize (entryAdded m sb name len size) sb i = fileSize m sb i := by
    intro i hi
    refine Mem.load32_congr fun t ht => ?_
    rw [Nat.add_assoc, kfsFile_add]
    exact get_entryAdded hk (by omega) _ (by omega) (by unfold sizeofKfsFile; omega)
  refine exists_congr fun i => ?_
  rw [kfsFind_some hstring hspace, fileCount_entryAdded hk (by omega), Nat.lt_succ_iff, and_assoc]
  refine and_congr_right fun hi => ?_
  rw [sameName_entryAdded_iff hk hlen htail hname hi, and_assoc]
  refine and_congr_right fun _ => and_congr (forall_congr' fun j => forall_congr' fun hj => ?_) ?_
  · exact not_congr (sameName_entryAdded_iff hk hlen htail hname (by omega))
  · rcases Nat.lt_or_eq_of_le hi with hlt | rfl
    · rw [hold i hlt]
      exact ⟨fun h _ => h, fun h => h hlt⟩
    · rw [fileSize_entryAdded]
      exact iff_of_true rfl fun h => absurd h (Nat.lt_irrefl _)

end

/-- The name is one for which the write does as it should: a short one that no other file has with
another size, or a long one that is in place already. -/
def SlotSuits (m : Mem) (sb name len : ℕ) (size : BitVec 32) : Prop :=
  if len ≤ 31 then ∀ i, kfsFind m sb name = some (some i) → fileSize m sb i = size
  else TailThere m sb name len ∧ FilledFirst m sb name len size

section

variable {m : Mem} {sb name len : ℕ} {size : BitVec 32} (hk : fileCount m sb < kfsMaxFiles)
  (hname : TouchName m sb name len)

include hk hname

theorem writeInSlot_iff_filled (data : ℕ) : WriteInSlot m sb name data size ↔
    TailThere m sb name len ∧ FilledFirst m sb name len size := by
  have hlen := hname.len_le
  constructor
  · intro h
    have hdisk : (Machine.mk m steadyDisk Pmm.boot).disk.ErrorFree := fun _ => rfl
    obtain ⟨r, M', hw, hr⟩ := exists_kfsWrite_touch (M := ⟨m, steadyDisk, Pmm.boot⟩) hk hname hdisk
      data size
    have hmem := kfsWrite_touch (M := ⟨m, steadyDisk, Pmm.boot⟩) hk hname hw
    obtain ⟨hframe, hfind⟩ := h _ M' r rfl hw
    rw [hmem] at hframe hfind
    have htail := (entryAdded_frame_iff hk hlen).mp hframe
    exact ⟨htail, (kfsFind_entryAdded_iff hk hlen htail hname).mp (hfind hr)⟩
  · rintro ⟨htail, hfirst⟩ M M' r rfl hw
    rw [kfsWrite_touch hk hname hw]
    exact ⟨(entryAdded_frame_iff hk hlen).mpr htail,
      fun _ => (kfsFind_entryAdded_iff hk hlen htail hname).mpr hfirst⟩

omit hk hname in
theorem filledName_new (hshort : len ≤ 31) : FilledName m sb name len size (fileCount m sb) := by
  intro t ht
  rw [filledByte, if_pos (by unfold sizeofKfsFile; omega), Nat.add_sub_cancel_left, newSlotByte,
    if_pos (by omega), if_pos ht]

omit hk hname in
theorem filledName_old_iff (hshort : len ≤ 31) {j : ℕ} (hj : j < fileCount m sb) :
    FilledName m sb name len size j ↔ SameName m sb name len j := by
  refine forall_congr' fun t => forall_congr' fun ht => ?_
  have hat : kfsFile sb 0 + (sizeofKfsFile * j + t) = kfsFile sb j + t := by
    unfold kfsFile sizeofKfsFile
    omega
  rw [filledByte, if_neg (by unfold sizeofKfsFile; omega), hat]

omit hk in
theorem filledFirst_short_iff (hshort : len ≤ 31) : FilledFirst m sb name len size ↔
    ∀ i, kfsFind m sb name = some (some i) → fileSize m sb i = size := by
  have hspace : len < addressSpace := by
    unfold addressSpace
    omega
  constructor
  · rintro ⟨i, hi, hfilled, hfirst, hsize⟩ j hfind
    obtain ⟨hj, hsame, hnone⟩ := (kfsFind_some hname.string hspace).mp hfind
    rcases Nat.lt_trichotomy i j with hlt | rfl | hlt
    · exact absurd ((filledName_old_iff hshort (hlt.trans hj)).mp hfilled) (hnone i hlt)
    · exact hsize hj
    · exact absurd ((filledName_old_iff hshort hj).mpr hsame) (hfirst j hlt)
  · intro hsize
    by_cases hold : ∃ j, j < fileCount m sb ∧ SameName m sb name len j
    · classical
      obtain ⟨hj, hsame⟩ := Nat.find_spec hold
      have hmin : ∀ j < Nat.find hold, ¬ SameName m sb name len j := fun j hlt hs =>
        Nat.find_min hold hlt ⟨hlt.trans hj, hs⟩
      refine ⟨Nat.find hold, hj.le, (filledName_old_iff hshort hj).mpr hsame,
        fun j hlt hfilled => ?_,
        fun _ => hsize _ ((kfsFind_some hname.string hspace).mpr ⟨hj, hsame, hmin⟩)⟩
      exact hmin j hlt ((filledName_old_iff hshort (hlt.trans hj)).mp hfilled)
    · refine ⟨fileCount m sb, Nat.le_refl _, filledName_new hshort, fun j hlt hfilled => ?_,
        fun hlt => absurd hlt (Nat.lt_irrefl _)⟩
      exact hold ⟨j, hlt, (filledName_old_iff hshort hlt).mp hfilled⟩

/-- A write stays in its slot and is found again exactly when its name has at most 31 bytes and no
file of that name has another size, or when a longer name is there already. -/
theorem writeInSlot_iff (data : ℕ) :
    WriteInSlot m sb name data size ↔ SlotSuits m sb name len size := by
  rw [writeInSlot_iff_filled hk hname, SlotSuits]
  split
  · rename_i hshort
    rw [filledFirst_short_iff hname hshort]
    refine and_iff_right fun t ht hle => ?_
    unfold sizeofKfsFile at ht
    omega
  · exact Iff.rfl

end

theorem demoName_touch : TouchName demoVolume.mem demoSuperblock demoName 1 where
  string := demoName_at.string
  len_le := by decide
  apart := by decide

theorem demoName_inSlot : WriteInSlot demoVolume.mem demoSuperblock demoName demoData 0#32 := by
  refine (writeInSlot_iff demoVolume_free demoName_touch demoData).mpr ?_
  rw [SlotSuits, if_pos (by decide), demoName_new]
  intro i hi
  cases hi

/-- The volume, with a name of `len` letters in memory. -/
def letters (len : ℕ) : Machine :=
  { demoVolume with
    mem := demoVolume.mem.blit demoName (len + 1) fun t => if t < len then 0x61#8 else 0#8 }

section

variable {len : ℕ} (hlen : len ≤ 121)

include hlen

theorem get_letters {t : ℕ} (ht : t ≤ len) :
    (letters len).mem.get (demoName + t) = if t < len then 0x61#8 else 0#8 :=
  Mem.get_blit_add _ _ _ (by omega) (by omega)

theorem get_letters_volume {x : ℕ} (hx : x < 512) :
    (letters len).mem.get (demoSuperblock + x) = demoVolume.mem.get (demoSuperblock + x) := by
  apply Mem.get_blit_of_le _ _ (by omega)
  unfold Mem.offset demoName demoSuperblock
  omega

theorem letters_reachable : KfsReachable demoSuperblock (letters len) :=
  .elsewhere demoVolume_reachable
    (fun x hx => get_letters_volume hlen (hx.trans (by decide))) (Drive.Unwritten.refl _)

theorem letters_touch : TouchName (letters len).mem demoSuperblock demoName len := by
  refine ⟨⟨fun t ht => ?_, ?_⟩, hlen, fun t ht => ?_⟩
  · rw [get_letters hlen ht.le, if_pos ht]
    decide
  · rw [get_letters hlen (Nat.le_refl len), if_neg (Nat.lt_irrefl len)]
  · unfold Mem.offset demoSuperblock demoName sizeofKfsSuperblock
    omega

theorem letters_count : fileCount (letters len).mem demoSuperblock = 0 := by
  rw [← demoVolume_count]
  refine congrArg BitVec.toNat (Mem.load32_congr fun t ht => ?_)
  rw [Nat.add_assoc]
  exact get_letters_volume hlen (by omega)

end

/-- A name of 45 letters runs out of its slot, and one of 35 letters is not found again. -/
theorem letters_not_inSlot :
    (KfsReachable demoSuperblock (letters 45) ∧
      TouchName (letters 45).mem demoSuperblock demoName 45 ∧
      fileCount (letters 45).mem demoSuperblock = 0 ∧
      ¬ WriteInSlot (letters 45).mem demoSuperblock demoName demoData 0#32) ∧
    KfsReachable demoSuperblock (letters 35) ∧
      TouchName (letters 35).mem demoSuperblock demoName 35 ∧
      fileCount (letters 35).mem demoSuperblock = 0 ∧
      ¬ WriteInSlot (letters 35).mem demoSuperblock demoName demoData 0#32 := by
  have hfree (len : ℕ) (hlen : len ≤ 121) :
      fileCount (letters len).mem demoSuperblock < kfsMaxFiles := by
    rw [letters_count hlen]
    decide
  have hlong : 45 ≤ 121 := by decide
  have hfull : 35 ≤ 121 := by decide
  refine ⟨⟨letters_reachable hlong, letters_touch hlong, letters_count hlong, fun h => ?_⟩,
    letters_reachable hfull, letters_touch hfull, letters_count hfull, fun h => ?_⟩
  · obtain ⟨htail, -⟩ := (writeInSlot_iff_filled (hfree 45 hlong) (letters_touch hlong) _).mp h
    have hbyte := htail 40 (by decide) (by decide)
    rw [letters_count hlong, get_letters hlong (by decide), if_pos (by decide)] at hbyte
    revert hbyte
    decide +kernel
  · obtain ⟨-, i, hi, hfilled, -⟩ :=
      (writeInSlot_iff_filled (hfree 35 hfull) (letters_touch hfull) _).mp h
    rw [letters_count hfull] at hi
    obtain rfl : i = 0 := Nat.le_zero.mp hi
    have hbyte := hfilled 32 (by decide)
    rw [filledByte, newSlotByte, letters_count hfull, if_pos (by decide), if_neg (by decide),
      if_pos (by decide), get_letters hfull (by decide), if_pos (by decide)] at hbyte
    exact absurd hbyte (by decide)

end System44
