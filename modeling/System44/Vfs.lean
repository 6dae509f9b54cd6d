import System44.KfsRoundTrip

/-!
# Open files

A handle for a file is the address of its directory entry. Writing through it appends a new entry of
the same name, and reading through it looks that name up, so it finds the entry that was there
before, with the size and the sectors that it had.
-/

namespace System44

/-- `(file_t *)1`. -/
def ttyHandle : ℕ := 1

def ttyPath : List Byte := asciiBytes ['/', 'd', 'e', 'v', '/', 't', 't', 'y']

def vfsLOpen (m : Mem) (sb path : ℕ) : Option ℕ := do
  if strcmpLit m path ttyPath = 0 then some ttyHandle
  else
    match ← kfsFind m sb path with
    | some i => some (kfsFile sb i)
    | none => some 0

/-- What a call of `vfs_l_write` leaves behind, and what it gives to `tty_puts`. -/
structure VfsWritten where
  result : ℤ
  machine : Machine
  shown : List Byte

def vfsLWrite (M : Machine) (sb f buf : ℕ) (count : BitVec 32) : Option VfsWritten := do
  if f = 0 then some ⟨-1, M, []⟩
  else if f = ttyHandle then
    let len := if 512 ≤ count.toNat then 511 else count.toNat
    some ⟨len, M, ((List.range len).map fun t => M.mem.get (buf + t)).takeWhile (· ≠ 0#8)⟩
  else
    let (r, M) ← kfsWrite M sb f buf count
    some ⟨r, M, []⟩

/-- The read does not look at `count`. -/
def vfsLRead (M : Machine) (sb f buf : ℕ) (_count : BitVec 32) : Option (ℤ × Machine) :=
  if f = 0 then some (-1, M) else kfsRead M sb f buf

theorem vfsLOpen_file {m : Mem} {sb path f : ℕ} (h : vfsLOpen m sb path = some f) (h0 : f ≠ 0)
    (h1 : f ≠ ttyHandle) :
    strcmpLit m path ttyPath ≠ 0 ∧ ∃ i, kfsFind m sb path = some (some i) ∧ f = kfsFile sb i := by
  unfold vfsLOpen at h
  split at h
  · exact absurd (Option.some_inj.mp h).symm h1
  · rename_i htty
    obtain ⟨found, hfind, h⟩ := Option.bind_eq_some_iff.mp h
    cases found with
    | none => exact absurd (Option.some_inj.mp h).symm h0
    | some i => exact ⟨htty, i, hfind, (Option.some_inj.mp h).symm⟩

theorem kfsFile_ne (sb i : ℕ) : kfsFile sb i ≠ 0 ∧ kfsFile sb i ≠ ttyHandle := by
  unfold kfsFile ttyHandle
  omega

theorem kfsFile_add (sb i t : ℕ) : kfsFile sb i + t = sb + (8 + sizeofKfsFile * i + t) :=
  Nat.add_assoc ..

theorem StringAt.length_unique {m : Mem} {s len len' : ℕ} (h : StringAt m s len)
    (h' : StringAt m s len') : len = len' := by
  rcases Nat.lt_trichotomy len len' with hlt | heq | hlt
  · exact absurd h.2 (h'.1 len hlt)
  · exact heq
  · exact absurd h'.2 (h.1 len' hlt)

section

variable (m : Mem) {sb k len : ℕ} (size v : BitVec 32) (src : ℕ → Byte) (hk : k < kfsMaxFiles)
  (hlen : len < 2 ^ 31)

include hk hlen

theorem get_slot_stores {x : ℕ} (hlo : 8 ≤ x) (hhi : x < 8 + sizeofKfsFile * k) :
    (((m.store32 (sb + 4) v).blit (kfsFile sb k) (len + 1) src).store32 (kfsFile sb k + 36)
      size).get (sb + x) = m.get (sb + x) := by
  have hmax : k < 8 := hk
  unfold sizeofKfsFile at hhi
  rw [kfsFile, Nat.add_assoc]
  unfold sizeofKfsFile
  rw [Mem.get_store32_beside _ _ (by omega) (by omega) (by omega),
    Mem.get_blit_beside _ _ (by omega) (by omega) (by omega),
    Mem.get_store32_beside _ _ (by decide) (by omega) (by omega)]

theorem load_slot_stores :
    (((m.store32 (sb + 4) v).blit (kfsFile sb k) (len + 1) src).store32 (kfsFile sb k + 36)
      size).load32 (sb + 4) = v := by
  have hmax : k < 8 := hk
  refine (Mem.load32_congr fun t ht => ?_).trans (Mem.load32_store32 m (sb + 4) v)
  rw [Nat.add_assoc, kfsFile, Nat.add_assoc sb (8 + _)]
  unfold sizeofKfsFile
  rw [Mem.get_store32_beside _ _ (by omega) (by omega) (by omega),
    Mem.get_blit_beside _ _ (by omega) (by omega) (by omega)]

end

section

variable (m : Mem) (sb name len : ℕ) (size : BitVec 32)

theorem fileSize_entryAdded :
    fileSize (entryAdded m sb name len size) sb (fileCount m sb) = size := by
  have hkeep (m' : Mem) (f : ℕ) (v : BitVec 32) :
      ((m'.store32 (f + 36) size).store32 (f + 32) v).load32 (f + 36) = size := by
    refine Eq.trans (Mem.load32_congr fun t ht => ?_) (Mem.load32_store32 m' (f + 36) size)
    rw [Nat.add_assoc]
    exact Mem.get_store32_beside _ _ (by decide) (by omega) (by omega)
  exact hkeep ..

theorem startLba_entryAdded :
    startLba (entryAdded m sb name len size) sb (fileCount m sb) = nextLba m sb (fileCount m sb) :=
  Mem.load32_store32 ..

end

section

variable {m m' : Mem} {sb i len : ℕ} {size : BitVec 32}

theorem get_entryAdded {x : ℕ} (hk : fileCount m sb < kfsMaxFiles)
    (hlen : len < 2 ^ 31) (name : ℕ) (hlo : 8 ≤ x)
    (hhi : x < 8 + sizeofKfsFile * fileCount m sb) :
    (entryAdded m sb name len size).get (sb + x) = m.get (sb + x) := by
  have hmax : fileCount m sb < 8 := hk
  rw [← get_slot_stores m size (m.load32 (sb + 4) + 1#32) (fun t => m.get (name + t)) hk hlen hlo
    hhi, entryAdded, kfsFile, Nat.add_assoc sb _ 32]
  unfold sizeofKfsFile at *
  exact Mem.get_store32_beside _ _ (by omega) (by omega) (by omega)

theorem fileCount_entryAdded (hk : fileCount m sb < kfsMaxFiles)
    (hlen : len < 2 ^ 31) (name : ℕ) :
    fileCount (entryAdded m sb name len size) sb = fileCount m sb + 1 := by
  have hmax : fileCount m sb < 8 := hk
  have hload : (entryAdded m sb name len size).load32 (sb + 4) = m.load32 (sb + 4) + 1#32 := by
    rw [← load_slot_stores m size (m.load32 (sb + 4) + 1#32) (fun t => m.get (name + t)) hk hlen,
      entryAdded]
    refine Mem.load32_congr fun t ht => ?_
    rw [Nat.add_assoc, kfsFile, Nat.add_assoc sb _ 32]
    unfold sizeofKfsFile at *
    exact Mem.get_store32_beside _ _ (by omega) (by omega) (by omega)
  rw [fileCount, hload, BitVec.toNat_add]
  change (fileCount m sb + 1) % 2 ^ 32 = _
  omega

theorem strcpy_entry {k : ℕ} (hk : k < kfsMaxFiles) (hi : i < k) (v : BitVec 32)
    (hname : StringAt m (kfsFile sb i) len)
    (h : strcpy (m.store32 (sb + 4) v) (kfsFile sb k) (kfsFile sb i) = some m') :
    len < sizeofKfsFile * (k - i) ∧ m' = (m.store32 (sb + 4) v).blit (kfsFile sb k) (len + 1)
      fun t => m.get (kfsFile sb i + t) := by
  have hmax : k < 8 := hk
  have hsame : ∀ t < 400, (m.store32 (sb + 4) v).get (kfsFile sb i + t) =
      m.get (kfsFile sb i + t) := by
    intro t ht
    rw [kfsFile, Nat.add_assoc]
    unfold sizeofKfsFile
    exact Mem.get_store32_beside _ _ (by decide) (by omega) (by omega)
  have hdest : kfsFile sb k = kfsFile sb i + sizeofKfsFile * (k - i) := by
    unfold kfsFile sizeofKfsFile
    omega
  have hlen : len < sizeofKfsFile * (k - i) := by
    by_contra hge
    have hne : ∀ t < sizeofKfsFile * (k - i),
        (m.store32 (sb + 4) v).get (kfsFile sb i + t) ≠ 0#8 := by
      intro t ht
      rw [hsame t (by unfold sizeofKfsFile at ht; omega)]
      exact hname.1 t (by omega)
    have hnone := strcpyLoop_overrun addressSpace (m.store32 (sb + 4) v) (kfsFile sb i)
      (by unfold sizeofKfsFile; omega) hne
    rw [← hdest] at hnone
    exact absurd (hnone.symm.trans h) (by simp)
  unfold sizeofKfsFile at hlen
  have hname' : StringAt (m.store32 (sb + 4) v) (kfsFile sb i) len :=
    hname.congr fun t ht => hsame t (by omega)
  have hcopy := strcpy_of_string (kfsFile sb k) hname' (by unfold addressSpace; omega) (by
      intro t ht
      rw [hdest]
      unfold Mem.offset sizeofKfsFile
      omega)
  refine ⟨hlen, ?_⟩
  rw [Option.some_inj.mp (h.symm.trans hcopy)]
  exact Mem.blit_congr _ _ fun t ht => hsame t (by omega)

end

def sectorAfter (M : Machine) (m : Mem) (sb data : ℕ) (size : BitVec 32) (s : ℕ) : Sector :=
  let lba := (nextLba M.mem sb (fileCount M.mem sb)).toNat
  if s = 0 then sectorAt m sb
  else if lba ≤ s ∧ s < lba + (kfsSectors size).toNat % 2 ^ 8 then
    sectorAt m (data + 1024 * (s - lba))
  else M.disk.sector s

theorem kfsWrite_copied {M M' : Machine} {sb name data len : ℕ} {size : BitVec 32} {r : ℤ}
    (hk : fileCount M.mem sb < kfsMaxFiles) (hlen : len < 2 ^ 31)
    (hcopy : ∀ m', strcpy (M.mem.store32 (sb + 4) (M.mem.load32 (sb + 4) + 1#32))
        (kfsFile sb (fileCount M.mem sb)) name = some m' →
      m' = (M.mem.store32 (sb + 4) (M.mem.load32 (sb + 4) + 1#32)).blit
        (kfsFile sb (fileCount M.mem sb)) (len + 1) fun t => M.mem.get (name + t))
    (h : kfsWrite M sb name data size = some (r, M')) :
    M'.mem = entryAdded M.mem sb name len size ∧
      ∃ r' disk, ataWriteSectors M.disk M'.mem (nextLba M.mem sb (fileCount M.mem sb)).toNat
          (kfsSectors size).toNat data = some (r', disk) ∧
        ataWriteSectors disk M'.mem 0 1 sb = some (r, M'.disk) := by
  rw [kfsWrite, if_neg (Nat.not_le_of_lt hk)] at h
  obtain ⟨m₂, hm₂, h⟩ := Option.bind_eq_some_iff.mp h
  obtain ⟨⟨r', disk⟩, hdata, h⟩ := Option.bind_eq_some_iff.mp h
  obtain ⟨⟨r'', disk'⟩, hsuper, h⟩ := Option.bind_eq_some_iff.mp h
  obtain rfl := hcopy m₂ hm₂
  have hmax : fileCount M.mem sb < 8 := hk
  have hlba : nextLba (((M.mem.store32 (sb + 4) (M.mem.load32 (sb + 4) + 1#32)).blit
      (kfsFile sb (fileCount M.mem sb)) (len + 1) fun t => M.mem.get (name + t)).store32
        (kfsFile sb (fileCount M.mem sb) + 36) size) sb (fileCount M.mem sb) =
      nextLba M.mem sb (fileCount M.mem sb) := by
    refine nextLba_congr fun j hj => Mem.load32_congr fun t ht => ?_
    rw [Nat.add_assoc, kfsFile_add sb j]
    exact get_slot_stores _ _ _ _ hk hlen (by omega) (by unfold sizeofKfsFile; omega)
  have hcount : M.mem.load32 (sb + 4) + 1#32 - 1#32 = M.mem.load32 (sb + 4) :=
    BitVec.add_sub_cancel ..
  have hnat : (M.mem.load32 (sb + 4)).toNat = fileCount M.mem sb := rfl
  rw [load_slot_stores _ _ _ _ hk hlen, hcount, hnat, hlba] at hdata hsuper h
  rw [Mem.load32_store32] at hdata
  obtain ⟨rfl, rfl⟩ := Prod.mk.inj (Option.some_inj.mp h)
  exact ⟨rfl, r', disk, hdata, hsuper⟩

section

variable {M M' : Machine} {sb i data len : ℕ} {size : BitVec 32} {r : ℤ}
  (hk : fileCount M.mem sb < kfsMaxFiles) (hi : i < fileCount M.mem sb)
  (hname : StringAt M.mem (kfsFile sb i) len)
  (h : kfsWrite M sb (kfsFile sb i) data size = some (r, M'))

include hk hi hname h

theorem kfsWrite_again :
    len < sizeofKfsFile * (fileCount M.mem sb - i) ∧
      M'.mem = entryAdded M.mem sb (kfsFile sb i) len size ∧
      ∃ r' disk, ataWriteSectors M.disk M'.mem (nextLba M.mem sb (fileCount M.mem sb)).toNat
          (kfsSectors size).toNat data = some (r', disk) ∧
        ataWriteSectors disk M'.mem 0 1 sb = some (r, M'.disk) := by
  have hlen : len < sizeofKfsFile * (fileCount M.mem sb - i) := by
    have hcopied := h
    rw [kfsWrite, if_neg (Nat.not_le_of_lt hk)] at hcopied
    obtain ⟨m₂, hcopy, -⟩ := Option.bind_eq_some_iff.mp hcopied
    exact (strcpy_entry hk hi _ hname hcopy).1
  have hmax : fileCount M.mem sb < 8 := hk
  refine ⟨hlen, kfsWrite_copied hk (by unfold sizeofKfsFile at hlen; omega) ?_ h⟩
  exact fun m' hcopy => (strcpy_entry hk hi _ hname hcopy).2

theorem get_kfsWrite_again {j t : ℕ}
    (hlt : sizeofKfsFile * j + t < sizeofKfsFile * fileCount M.mem sb) :
    M'.mem.get (kfsFile sb j + t) = M.mem.get (kfsFile sb j + t) := by
  obtain ⟨hlen, hmem, -⟩ := kfsWrite_again hk hi hname h
  have hmax : fileCount M.mem sb < 8 := hk
  rw [hmem, kfsFile_add]
  exact get_entryAdded hk (by unfold sizeofKfsFile at *; omega) _ (by omega) (by omega)

theorem sector_kfsWrite_again (hdisk : M.disk.ErrorFree) :
    M'.disk.ErrorFree ∧ M'.disk.sector = sectorAfter M M'.mem sb data size := by
  obtain ⟨-, -, r', disk, hdata, hsuper⟩ := kfsWrite_again hk hi hname h
  obtain ⟨-, stored, hwd⟩ := ataWriteSectors_some hdata
  obtain ⟨-, stored', hws⟩ := ataWriteSectors_some hsuper
  have hdisk' : disk.ErrorFree := hdisk.congr hwd.reply
  rw [hdisk.passed] at hwd
  rw [hdisk'.passed] at hws
  refine ⟨hdisk'.congr hws.reply, funext fun s => ?_⟩
  · have hmax : fileCount M.mem sb < 8 := hk
    have hbound := (toNat_nextLba M.mem sb (Nat.le_of_lt hk)).2
    have hpos := (toNat_nextLba M.mem sb (Nat.le_of_lt hk)).1
    have hmod := Nat.mod_lt (kfsSectors size).toNat (y := 2 ^ 8) (by decide)
    have hlimit : lbaLimit = 2 ^ 28 := rfl
    rw [sectorAfter]
    by_cases hs : s = 0
    · rw [if_pos hs, hs]
      exact hws.sector (0, sectorAt M'.mem sb) ((hws.mem_stored _).mpr
        ⟨0, Nat.one_pos, Reply.kept_of_taken (hdisk' _), rfl⟩)
    · rw [if_neg hs, hws.below (by rw [hlimit]; decide) (Or.inr (by omega))]
      by_cases hin : (nextLba M.mem sb (fileCount M.mem sb)).toNat ≤ s ∧
          s < (nextLba M.mem sb (fileCount M.mem sb)).toNat + (kfsSectors size).toNat % 2 ^ 8
      · rw [if_pos hin]
        refine hwd.sector (s, sectorAt M'.mem (data + 1024 * (s - _)))
          ((hwd.mem_iff (by omega) _).mpr
            ⟨s - (nextLba M.mem sb (fileCount M.mem sb)).toNat, by omega,
            Reply.kept_of_taken (hdisk _), ?_⟩)
        rw [Nat.add_sub_cancel' hin.1]
      · rw [if_neg hin]
        exact hwd.below (by omega) (by omega)

theorem kfsFind_again {path path' : ℕ} (hfind : kfsFind M.mem sb path = some (some i))
    (hpath : StringAt M.mem path len)
    (hsame : ∀ t ≤ len, M'.mem.get (path' + t) = M.mem.get (path + t)) :
    kfsFind M'.mem sb path' = some (some i) ∧ fileSize M'.mem sb i = fileSize M.mem sb i ∧
      startLba M'.mem sb i = startLba M.mem sb i := by
  obtain ⟨hlen, hmem, -⟩ := kfsWrite_again hk hi hname h
  have hmax : fileCount M.mem sb < 8 := hk
  have hspace : addressSpace = 2 ^ 32 := rfl
  unfold sizeofKfsFile at hlen
  have hslot : len < sizeofKfsFile * fileCount M.mem sb := by
    unfold sizeofKfsFile
    omega
  have hget : ∀ j t, sizeofKfsFile * j + t < sizeofKfsFile * fileCount M.mem sb →
      M'.mem.get (kfsFile sb j + t) = M.mem.get (kfsFile sb j + t) := fun _ _ =>
    get_kfsWrite_again hk hi hname h
  have hload : ∀ x, x + 4 ≤ sizeofKfsFile →
      M'.mem.load32 (kfsFile sb i + x) = M.mem.load32 (kfsFile sb i + x) := by
    intro x hx
    refine Mem.load32_congr fun t ht => ?_
    rw [Nat.add_assoc]
    exact hget i (x + t) (by unfold sizeofKfsFile at *; omega)
  obtain ⟨-, hsameName, hfirst⟩ := (kfsFind_some hpath (by omega)).mp hfind
  refine ⟨(kfsFind_some (hpath.congr hsame) (by omega)).mpr ⟨?_, ?_, ?_⟩,
    hload 36 (by decide), hload 32 (by decide)⟩
  · rw [hmem, fileCount_entryAdded hk (by omega)]
    omega
  · intro t ht
    rw [hget i t (by unfold sizeofKfsFile; omega), hsame t ht]
    exact hsameName t ht
  · intro j hj hs
    refine hfirst j hj fun t ht => ?_
    rw [← hget j t (by unfold sizeofKfsFile; omega), ← hsame t ht]
    exact hs t ht

end

def Delivers (M : Machine) (sb f buf : ℕ) (count : BitVec 32) (bytes : ℕ → Byte) : Prop :=
  ∃ r M', vfsLRead M sb f buf count = some (r, M') ∧ 0 ≤ r ∧
    ∀ j < count.toNat, M'.mem.get (buf + j) = bytes j

def SamePath (m m' : Mem) (path path' : ℕ) : Prop :=
  ∃ len, StringAt m path len ∧ ∀ t ≤ len, m'.get (path' + t) = m.get (path + t)

/-- The bytes that were written are read back, through the handle they were written through and
through a new one for the same path. -/
structure FileCoherent (M M' : Machine) (sb path f data buf : ℕ) (count : BitVec 32) : Prop where
  handle : Delivers M' sb f buf count fun j => M.mem.get (data + j)
  fresh : ∀ path', SamePath M.mem M'.mem path path' → ∃ f', vfsLOpen M'.mem sb path' = some f' ∧
    Delivers M' sb f' buf count fun j => M.mem.get (data + j)

/-- The byte that the reader of entry `i` finds at `j` when the memory is `m`: its sectors are those
that entry `i` had before, and the gaps between them are left alone. -/
def rereadByte (M : Machine) (m : Mem) (sb i data buf : ℕ) (size : BitVec 32) (j : ℕ) : Byte :=
  if InBlock ((kfsSectors (fileSize M.mem sb i)).toNat % 2 ^ 8) j then
    (sectorAfter M m sb data size (((startLba M.mem sb i).toNat + gather j / 512) % lbaLimit)).byte
      (gather j)
  else m.get (buf + j)

/-- What entry `i` has on the disk, where the write has not changed it, are the bytes written. -/
def AlreadyThere (M : Machine) (sb i data buf : ℕ) (size : BitVec 32) : Prop :=
  (kfsSectors (fileSize M.mem sb i)).toNat % 2 ^ 8 ≠ 0 ∧
    ∀ len, StringAt M.mem (kfsFile sb i) len → ∀ j < size.toNat,
      rereadByte M (entryAdded M.mem sb (kfsFile sb i) len size) sb i data buf size j =
        M.mem.get (data + j)

theorem kfsRead_again {M' : Machine} {sb name i : ℕ} (hdisk : M'.disk.ErrorFree)
    (hfind : kfsFind M'.mem sb name = some (some i)) (buf : ℕ) :
    ∃ r M₂, kfsRead M' sb name buf = some (r, M₂) ∧
      (0 ≤ r ↔ (kfsSectors (fileSize M'.mem sb i)).toNat % 2 ^ 8 ≠ 0) ∧
      M₂.mem = M'.mem.blitBlocks buf ((kfsSectors (fileSize M'.mem sb i)).toNat % 2 ^ 8)
        (M'.disk.byteAt (startLba M'.mem sb i).toNat) := by
  obtain ⟨⟨r, disk, mem⟩, hread⟩ := ataReadSectors_of_errorFree hdisk M'.mem
    (startLba M'.mem sb i).toNat (kfsSectors (fileSize M'.mem sb i)).toNat buf
  obtain ⟨hr, -, hmem⟩ := ataReadSectors_some hread
  refine ⟨r, { M' with mem := mem, disk := disk }, ?_, ?_, ?_⟩
  · rw [kfsRead, hfind, Option.bind_eq_bind, Option.bind_some]
    simp only [hread, Option.bind_eq_bind, Option.bind_some]
  · rw [hr]
    exact hdisk.answer_nonneg
  · rw [hdisk.passed] at hmem
    exact hmem

section

variable {M M' : Machine} {sb i data len : ℕ} {size : BitVec 32} {r : ℤ}
  (hk : fileCount M.mem sb < kfsMaxFiles) (hi : i < fileCount M.mem sb)
  (hname : StringAt M.mem (kfsFile sb i) len)
  (h : kfsWrite M sb (kfsFile sb i) data size = some (r, M'))

include hk hi hname h

theorem delivers_iff {name : ℕ} (hdisk : M.disk.ErrorFree) (hname0 : name ≠ 0)
    (hfind : kfsFind M'.mem sb name = some (some i))
    (hsize : fileSize M'.mem sb i = fileSize M.mem sb i)
    (hstart : startLba M'.mem sb i = startLba M.mem sb i) (buf : ℕ) :
    Delivers M' sb name buf size (fun j => M.mem.get (data + j)) ↔
      AlreadyThere M sb i data buf size := by
  obtain ⟨-, hmem', -⟩ := kfsWrite_again hk hi hname h
  obtain ⟨hdisk', hsector⟩ := sector_kfsWrite_again hk hi hname h hdisk
  obtain ⟨r', M₂, hread, hr', hmem⟩ := kfsRead_again hdisk' hfind buf
  rw [hsize] at hr' hmem
  rw [hstart] at hmem
  have hmod := Nat.mod_lt (kfsSectors (fileSize M.mem sb i)).toNat (y := 2 ^ 8) (by decide)
  have hcount := size.isLt
  have hget : ∀ j < size.toNat, M₂.mem.get (buf + j) =
      rereadByte M (entryAdded M.mem sb (kfsFile sb i) len size) sb i data buf size j := by
    intro j hj
    rw [rereadByte, ← hmem', hmem, Mem.get_blitBlocks _ _ _ _ (by unfold blockReach; omega),
      Mem.offset_add _ (by omega), Drive.byteAt, hsector]
  have hvfs : vfsLRead M' sb name buf size = some (r', M₂) := by
    rw [vfsLRead, if_neg hname0, hread]
  constructor
  · rintro ⟨r'', M₂', hread', hr'', hbytes⟩
    obtain ⟨rfl, rfl⟩ := Prod.mk.inj (Option.some_inj.mp (hvfs.symm.trans hread'))
    refine ⟨hr'.mp hr'', fun len' hlen' j hj => ?_⟩
    obtain rfl := hname.length_unique hlen'
    rw [← hget j hj]
    exact hbytes j hj
  · rintro ⟨hsectors, hbytes⟩
    refine ⟨r', M₂, hvfs, hr'.mpr hsectors, fun j hj => ?_⟩
    rw [hget j hj]
    exact hbytes len hname j hj

end

/-- What is written through a handle is read back through it, and through a new one, exactly when
the entry that was opened already has it: the write goes to another entry. -/
theorem vfsLWrite_vfsLRead_iff {M : Machine} {sb path f data : ℕ} {count : BitVec 32}
    {w : VfsWritten} (hdisk : M.disk.ErrorFree) (hopen : vfsLOpen M.mem sb path = some f)
    (h0 : f ≠ 0) (h1 : f ≠ ttyHandle) (hw : vfsLWrite M sb f data count = some w)
    (hr : 0 ≤ w.result) (buf : ℕ) :
    FileCoherent M w.machine sb path f data buf count ↔
      ∀ i, f = kfsFile sb i → AlreadyThere M sb i data buf count := by
  obtain ⟨htty, i, hfind, rfl⟩ := vfsLOpen_file hopen h0 h1
  rw [vfsLWrite, if_neg h0, if_neg h1] at hw
  obtain ⟨⟨r, M'⟩, hkfs, hw⟩ := Option.bind_eq_some_iff.mp hw
  obtain rfl := Option.some_inj.mp hw
  have hk : fileCount M.mem sb < kfsMaxFiles := by
    by_contra hfull
    obtain ⟨rfl, -⟩ := kfsWrite_full (Nat.le_of_not_lt hfull) hkfs
    exact absurd hr (by decide : ¬ (0 : ℤ) ≤ -1)
  obtain ⟨len, hlen, hpath⟩ := stringAt_of_kfsFindFrom hfind
  obtain ⟨hi, hsameName, -⟩ := (kfsFind_some hpath hlen).mp hfind
  have hname : StringAt M.mem (kfsFile sb i) len := hpath.congr hsameName
  have hentry : ∀ t ≤ len, M'.mem.get (kfsFile sb i + t) = M.mem.get (path + t) := by
    intro t ht
    have hshort := (kfsWrite_again hk hi hname hkfs).1
    rw [← hsameName t ht]
    exact get_kfsWrite_again hk hi hname hkfs (by unfold sizeofKfsFile at *; omega)
  obtain ⟨hfind', hsize, hstart⟩ := kfsFind_again hk hi hname hkfs hfind hpath hentry
  have hiff := delivers_iff hk hi hname hkfs hdisk h0 hfind' hsize hstart buf
  constructor
  · intro hcoherent j hj
    obtain rfl : i = j := by
      unfold kfsFile sizeofKfsFile at hj
      omega
    exact hiff.mp hcoherent.handle
  · intro hthere
    refine ⟨hiff.mpr (hthere i rfl), ?_⟩
    rintro path' ⟨len', hlen', hsame⟩
    obtain rfl := hpath.length_unique hlen'
    -- the new handle is the old one
    refine ⟨kfsFile sb i, ?_, hiff.mpr (hthere i rfl)⟩
    rw [vfsLOpen, strcmpLit_congr hpath hsame, if_neg htty,
      (kfsFind_again hk hi hname hkfs hfind hpath hsame).1]
    rfl

/-- On a volume that was made, or mounted from an image, entry `i` has what it had before. -/
theorem rereadByte_of_layout {M : Machine} {sb i j : ℕ} (hl : Layout M.mem sb)
    (hi : i < fileCount M.mem sb) (m : Mem) (data buf : ℕ) (size : BitVec 32)
    (hj : InBlock ((kfsSectors (fileSize M.mem sb i)).toNat % 2 ^ 8) j) :
    rereadByte M m sb i data buf size j =
      M.disk.byteAt (startLba M.mem sb i).toNat (gather j) := by
  have hle : fileCount M.mem sb ≤ 8 := hl.count_le
  have hbound := (toNat_nextLba M.mem sb hl.count_le).2
  have hlt := gather_lt hj
  have hmem : (startLba M.mem sb i).toNat + gather j / 512 ∈ fileExtent M.mem sb i := by
    refine ⟨Nat.le_add_right .., ?_⟩
    rw [fileSectors, ← toNat_kfsSectors_of_small (hl.small i hi)]
    have hmod := Nat.mod_le (kfsSectors (fileSize M.mem sb i)).toNat (2 ^ 8)
    omega
  rw [fileExtent_eq hl hi] at hmem
  have hlo := Extents.base_le_of_mem hmem
  have hhi := Extents.lt_start_of_mem hi hmem
  rw [← hl.toNat_nextLba] at hhi
  rw [rereadByte, if_pos hj, Drive.byteAt,
    Nat.mod_eq_of_lt (show _ < lbaLimit by unfold lbaLimit; omega), sectorAfter,
    if_neg (by omega), if_neg (by omega)]

def demoFile : ℤ × Machine :=
  (kfsWrite demoVolume demoSuperblock demoName demoData 1#32).get (by decide +kernel)

/-- The volume with one file, of the byte 0. -/
def demoFileVolume : Machine := demoFile.2

theorem demoFile_eq : kfsWrite demoVolume demoSuperblock demoName demoData 1#32 =
    some (demoFile.1, demoFile.2) := by
  rw [Prod.mk.eta]
  exact (Option.some_get _).symm

theorem demoFileVolume_errorFree : demoFileVolume.disk.ErrorFree := by
  obtain ⟨-, hfree, -⟩ :=
    kfsWrite_byteAt demoVolume_errorFree demoVolume_free demoName_at demoFile_eq
  unfold demoFileVolume
  exact hfree

theorem demoFile_open :
    vfsLOpen demoFileVolume.mem demoSuperblock demoName = some (kfsFile demoSuperblock 0) := by
  decide +kernel

/-- The same byte, written once more. -/
theorem demoFile_rewritten : ∃ w,
    vfsLWrite demoFileVolume demoSuperblock (kfsFile demoSuperblock 0) demoData 1#32 = some w ∧
      0 ≤ w.result ∧ FileCoherent demoFileVolume w.machine demoSuperblock demoName
        (kfsFile demoSuperblock 0) demoData 0x40000 1#32 := by
  have hrun : ((vfsLWrite demoFileVolume demoSuperblock (kfsFile demoSuperblock 0) demoData
      1#32).map VfsWritten.result) = some 1 := by decide +kernel
  obtain ⟨w, hw, hr⟩ := Option.map_eq_some_iff.mp hrun
  have hpos : 0 ≤ w.result := hr ▸ (by decide : (0 : ℤ) ≤ 1)
  refine ⟨w, hw, hpos, (vfsLWrite_vfsLRead_iff demoFileVolume_errorFree demoFile_open
    (kfsFile_ne _ _).1 (kfsFile_ne _ _).2 hw hpos 0x40000).mpr fun i hi => ?_⟩
  obtain rfl : 0 = i := by
    unfold kfsFile sizeofKfsFile at hi
    omega
  have hname : StringAt demoFileVolume.mem (kfsFile demoSuperblock 0) 1 := by
    unfold StringAt
    decide +kernel
  refine ⟨by decide +kernel, fun len hlen j hj => ?_⟩
  obtain rfl := hname.length_unique hlen
  revert j
  decide +kernel

/-- The byte `a`, written through the handle, is not read back: the file still has the byte 0. -/
theorem demoFile_not_coherent : demoFileVolume.disk.ErrorFree ∧
    vfsLOpen demoFileVolume.mem demoSuperblock demoName = some (kfsFile demoSuperblock 0) ∧
    ∃ w, vfsLWrite demoFileVolume demoSuperblock (kfsFile demoSuperblock 0) demoName 1#32 =
        some w ∧ 0 ≤ w.result ∧
      ¬ FileCoherent demoFileVolume w.machine demoSuperblock demoName (kfsFile demoSuperblock 0)
        demoName 0x40000 1#32 := by
  have hrun : ((vfsLWrite demoFileVolume demoSuperblock (kfsFile demoSuperblock 0) demoName
      1#32).bind fun w => (vfsLRead w.machine demoSuperblock (kfsFile demoSuperblock 0) 0x40000
        1#32).map fun x => (w.result, x.2.mem.get 0x40000, demoFileVolume.mem.get demoName)) =
      some (1, 0#8, 0x61#8) := by decide +kernel
  obtain ⟨w, hw, hrun⟩ := Option.bind_eq_some_iff.mp hrun
  obtain ⟨⟨r, M⟩, hread, hrun⟩ := Option.map_eq_some_iff.mp hrun
  obtain ⟨hr, hrun⟩ := Prod.mk.inj hrun
  obtain ⟨hold, hnew⟩ := Prod.mk.inj hrun
  refine ⟨demoFileVolume_errorFree, demoFile_open, w, hw, hr ▸ (by decide : (0 : ℤ) ≤ 1), ?_⟩
  intro hcoherent
  obtain ⟨r', M', hread', -, hbytes⟩ := hcoherent.handle
  obtain ⟨-, rfl⟩ := Prod.mk.inj (Option.some_inj.mp (hread.symm.trans hread'))
  have hbyte := hbytes 0 (by decide)
  exact absurd (hold.symm.trans (hbyte.trans hnew)) (by decide)

end System44
