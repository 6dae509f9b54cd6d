import System44.Vfs

/-!
# Walking the directory

Beside what they compute, the functions that walk the directory look at entries and at the bytes of
names. Both are bounded by what sector 0 says: the number of files, and the place of the first NUL
from the beginning of each name on.
-/

namespace System44

/-- The first `bytes` bytes from the name of entry `index` on are read. -/
structure NameRead where
  index : ℕ
  bytes : ℕ
  deriving DecidableEq

def NameRead.Safe (a : NameRead) : Prop := a.index < kfsMaxFiles ∧ a.bytes ≤ 32

instance (a : NameRead) : Decidable a.Safe := inferInstanceAs (Decidable (_ ∧ _))

def strcmpReads (m : Mem) : ℕ → ℕ → ℕ → ℕ
  | 0, _, _ => 0
  | fuel + 1, s1, s2 =>
    if m.get s1 ≠ 0#8 ∧ m.get s1 = m.get s2 then strcmpReads m fuel (s1 + 1) (s2 + 1) + 1 else 1

/-- How many bytes `puts` reads. Like a comparison it may go on for ever. -/
def putsReads (m : Mem) : ℕ → ℕ → Option ℕ
  | 0, _ => none
  | fuel + 1, s => if m.get s ≠ 0#8 then (putsReads m fuel (s + 1)).map (· + 1) else some 1

/-- What `kfs_find` reads from index `i` on, with `n` files left to look at. -/
def kfsFindReads (m : Mem) (sb name : ℕ) : ℕ → ℕ → List NameRead
  | 0, _ => []
  | n + 1, i =>
    ⟨i, strcmpReads m addressSpace (kfsFile sb i) name⟩ ::
      match strcmp m (kfsFile sb i) name with
      | some c => if c = 0 then [] else kfsFindReads m sb name n (i + 1)
      | none => []

def lsReads (m : Mem) (sb : ℕ) : ℕ → ℕ → List NameRead
  | 0, _ => []
  | n + 1, j =>
    match putsReads m addressSpace (kfsFile sb j) with
    | some bytes => ⟨j, bytes⟩ :: lsReads m sb n (j + 1)
    | none => [⟨j, addressSpace⟩]

def kfsReadIndices (m : Mem) (sb name : ℕ) : List ℕ :=
  match kfsFind m sb name with
  | some (some i) => [i]
  | _ => []

def kfsWriteIndices (m : Mem) (sb name : ℕ) (size : BitVec 32) : Option (List ℕ) := do
  if kfsMaxFiles ≤ fileCount m sb then some []
  else
    let f := kfsFile sb (fileCount m sb)
    let m₁ ← strcpy (m.store32 (sb + 4) (m.load32 (sb + 4) + 1#32)) f name
    let m₂ := m₁.store32 (f + 36) size
    some (fileCount m sb :: List.range (m₂.load32 (sb + 4) - 1#32).toNat)

/-- Whatever name is looked up, listed, read or written, the walk stays in the directory. -/
structure WalkSafe (m : Mem) (sb : ℕ) : Prop where
  find : ∀ name, ∀ a ∈ kfsFindReads m sb name (fileCount m sb) 0, a.Safe
  ls : ∀ a ∈ lsReads m sb (fileCount m sb) 0, a.Safe
  read : ∀ name, ∀ i ∈ kfsReadIndices m sb name, i < kfsMaxFiles
  write : ∀ name size is, NameOk m sb name → kfsWriteIndices m sb name size = some is →
    ∀ i ∈ is, i < kfsMaxFiles

/-- A mounted volume that is used: files are added, under names of at most 31 bytes, and the rest
of the kernel uses its own memory and the disk. -/
inductive UsedSince (sb : ℕ) (M₀ : Machine) : Machine → Prop
  | mounted : UsedSince sb M₀ M₀
  | write {M M' : Machine} {name data : ℕ} {size : BitVec 32} {r : ℤ} : UsedSince sb M₀ M →
      NameOk M.mem sb name → kfsWrite M sb name data size = some (r, M') → UsedSince sb M₀ M'
  | elsewhere {M M' : Machine} : UsedSince sb M₀ M →
      (∀ x < sizeofKfsSuperblock, M'.mem.get (sb + x) = M.mem.get (sb + x)) → UsedSince sb M₀ M'

/-- A superblock with these bytes has at most eight files, and every name ends within its field. -/
def Walkable (bytes : ℕ → Byte) : Prop :=
  (leWord fun i => bytes (4 + i)).toNat ≤ kfsMaxFiles ∧
    ∀ i < (leWord fun i => bytes (4 + i)).toNat,
      ∃ t < 32, bytes (8 + sizeofKfsFile * i + t) = 0#8

instance (bytes : ℕ → Byte) : Decidable (Walkable bytes) :=
  inferInstanceAs (Decidable (_ ∧ ∀ i < _, ∃ t < 32, _))

theorem walkable_congr {bytes bytes' : ℕ → Byte}
    (hsame : ∀ x < sizeofKfsSuperblock, bytes' x = bytes x) (h : Walkable bytes) :
    Walkable bytes' := by
  have hcount : (leWord fun i => bytes' (4 + i)) = leWord fun i => bytes (4 + i) :=
    leWord_congr fun i hi => hsame _ (by unfold sizeofKfsSuperblock; omega)
  have hmax : (leWord fun i => bytes (4 + i)).toNat ≤ 8 := h.1
  rw [Walkable, hcount]
  refine ⟨h.1, fun i hi => ?_⟩
  obtain ⟨t, ht, hnul⟩ := h.2 i hi
  refine ⟨t, ht, ?_⟩
  rw [hsame _ (by unfold sizeofKfsSuperblock sizeofKfsFile; omega)]
  exact hnul

/-- The same of a superblock in memory. -/
theorem walkable_iff {m : Mem} {sb : ℕ} : Walkable (fun x => m.get (sb + x)) ↔
    fileCount m sb ≤ kfsMaxFiles ∧
      ∀ i < fileCount m sb, ∃ t < 32, m.get (kfsFile sb i + t) = 0#8 := by
  have hcount : (leWord fun i => m.get (sb + (4 + i))).toNat = fileCount m sb := by
    rw [fileCount, Mem.load32]
    simp only [Nat.add_assoc]
  rw [Walkable, hcount]
  simp only [kfsFile_add]

section

variable {m : Mem} {fuel s n : ℕ}

theorem strcmpReads_le {s2 : ℕ} (h : ∃ t < n, m.get (s + t) = 0#8) :
    strcmpReads m fuel s s2 ≤ n := by
  induction fuel generalizing s s2 n with
  | zero => exact Nat.zero_le n
  | succ fuel ih =>
      obtain ⟨t, ht, hnul⟩ := h
      rw [strcmpReads]
      split
      · rename_i hgo
        cases t with
        | zero => exact absurd hnul hgo.1
        | succ t =>
            have hrest : strcmpReads m fuel (s + 1) (s2 + 1) ≤ n - 1 :=
              ih ⟨t, by omega, by rwa [Nat.add_right_comm]⟩
            omega
      · omega

theorem putsReads_le {bytes : ℕ} (hp : putsReads m fuel s = some bytes)
    (h : ∃ t < n, m.get (s + t) = 0#8) : bytes ≤ n := by
  induction fuel generalizing s n bytes with
  | zero => cases hp
  | succ fuel ih =>
      obtain ⟨t, ht, hnul⟩ := h
      rw [putsReads] at hp
      split at hp
      · rename_i hne
        obtain ⟨b, hb, rfl⟩ := Option.map_eq_some_iff.mp hp
        cases t with
        | zero => exact absurd hnul hne
        | succ t =>
            have hrest : b ≤ n - 1 := ih hb ⟨t, by omega, by rwa [Nat.add_right_comm]⟩
            omega
      · obtain rfl := Option.some_inj.mp hp
        omega

theorem putsReads_some {bytes : ℕ} (hp : putsReads m fuel s = some bytes) :
    ∃ t < bytes, m.get (s + t) = 0#8 := by
  induction fuel generalizing s bytes with
  | zero => cases hp
  | succ fuel ih =>
      rw [putsReads] at hp
      split at hp
      · obtain ⟨b, hb, rfl⟩ := Option.map_eq_some_iff.mp hp
        obtain ⟨t, ht, hnul⟩ := ih hb
        exact ⟨t + 1, by omega, by rwa [Nat.add_right_comm] at hnul⟩
      · rename_i heq
        exact ⟨0, by rw [← Option.some_inj.mp hp]; exact Nat.one_pos, not_not.mp heq⟩

theorem putsReads_isSome {t : ℕ} (ht : t < fuel) (hnul : m.get (s + t) = 0#8) :
    ∃ bytes, putsReads m fuel s = some bytes := by
  induction fuel generalizing s t with
  | zero => exact absurd ht (Nat.not_lt_zero t)
  | succ fuel ih =>
      rw [putsReads]
      split
      · rename_i hne
        cases t with
        | zero => exact absurd hnul hne
        | succ t =>
            rw [← Nat.add_assoc, Nat.add_right_comm] at hnul
            obtain ⟨b, hb⟩ := ih (by omega) hnul
            exact ⟨b + 1, by rw [hb]; rfl⟩
      · exact ⟨1, rfl⟩

end

section

variable {m : Mem} {sb : ℕ}

theorem lsReads_safe_iff {n j : ℕ} :
    (∀ a ∈ lsReads m sb n j, a.Safe) ↔
      ∀ i, j ≤ i → i < j + n → i < kfsMaxFiles ∧ ∃ t < 32, m.get (kfsFile sb i + t) = 0#8 := by
  induction n generalizing j with
  | zero =>
      refine iff_of_true (fun a ha => ?_) fun i hlo hhi => absurd hhi (by omega)
      cases ha
  | succ n ih =>
      rw [lsReads]
      constructor
      · intro hsafe i hlo hhi
        cases hp : putsReads m addressSpace (kfsFile sb j) with
        | none =>
            rw [hp] at hsafe
            have hle : addressSpace ≤ 32 := (hsafe _ (List.mem_singleton_self _)).2
            exact absurd hle (by decide)
        | some bytes =>
            rw [hp] at hsafe
            rcases Nat.eq_or_lt_of_le hlo with rfl | hlt
            · obtain ⟨hmax, hle⟩ := hsafe _ List.mem_cons_self
              obtain ⟨t, ht, hnul⟩ := putsReads_some hp
              exact ⟨hmax, t, ht.trans_le hle, hnul⟩
            · exact ih.mp (fun a ha => hsafe a (List.mem_cons_of_mem _ ha)) i hlt (by omega)
      · intro hall
        obtain ⟨hmax, t, ht, hnul⟩ := hall j (Nat.le_refl j) (by omega)
        obtain ⟨bytes, hp⟩ := putsReads_isSome (ht.trans (by decide : 32 < addressSpace)) hnul
        rw [hp]
        intro a ha
        rcases List.mem_cons.mp ha with rfl | ha
        · exact ⟨hmax, putsReads_le hp ⟨t, ht, hnul⟩⟩
        · exact ih.mpr (fun i hlo hhi => hall i (by omega) (by omega)) a ha

theorem kfsFindReads_safe (h : Walkable fun x => m.get (sb + x)) (name : ℕ) {n i : ℕ}
    (hn : i + n ≤ fileCount m sb) : ∀ a ∈ kfsFindReads m sb name n i, a.Safe := by
  induction n generalizing i with
  | zero =>
      intro a ha
      cases ha
  | succ n ih =>
      intro a ha
      have hi : i < fileCount m sb := by omega
      obtain ⟨hmax, hnul⟩ := walkable_iff.mp h
      rcases List.mem_cons.mp ha with rfl | ha
      · exact ⟨hi.trans_le hmax, strcmpReads_le (hnul i hi)⟩
      · split at ha
        · split at ha
          · cases ha
          · exact ih (by omega) a ha
        · cases ha

theorem kfsFindFrom_bounds {name n i k : ℕ} (h : kfsFindFrom m sb name n i = some (some k)) :
    i ≤ k ∧ k < i + n := by
  induction n generalizing i with
  | zero => cases h
  | succ n ih =>
      obtain ⟨c, -, h⟩ := Option.bind_eq_some_iff.mp h
      split at h
      · obtain rfl : i = k := by simpa using h
        omega
      · have hk := ih h
        omega

theorem kfsWriteIndices_eq {name len : ℕ} {size : BitVec 32} {is : List ℕ}
    (hk : fileCount m sb < kfsMaxFiles) (hname : NameAt m sb (fileCount m sb) name len)
    (h : kfsWriteIndices m sb name size = some is) :
    is = fileCount m sb :: List.range (fileCount m sb) := by
  rw [kfsWriteIndices, if_neg (Nat.not_le_of_lt hk)] at h
  obtain ⟨m₁, hcopy, h⟩ := Option.bind_eq_some_iff.mp h
  obtain ⟨-, he⟩ := entered_of_stores rfl hk hname rfl hcopy
    (rfl : m₁.store32 (kfsFile sb (fileCount m sb) + 36) size = _)
  have hmax : fileCount m sb < 8 := hk
  have hload : (m₁.store32 (kfsFile sb (fileCount m sb) + 36) size).load32 (sb + 4) =
      ((m₁.store32 (kfsFile sb (fileCount m sb) + 36) size).store32
        (kfsFile sb (fileCount m sb) + 32) (nextLba m sb (fileCount m sb))).load32 (sb + 4) := by
    refine Mem.load32_congr fun t ht => ?_
    rw [Nat.add_assoc, kfsFile_add sb _ 32]
    unfold sizeofKfsFile
    exact (Mem.get_store32_beside _ _ (by omega) (by omega) (by omega)).symm
  have hcount : ((m₁.store32 (kfsFile sb (fileCount m sb) + 36) size).load32 (sb + 4)).toNat =
      fileCount m sb + 1 := by
    rw [hload]
    exact he.fileCount
  have hnat : ((m₁.store32 (kfsFile sb (fileCount m sb) + 36) size).load32 (sb + 4) -
      1#32).toNat = fileCount m sb := by
    rw [BitVec.toNat_sub, hcount, BitVec.toNat_ofNat]
    omega
  dsimp only at h
  rw [hnat] at h
  exact (Option.some_inj.mp h).symm

theorem walkSafe_iff : WalkSafe m sb ↔ Walkable fun x => m.get (sb + x) := by
  constructor
  · intro h
    have hall := lsReads_safe_iff.mp h.ls
    refine walkable_iff.mpr ⟨Nat.le_of_not_lt fun hlt => ?_, fun i hi =>
      (hall i (Nat.zero_le i) (by omega)).2⟩
    exact absurd (hall kfsMaxFiles (Nat.zero_le _) (by omega)).1 (Nat.lt_irrefl _)
  · intro h
    obtain ⟨hmax, hnul⟩ := walkable_iff.mp h
    refine ⟨fun name => kfsFindReads_safe h name (by omega), lsReads_safe_iff.mpr ?_, ?_, ?_⟩
    · intro i _ hi
      have hlt : i < fileCount m sb := by omega
      exact ⟨hlt.trans_le hmax, hnul i hlt⟩
    · intro name i hi
      rw [kfsReadIndices] at hi
      split at hi
      · rename_i k hfind
        obtain rfl := List.mem_singleton.mp hi
        have hk := (kfsFindFrom_bounds hfind).2
        exact (show i < fileCount m sb by omega).trans_le hmax
      · cases hi
    · intro name size is hname his i hi
      rcases Nat.lt_or_ge (fileCount m sb) kfsMaxFiles with hk | hfull
      · obtain ⟨len, hname⟩ := hname hk
        rw [kfsWriteIndices_eq hk hname his] at hi
        rcases List.mem_cons.mp hi with rfl | hi
        · exact hk
        · exact (List.mem_range.mp hi).trans hk
      · rw [kfsWriteIndices, if_pos hfull] at his
        rw [← Option.some_inj.mp his] at hi
        cases hi

theorem walkable_write {M M' : Machine} {name data : ℕ} {size : BitVec 32} {r : ℤ}
    (h : Walkable fun x => M.mem.get (sb + x)) (hname : NameOk M.mem sb name)
    (hw : kfsWrite M sb name data size = some (r, M')) :
    Walkable fun x => M'.mem.get (sb + x) := by
  rcases Nat.lt_or_ge (fileCount M.mem sb) kfsMaxFiles with hk | hfull
  · obtain ⟨len, hname⟩ := hname hk
    obtain ⟨he, -, -⟩ := kfsWrite_entered hk hname hw
    have hshort := hname.short
    rw [walkable_iff, he.fileCount]
    refine ⟨hk, fun i hi => ?_⟩
    rcases Nat.lt_succ_iff_lt_or_eq.mp hi with hlt | rfl
    · obtain ⟨t, ht, hnul⟩ := (walkable_iff.mp h).2 i hlt
      refine ⟨t, ht, ?_⟩
      rw [he.get_kfsFile (by omega) (by omega) (by unfold sizeofKfsFile; omega)]
      exact hnul
    · refine ⟨len, by omega, ?_⟩
      rw [he.nameBytes len (Nat.le_refl len)]
      exact hname.string.2
  · obtain ⟨-, rfl⟩ := kfsWrite_full hfull hw
    exact h

theorem walkable_used {M₀ M : Machine} (h : UsedSince sb M₀ M)
    (h₀ : Walkable fun x => M₀.mem.get (sb + x)) : Walkable fun x => M.mem.get (sb + x) := by
  induction h with
  | mounted => exact h₀
  | write _ hname hw ih => exact walkable_write ih hname hw
  | elsewhere _ hsame ih => exact walkable_congr hsame ih

end

/-- A mounted volume is safe to walk, however it is used, exactly when sector 0 has at most eight
files and every name in it ends within its field. -/
theorem kfsMount_walkSafe_iff {M M' : Machine} {sb : ℕ} {r : ℤ}
    (h : kfsMount M sb = some (.ok (r, M'))) :
    (∀ M'', UsedSince sb M' M'' → WalkSafe M''.mem sb) ↔ Walkable (M.disk.sector 0).byte := by
  have hbytes : ∀ x < sizeofKfsSuperblock, M'.mem.get (sb + x) = (M.disk.sector 0).byte x := by
    intro x hx
    have hlt : x < 512 := hx.trans_le (by decide)
    rw [(kfsMount_some h).1, Mem.get_blit_add _ _ _ (by decide) hlt,
      Drive.byteAt_of_lt (by decide) hlt]
  constructor
  · intro hall
    exact walkable_congr (fun x hx => (hbytes x hx).symm) (walkSafe_iff.mp (hall M' .mounted))
  · intro hwalk M'' hused
    exact walkSafe_iff.mpr (walkable_used hused (walkable_congr hbytes hwalk))

def listedSector (count : BitVec 32) (len : ℕ) : Sector := fun i =>
  if i.val < 4 then leBytes kfsMagic i.val
  else if i.val < 8 then leBytes count (i.val - 4)
  else if i.val < 8 + len then 0x61#8
  else if i.val = 40 then 1#8
  else 0#8

def listedMachine (count : BitVec 32) (len : ℕ) : Machine :=
  { demoMachine with disk := { steadyDisk with sector := fun _ => listedSector count len } }

def listedMount (count : BitVec 32) (len : ℕ) : Option Machine :=
  match kfsMount (listedMachine count len) demoSuperblock with
  | some (.ok (_, M)) => some M
  | _ => none

theorem listedMount_some {count : BitVec 32} {len : ℕ} {M : Machine}
    (h : listedMount count len = some M) :
    ∃ r, kfsMount (listedMachine count len) demoSuperblock = some (.ok (r, M)) := by
  unfold listedMount at h
  split at h
  · rename_i r M' hmount
    obtain rfl := Option.some_inj.mp h
    exact ⟨r, hmount⟩
  · cases h

/-- One file, with a name of 31 letters. -/
theorem oneFile_walkSafe : ∃ r M',
    kfsMount (listedMachine 1#32 31) demoSuperblock = some (.ok (r, M')) ∧
      ∀ M'', UsedSince demoSuperblock M' M'' → WalkSafe M''.mem demoSuperblock := by
  obtain ⟨M', hM'⟩ := Option.isSome_iff_exists.mp
    (by decide +kernel : (listedMount 1#32 31).isSome = true)
  obtain ⟨r, hmount⟩ := listedMount_some hM'
  exact ⟨r, M', hmount, (kfsMount_walkSafe_iff hmount).mpr (by decide +kernel)⟩

/-- `ls` prints a ninth entry of nine files, and goes on behind a name of 32 letters. -/
theorem nineFiles_not_walkSafe :
    (∃ r M', kfsMount (listedMachine 9#32 1) demoSuperblock = some (.ok (r, M')) ∧
      ¬ WalkSafe M'.mem demoSuperblock) ∧
    ∃ r M', kfsMount (listedMachine 1#32 32) demoSuperblock = some (.ok (r, M')) ∧
      ¬ WalkSafe M'.mem demoSuperblock := by
  have hwalk (count : BitVec 32) (len : ℕ) (a : NameRead) (ha : ¬ a.Safe)
      (hrun : ((listedMount count len).map fun M => decide
        (a ∈ lsReads M.mem demoSuperblock (fileCount M.mem demoSuperblock) 0)) = some true) :
      ∃ r M', kfsMount (listedMachine count len) demoSuperblock = some (.ok (r, M')) ∧
        ¬ WalkSafe M'.mem demoSuperblock := by
    obtain ⟨M', hM', hmem⟩ := Option.map_eq_some_iff.mp hrun
    obtain ⟨r, hmount⟩ := listedMount_some hM'
    exact ⟨r, M', hmount, fun h => ha (h.ls a (of_decide_eq_true hmem))⟩
  exact ⟨hwalk 9#32 1 ⟨8, 1⟩ (by decide) (by decide +kernel),
    hwalk 1#32 32 ⟨0, 34⟩ (by decide) (by decide +kernel)⟩

end System44
