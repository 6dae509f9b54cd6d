import System44.KfsFind
import System44.KfsLayout

/-!
# The names of an image

The image builder cuts a name to the 32 bytes of its field and pads a shorter one, while the kernel
reads a name up to its NUL. A name that fills the field has its NUL where the sector number begins,
so the two agree on it only if the low byte of that number is zero.
-/

namespace System44

/-- The characters of the name as they are stored. -/
def HostFile.storedName (f : HostFile) : List Byte :=
  (f.name.take 32).map fun c => BitVec.ofNat 8 c.toNat

/-- A file name as a host has them: not empty, ASCII and without NUL. -/
def HostFile.Named (f : HostFile) : Prop := f.name ≠ [] ∧ ∀ c ∈ f.name, 0 < c.toNat ∧ c.toNat < 128

instance (f : HostFile) : Decidable f.Named := inferInstanceAs (Decidable (_ ∧ _))

/-- The stored name of `f`, with a NUL behind it, lies at `name`. -/
def NameStored (m : Mem) (name : ℕ) (f : HostFile) : Prop :=
  ∀ t ≤ f.storedName.length, m.get (name + t) = f.storedName.getD t 0#8

instance (m : Mem) (name : ℕ) (f : HostFile) : Decidable (NameStored m name f) :=
  inferInstanceAs (Decidable (∀ t ≤ _, _))

theorem encodeAscii_some {name : List Char} {bytes : List Byte}
    (h : encodeAscii name = some bytes) :
    bytes = name.map fun c => BitVec.ofNat 8 c.toNat := by
  induction name generalizing bytes with
  | nil => exact (Option.some_inj.mp h).symm
  | cons c name ih =>
      rw [encodeAscii, List.mapM_cons] at h
      obtain ⟨b, hb, h⟩ := Option.bind_eq_some_iff.mp h
      obtain ⟨rest, hrest, h⟩ := Option.bind_eq_some_iff.mp h
      obtain rfl := Option.some_inj.mp h
      rw [List.map_cons, ← ih hrest]
      split at hb
      · rw [Option.some_inj.mp hb]
      · cases hb

theorem packEntry_name {f : HostFile} {lba : ℕ} {entry : List Byte}
    (h : packEntry f lba = some entry) {t : ℕ} (ht : t < 32) :
    entry.getD t 0#8 = f.storedName.getD t 0#8 := by
  obtain ⟨name, hname, h⟩ := Option.bind_eq_some_iff.mp h
  obtain ⟨lbaBytes, -, h⟩ := Option.bind_eq_some_iff.mp h
  obtain ⟨sizeBytes, -, h⟩ := Option.bind_eq_some_iff.mp h
  obtain rfl := Option.some_inj.mp h
  have hstored : name.take 32 = f.storedName := by
    rw [encodeAscii_some hname, HostFile.storedName, List.map_take]
  have hlen : f.storedName.length ≤ 32 := by
    rw [← hstored, List.length_take]
    exact Nat.min_le_left ..
  rw [hstored, List.append_assoc, List.getD_append _ _ _ _ (by
    rw [List.length_rightpad]
    omega), List.rightpad]
  rcases Nat.lt_or_ge t f.storedName.length with hlt | hge
  · rw [List.getD_append _ _ _ _ hlt]
  · rw [List.getD_append_right _ _ _ _ hge, List.getD_eq_default _ _ hge,
      List.getD_replicate _ (by omega)]

theorem storedName_ne_zero {f : HostFile} (h : f.Named) {t : ℕ} (ht : t < f.storedName.length) :
    f.storedName.getD t 0#8 ≠ 0#8 := by
  rw [List.getD_eq_getElem _ _ ht]
  have hmem : f.storedName[t] ∈ f.storedName := List.getElem_mem ht
  obtain ⟨c, hc, heq⟩ := List.mem_map.mp hmem
  obtain ⟨hpos, hlt⟩ := h.2 c (List.mem_of_mem_take hc)
  rw [← heq]
  intro h0
  have hnat := congrArg BitVec.toNat h0
  rw [BitVec.toNat_ofNat, Nat.mod_eq_of_lt (by omega)] at hnat
  exact absurd hnat hpos.ne'

theorem storedName_inj {f g : HostFile} (hf : f.Named) (hg : g.Named)
    (h : f.storedName = g.storedName) : f.name.take 32 = g.name.take 32 := by
  have hdecode (k : HostFile) (hk : k.Named) :
      k.storedName.map (fun b => Char.ofNat b.toNat) = k.name.take 32 := by
    rw [HostFile.storedName, List.map_map]
    refine (List.map_congr_left fun c hc => ?_).trans (List.map_id _)
    have hlt := (hk.2 c (List.mem_of_mem_take hc)).2
    simp only [Function.comp_apply, BitVec.toNat_ofNat, id_eq]
    rw [Nat.mod_eq_of_lt (by omega), Char.ofNat_toNat]
  rw [← hdecode f hf, ← hdecode g hg, h]

theorem length_storedName (f : HostFile) : f.storedName.length = min 32 f.name.length := by
  rw [HostFile.storedName, List.length_map, List.length_take]

theorem NameStored.string {m : Mem} {name : ℕ} {f : HostFile} (h : NameStored m name f)
    (hf : f.Named) : StringAt m name f.storedName.length := by
  constructor
  · intro i hi
    rw [h i (Nat.le_of_lt hi)]
    exact storedName_ne_zero hf hi
  · rw [h _ (Nat.le_refl _), List.getD_eq_default _ _ (Nat.le_refl _)]

theorem genkfsLoop_data {files : List HostFile} {lba : ℕ} {es es' ds ds' : List Byte}
    (h : genkfsLoop files lba es ds = some (es', ds')) :
    ∃ new, ds' = ds ++ new ∧ ∀ (i : ℕ) (_ : i < files.length), ∀ x < files[i].size,
      new.getD (512 * ((files.map HostFile.sectors).take i).sum + x) 0#8 =
        files[i].data.getD x 0#8 := by
  induction files generalizing lba es ds with
  | nil =>
      obtain ⟨rfl, rfl⟩ := Prod.mk.inj (Option.some_inj.mp h)
      exact ⟨[], (List.append_nil _).symm, fun i hi => absurd hi (Nat.not_lt_zero i)⟩
  | cons f files ih =>
      obtain ⟨entry, -, hrest⟩ := Option.bind_eq_some_iff.mp h
      obtain ⟨new, hnew, hall⟩ := ih hrest
      have hpad : f.size ≤ f.sectors * kfsSectorSize := by
        unfold HostFile.sectors kfsSectorSize
        omega
      refine ⟨f.data ++ List.replicate (f.sectors * kfsSectorSize - f.size) 0#8 ++ new,
        by rw [hnew]; simp only [List.append_assoc], ?_⟩
      intro i hi x hx
      cases i with
      | zero =>
          rw [List.append_assoc, List.take_zero, List.sum_nil, Nat.mul_zero, Nat.zero_add]
          exact List.getD_append _ _ _ _ hx
      | succ i =>
          have hlen : (f.data ++ List.replicate (f.sectors * kfsSectorSize - f.size) 0#8).length =
              512 * f.sectors := by
            rw [List.length_append, List.length_replicate]
            unfold HostFile.size kfsSectorSize at *
            omega
          have hindex : 512 * (((f :: files).map HostFile.sectors).take (i + 1)).sum + x -
              512 * f.sectors = 512 * ((files.map HostFile.sectors).take i).sum + x := by
            rw [List.map_cons, List.take_succ_cons, List.sum_cons]
            omega
          rw [List.getD_append_right _ _ _ _ (by
            rw [hlen, List.map_cons, List.take_succ_cons, List.sum_cons]
            omega), hlen, hindex]
          exact hall i (Nat.lt_of_succ_lt_succ hi) x hx

theorem genkfs_data {dir : List HostFile} {img : List Byte} (h : genkfs dir = some img) {i x : ℕ}
    (hi : i < (dir.take kfsMaxFiles).length) (hx : x < (dir.take kfsMaxFiles)[i].size) :
    img.getD (512 * (1 + (((dir.take kfsMaxFiles).map HostFile.sectors).take i).sum) + x) 0#8 =
      (dir.take kfsMaxFiles)[i].data.getD x 0#8 := by
  obtain ⟨⟨es, ds⟩, hloop, h⟩ := Option.bind_eq_some_iff.mp h
  obtain ⟨ds, rfl, hdata⟩ := genkfsLoop_data hloop
  obtain ⟨es, rfl, hlen, -⟩ := genkfsLoop_some hloop
  have hmax : (dir.take kfsMaxFiles).length ≤ kfsMaxFiles := List.length_take_le ..
  generalize dir.take kfsMaxFiles = files at *
  obtain rfl := Option.some_inj.mp h
  have hsuper : (wordBytes kfsMagic ++ wordBytes (BitVec.ofNat 32 files.length) ++
      (es ++ List.replicate (40 * (kfsMaxFiles - files.length)) 0#8)).length = 328 := by
    simp only [List.length_append, length_wordBytes, List.length_replicate, hlen]
    unfold sizeofKfsFile kfsMaxFiles at *
    omega
  have hpad : 512 * (1 + ((files.map HostFile.sectors).take i).sum) + x - 512 =
      512 * ((files.map HostFile.sectors).take i).sum + x := by omega
  rw [List.getD_append_right _ _ _ _ (by
    rw [List.length_append, List.length_replicate, hsuper, kfsSectorSize]
    omega), List.length_append, List.length_replicate, hsuper]
  exact (congrArg (ds.getD · 0#8) hpad).trans (hdata i hi x hx)

section

variable {m : Mem} {sb name : ℕ} {files : List HostFile} {img : List Byte}
  (hof : ImageOf files img) (hm : HoldsSuperblock m sb img)

include hof hm

theorem ImageOf.entryByte {i t : ℕ} (hi : i < files.length) (ht : t < 32) :
    m.get (kfsFile sb i + t) = files[i].storedName.getD t 0#8 := by
  have hmax : files.length ≤ 8 := hof.le_max
  obtain ⟨entry, hpack, hbytes⟩ := hof.entry i hi
  rw [kfsFile, Nat.add_assoc, hm _ (by unfold sizeofKfsFile sizeofKfsSuperblock; omega),
    hbytes t (by unfold sizeofKfsFile; omega), packEntry_name hpack ht]

theorem ImageOf.byte_behind_name {i : ℕ} (hi : i < files.length) :
    m.get (kfsFile sb i + 32) =
      BitVec.ofNat 8 (1 + ((files.map HostFile.sectors).take i).sum) := by
  have hmax : files.length ≤ 8 := hof.le_max
  obtain ⟨lba, hlt, hlba, hword⟩ := hof.startLba hi
  have hbyte := hword 0 (by decide)
  rw [kfsFile, Nat.add_assoc, hm _ (by unfold sizeofKfsFile sizeofKfsSuperblock; omega),
    ← hlba]
  rw [Nat.add_zero] at hbyte
  rw [hbyte, leBytes, BitVec.toNat_ofNat, Nat.mod_eq_of_lt hlt, pow_zero, Nat.div_one]

/-- The string compares equal to the entry of a file exactly when it is the stored name and the
byte behind it is a NUL. -/
theorem sameName_stored_iff {i j : ℕ} (hnamed : ∀ f ∈ files, f.Named) (hi : i < files.length)
    (hj : j < files.length) (hname : NameStored m name files[i]) :
    SameName m sb name files[i].storedName.length j ↔
      files[j].storedName = files[i].storedName ∧
        (files[i].name.length ≤ 31 ∨
          (1 + ((files.map HostFile.sectors).take j).sum) % 256 = 0) := by
  have hni := hnamed _ (List.getElem_mem hi)
  have hnj := hnamed _ (List.getElem_mem hj)
  have hlen := length_storedName files[i]
  have hlen' := length_storedName files[j]
  have hbyte : ∀ t < 32, t ≤ files[i].storedName.length →
      (m.get (kfsFile sb j + t) = m.get (name + t) ↔
        files[j].storedName.getD t 0#8 = files[i].storedName.getD t 0#8) := by
    intro t ht hle
    rw [hof.entryByte hm hj ht, hname t hle]
  have hlast : 32 ≤ files[i].name.length →
      (m.get (kfsFile sb j + 32) = m.get (name + 32) ↔
        (1 + ((files.map HostFile.sectors).take j).sum) % 256 = 0) := by
    intro hlong
    rw [hof.byte_behind_name hm hj, hname 32 (by omega), List.getD_eq_default _ _ (by omega),
      ← BitVec.toNat_inj, BitVec.toNat_ofNat]
    rfl
  constructor
  · intro hsame
    have hlength : files[j].storedName.length = files[i].storedName.length := by
      rcases lt_trichotomy files[j].storedName.length files[i].storedName.length with
        hlt | heq | hgt
      · have hzero := (hbyte _ (by omega) hlt.le).mp (hsame _ hlt.le)
        rw [List.getD_eq_default _ _ (Nat.le_refl _)] at hzero
        exact absurd hzero.symm (storedName_ne_zero hni hlt)
      · exact heq
      · have hzero := (hbyte _ (by omega) (Nat.le_refl _)).mp (hsame _ (Nat.le_refl _))
        rw [List.getD_eq_default files[i].storedName _ (Nat.le_refl _)] at hzero
        exact absurd hzero (storedName_ne_zero hnj hgt)
    refine ⟨List.ext_getElem hlength fun t ht ht' => ?_, ?_⟩
    · have heq := (hbyte t (by omega) ht'.le).mp (hsame t ht'.le)
      rwa [List.getD_eq_getElem _ _ ht, List.getD_eq_getElem _ _ ht'] at heq
    · rcases Nat.lt_or_ge files[i].name.length 32 with hshort | hlong
      · exact Or.inl (by omega)
      · exact Or.inr ((hlast hlong).mp (hsame 32 (by omega)))
  · rintro ⟨heq, hfit⟩ t ht
    rcases Nat.lt_or_ge t 32 with hlt | hge
    · exact (hbyte t hlt ht).mpr (by rw [heq])
    · obtain rfl : t = 32 := by omega
      exact (hlast (by omega)).mpr (hfit.resolve_left (by omega))

/-- Under its stored name a file is found exactly when the name leaves room for a NUL or the low
byte of its sector number is one. -/
theorem kfsFind_stored_iff {i : ℕ} (hnamed : ∀ f ∈ files, f.Named)
    (hdistinct : files.Pairwise fun f g => f.name.take 32 ≠ g.name.take 32)
    (hi : i < files.length) (hname : NameStored m name files[i]) :
    kfsFind m sb name = some (some i) ↔
      files[i].name.length ≤ 31 ∨ (1 + ((files.map HostFile.sectors).take i).sum) % 256 = 0 := by
  have hlen : files[i].storedName.length < addressSpace := by
    rw [length_storedName, addressSpace]
    omega
  rw [kfsFind_some (hname.string (hnamed _ (List.getElem_mem hi))) hlen, hof.fileCount_eq hm,
    sameName_stored_iff hof hm hnamed hi hi hname]
  constructor
  · exact fun h => h.2.1.2
  · intro hfit
    refine ⟨hi, ⟨rfl, hfit⟩, fun j hj hsame => ?_⟩
    have heq := ((sameName_stored_iff hof hm hnamed hi (hj.trans hi) hname).mp hsame).1
    exact List.pairwise_iff_getElem.mp hdistinct j i (hj.trans hi) hi hj
      (storedName_inj (hnamed _ (List.getElem_mem _)) (hnamed _ (List.getElem_mem _)) heq)

end

/-- Calling `kfs_find` with the stored name of file `i`, wherever it lies, gives the entry of the
file, with the size of the file and the sector its data was put to. -/
def FoundAsStored (m : Mem) (sb : ℕ) (img : List Byte) (i : ℕ) (f : HostFile) : Prop :=
  ∀ m' : Mem, (∀ x < sizeofKfsSuperblock, m'.get (sb + x) = m.get (sb + x)) →
    ∀ name, NameStored m' name f → kfsFind m' sb name = some (some i) ∧
      (fileSize m' sb i).toNat = f.size ∧
      ∀ x < f.size, img.getD (512 * (startLba m' sb i).toNat + x) 0#8 = f.data.getD x 0#8

theorem exists_nameStored (m : Mem) (sb : ℕ) (f : HostFile) :
    ∃ m' : Mem, (∀ x < sizeofKfsSuperblock, m'.get (sb + x) = m.get (sb + x)) ∧
      NameStored m' (sb + 512) f := by
  have hlen : f.storedName.length ≤ 32 := by
    rw [length_storedName]
    exact Nat.min_le_left ..
  refine ⟨m.blit (sb + 512) 33 fun t => f.storedName.getD t 0#8, fun x hx => ?_, fun t ht => ?_⟩
  · unfold sizeofKfsSuperblock at hx
    apply Mem.get_blit_of_le _ _ (by decide)
    refine Mem.le_offset_shift ?_ (by decide)
    rw [Mem.offset_add sb (by omega)]
    omega
  · exact Mem.get_blit_add _ _ _ (by decide) (by omega)

/-- The image builder and the kernel agree on the names of an image exactly when every name of 32
bytes or more has a sector number whose low byte is zero. -/
theorem genkfs_kfsFind_iff {dir : List HostFile} {img : List Byte} {M M' : Machine} {sb : ℕ} {r : ℤ}
    (hlen : dir.length ≤ kfsMaxFiles) (hnamed : ∀ f ∈ dir, f.Named)
    (hdistinct : dir.Pairwise fun f g => f.name.take 32 ≠ g.name.take 32)
    (himg : genkfs dir = some img) (hdisk : M.disk.Holds img)
    (hmount : kfsMount M sb = some (.ok (r, M'))) :
    (∀ (i : ℕ) (_ : i < dir.length), FoundAsStored M'.mem sb img i dir[i]) ↔
      ∀ (i : ℕ) (_ : i < dir.length), dir[i].name.length ≤ 31 ∨
        (1 + ((dir.map HostFile.sectors).take i).sum) % 256 = 0 := by
  have htake : dir.take kfsMaxFiles = dir := List.take_of_length_le hlen
  have hof := genkfs_image himg
  rw [htake] at hof
  have hsuper := kfsMount_holdsSuperblock hof.fits hdisk hmount
  refine forall₂_congr fun i hi => ?_
  constructor
  · intro hfound
    obtain ⟨m', hsame, hname⟩ := exists_nameStored M'.mem sb dir[i]
    have hm' : HoldsSuperblock m' sb img := fun x hx => (hsame x hx).trans (hsuper x hx)
    exact (kfsFind_stored_iff hof hm' hnamed hdistinct hi hname).mp (hfound m' hsame _ hname).1
  · intro hfit m' hsame name hname
    have hm' : HoldsSuperblock m' sb img := fun x hx => (hsame x hx).trans (hsuper x hx)
    refine ⟨(kfsFind_stored_iff hof hm' hnamed hdistinct hi hname).mpr hfit,
      hof.fileSize_eq hm' hi, fun x hx => ?_⟩
    rw [hof.startLba_eq hm' hi]
    have hdata := genkfs_data himg (i := i) (x := x)
    simp only [htake] at hdata
    exact hdata hi hx

/-- The image on a disk that answers at once, and in memory a name of `len` characters. -/
def imageMachine (img : List Byte) (len : ℕ) : Machine where
  mem := ⟨fun a => if demoName ≤ a ∧ a < demoName + len then 0x61#8 else 0#8, []⟩
  disk := { steadyDisk with sector := fun s i => img.getD (512 * s + i) 0#8 }
  pmm := Pmm.boot

theorem imageMachine_holds {img : List Byte} (len : ℕ) (h : img.length ≤ lbaLimit) :
    (imageMachine img len).disk.Holds img := by
  intro x hx
  have hlt : (0 + x / 512) % lbaLimit = x / 512 := by
    rw [Nat.zero_add, Nat.mod_eq_of_lt (by omega)]
  rw [Drive.byteAt, hlt]
  change img.getD (512 * (x / 512) + x % 512) 0#8 = _
  rw [Nat.div_add_mod]

/-- A directory of one file whose name is `len` times the letter `a`. -/
def oneFile (len : ℕ) : List HostFile := [⟨List.replicate len 'a', [0x41#8]⟩]

def oneFileMount (len : ℕ) : Option (List Byte × ℤ × Machine) := do
  let img ← genkfs (oneFile len)
  match ← kfsMount (imageMachine img len) demoSuperblock with
  | .ok x => some (img, x)
  | .error _ => none

theorem oneFileMount_some {len : ℕ} {img : List Byte} {r : ℤ} {M' : Machine}
    (h : oneFileMount len = some (img, r, M')) : genkfs (oneFile len) = some img ∧
      kfsMount (imageMachine img len) demoSuperblock = some (.ok (r, M')) := by
  obtain ⟨img', himg, h⟩ := Option.bind_eq_some_iff.mp h
  obtain ⟨x, hmount, h⟩ := Option.bind_eq_some_iff.mp h
  cases x with
  | error e => cases h
  | ok y =>
      obtain ⟨rfl, rfl⟩ := Prod.mk.inj (Option.some_inj.mp h)
      exact ⟨himg, hmount⟩

theorem oneFile_named {len : ℕ} (hlen : 0 < len) : ∀ f ∈ oneFile len, f.Named := by
  intro f hf
  rw [List.mem_singleton.mp hf]
  refine ⟨?_, fun c hc => ?_⟩
  · rw [Ne, List.replicate_eq_nil_iff]
    exact Nat.ne_of_gt hlen
  · rw [List.eq_of_mem_replicate hc]
    decide

theorem shortName_found : ∃ img r M', genkfs (oneFile 1) = some img ∧
    (imageMachine img 1).disk.Holds img ∧
    kfsMount (imageMachine img 1) demoSuperblock = some (.ok (r, M')) ∧
    ∀ (i : ℕ) (_ : i < (oneFile 1).length),
      FoundAsStored M'.mem demoSuperblock img i (oneFile 1)[i] := by
  have hrun : (oneFileMount 1).map (fun x => x.1.length) = some 1024 := by decide +kernel
  obtain ⟨⟨img, r, M'⟩, hmount, hlen⟩ := Option.map_eq_some_iff.mp hrun
  obtain ⟨himg, hmount⟩ := oneFileMount_some hmount
  have hholds := imageMachine_holds 1 (hlen.le.trans (by decide))
  refine ⟨img, r, M', himg, hholds, hmount, (genkfs_kfsFind_iff (by decide)
    (oneFile_named Nat.one_pos) (by decide) himg hholds hmount).mpr ?_⟩
  decide

/-- Under the 32 characters that are stored for it the file is not found. -/
theorem longName_not_found : (∀ f ∈ oneFile 32, f.Named) ∧
    ∃ img r M', genkfs (oneFile 32) = some img ∧ (imageMachine img 32).disk.Holds img ∧
      kfsMount (imageMachine img 32) demoSuperblock = some (.ok (r, M')) ∧
      NameStored M'.mem demoName ⟨List.replicate 32 'a', [0x41#8]⟩ ∧
      kfsFind M'.mem demoSuperblock demoName = some none := by
  have hrun : (oneFileMount 32).map (fun x => (x.1.length,
      decide (NameStored x.2.2.mem demoName ⟨List.replicate 32 'a', [0x41#8]⟩),
      kfsFind x.2.2.mem demoSuperblock demoName)) = some (1024, true, some none) := by
    decide +kernel
  obtain ⟨⟨img, r, M'⟩, hmount, h⟩ := Option.map_eq_some_iff.mp hrun
  simp only [Prod.mk.injEq, decide_eq_true_eq] at h
  obtain ⟨hlen, hstored, hfind⟩ := h
  obtain ⟨himg, hmount⟩ := oneFileMount_some hmount
  exact ⟨oneFile_named (by decide), img, r, M', himg,
    imageMachine_holds 32 (hlen.le.trans (by decide)), hmount, hstored, hfind⟩

end System44
