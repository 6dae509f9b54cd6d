import Mathlib.Logic.Relation
import System44.KfsFiles
import System44.WriteLog

/-!
# The history of a volume

A volume begins with `kfs_mkfs` or with an image of the builder. From then on files are written to
it, the rest of the kernel goes on with its own memory and reads the disk, the machine is restarted,
and the power may fail in the middle of a write, after any of the sectors that the disk stores for
it. After each of these the volume stands for the files that have been written to it: a write that
was cut off counts exactly if its superblock had been stored.
-/

namespace System44

/-- A name and data for a write, where the entry that it fills in is not; the data lies as the
transfer takes it from memory, with gaps between the sectors. -/
structure WriteArgs (m : Mem) (sb name data : ℕ) (f : StoredFile) : Prop where
  spells : Spells m name f.name
  nameApart : fileCount m sb < kfsMaxFiles →
    ∀ i ≤ f.name.length, OffSlot sb (fileCount m sb) (name + i)
  bytes : ∀ x < f.data.length, m.get (data + spread x) = f.data.getD x 0#8
  dataApart : fileCount m sb < kfsMaxFiles →
    ∀ x < f.data.length, OffSlot sb (fileCount m sb) (data + spread x)

def StoredFile.hostFile (f : StoredFile) : HostFile :=
  ⟨f.name.map fun b => Char.ofNat b.toNat, f.data⟩

/-- On its way from `d` to `d'` the disk loses its power when it has stored `kept`. -/
structure CutOff (d d' cut : Drive) (kept : List (ℕ × Sector)) : Prop where
  accepted : ∃ lost, d'.accepted = lost ++ kept ++ d.accepted
  sector : cut.sector = WriteLog.replay d.sector kept
  errorFree : cut.ErrorFree

/-- A machine and the files that have been written to its volume. -/
structure Volume where
  machine : Machine
  files : Files

inductive KfsStart (sb : ℕ) : Volume → Prop
  | mkfs {M M' : Machine} {r : ℤ} : M.disk.ErrorFree → kfsMkfs M sb = some (r, M') →
      KfsStart sb ⟨M', Catalog.empty⟩
  | image {M M' : Machine} {r : ℤ} {dir : List HostFile} {img : List Byte} {c : Files} :
      M.disk.ErrorFree → dir.take kfsMaxFiles = c.items.map StoredFile.hostFile →
      genkfs dir = some img → M.disk.Holds img → kfsMount M sb = some (.ok (r, M')) →
      KfsStart sb ⟨M', c⟩

/-- The steps that the kernel takes while the machine is on. -/
inductive KfsWork (sb : ℕ) : Volume → Volume → Prop
  | write {M M' : Machine} {c : Files} {f : StoredFile} {name data : ℕ} {r : ℤ} :
      WriteArgs M.mem sb name data f → kfsWrite M sb name data f.size = some (r, M') →
      KfsWork sb ⟨M, c⟩ ⟨M', c.add f⟩
  | elsewhere {M M' : Machine} {c : Files} {n : ℕ} :
      (∀ x < sizeofKfsSuperblock, M'.mem.get (sb + x) = M.mem.get (sb + x)) →
      M.disk.Unwritten M'.disk n → KfsWork sb ⟨M, c⟩ ⟨M', c⟩

inductive KfsStep (sb : ℕ) : Volume → Volume → Prop
  | work {V V' : Volume} : KfsWork sb V V' → KfsStep sb V V'
  | restart {M M₁ M' : Machine} {c : Files} {r : ℤ} : M₁.disk.ErrorFree →
      M₁.disk.sector = M.disk.sector → kfsMount M₁ sb = some (.ok (r, M')) →
      KfsStep sb ⟨M, c⟩ ⟨M', c⟩
  | powerCut {M M₁ M₂ M' : Machine} {c : Files} {f : StoredFile} {name data : ℕ} {r r' : ℤ}
      {kept : List (ℕ × Sector)} : WriteArgs M.mem sb name data f →
      kfsWrite M sb name data f.size = some (r, M₁) → CutOff M.disk M₁.disk M₂.disk kept →
      kfsMount M₂ sb = some (.ok (r', M')) →
      KfsStep sb ⟨M, c⟩ ⟨M', if 0 ∈ kept.map Prod.fst then c.add f else c⟩

def KfsRun (sb : ℕ) (V : Volume) : Prop :=
  ∃ V₀, KfsStart sb V₀ ∧ Relation.ReflTransGen (KfsStep sb) V₀ V

theorem Drive.Written.replay {d d' : Drive} {first lba k : ℕ} {src : ℕ → Sector}
    {stored : List (ℕ × Sector)} (h : d.Written d' first lba k src stored) :
    d'.sector = WriteLog.replay d.sector stored :=
  WriteLog.eq_replay h.sector h.frame

theorem offSlot_of_apart {sb k a : ℕ} (hk : k < kfsMaxFiles)
    (h : sizeofKfsSuperblock ≤ Mem.offset sb a) : OffSlot sb k a := by
  have hmax : k < 8 := hk
  unfold OffSlot sizeofKfsFile sizeofKfsSuperblock at *
  omega

theorem represents_mkfs {M M' : Machine} {sb : ℕ} {r : ℤ} (hdisk : M.disk.ErrorFree)
    (h : kfsMkfs M sb = some (r, M')) : Represents sb M' Catalog.empty := by
  have hlayout := layout_mkfs h
  have hfree := kfsMkfs_errorFree h hdisk
  obtain ⟨⟨r', disk⟩, hwrite, h⟩ := Option.bind_eq_some_iff.mp h
  obtain ⟨-, rfl⟩ := Prod.mk.inj (Option.some_inj.mp h)
  obtain ⟨-, stored, hstored⟩ := ataWriteSectors_some hwrite
  rw [hdisk.passed] at hstored
  refine ⟨hfree, hlayout, Mem.load32_store32 .., ?_, fun i hi => ?_, fun i hi => ?_, ?_⟩
  · have hword : ((M.mem.blit sb sizeofKfsSuperblock fun _ => 0#8).store32 sb kfsMagic).load32
        (sb + 4) = leWord fun _ => 0#8 := by
      apply leWord_congr
      intro i hi
      have ho : Mem.offset sb (sb + (4 + i)) = 4 + i := Mem.offset_add sb (by omega)
      rw [Nat.add_assoc, Mem.get_store32_of_le _ _ (by omega)]
      exact Mem.get_blit_add _ _ _ (by decide) (by unfold sizeofKfsSuperblock; omega)
    exact (congrArg BitVec.toNat hword).trans rfl
  · exact absurd hi (Nat.not_lt_zero i)
  · exact absurd hi (Nat.not_lt_zero i)
  · intro x hx
    have hlt : x < 512 := hx.trans (by decide)
    rw [hstored.byteAt (fun i _ => Reply.kept_of_taken (hdisk _)) (by omega), spread_of_lt hlt]

theorem StoredFile.storedName_hostFile (f : StoredFile) : f.hostFile.storedName = f.name := by
  have hshort := f.short
  rw [HostFile.storedName, hostFile, List.take_of_length_le (by rw [List.length_map]; omega),
    List.map_map]
  refine (List.map_congr_left fun b _ => ?_).trans (List.map_id f.name)
  have hlt := b.isLt
  have hvalid : b.toNat.isValidChar := Or.inl (by omega)
  have hcode : (Char.ofNat b.toNat).toNat = b.toNat := by
    rw [Char.ofNat, dif_pos hvalid]
    rfl
  simp [hcode]

theorem genkfsLoop_length {files : List HostFile} {lba : ℕ} {es es' ds ds' : List Byte}
    (h : genkfsLoop files lba es ds = some (es', ds')) :
    ds'.length = ds.length + 512 * (files.map HostFile.sectors).sum := by
  induction files generalizing lba es ds with
  | nil =>
      obtain ⟨-, rfl⟩ := Prod.mk.inj (Option.some_inj.mp h)
      rfl
  | cons f files ih =>
      obtain ⟨entry, -, hrest⟩ := Option.bind_eq_some_iff.mp h
      rw [ih hrest, List.map_cons, List.sum_cons, List.length_append, List.length_append,
        List.length_replicate]
      have hpad : f.data.length ≤ f.sectors * kfsSectorSize := by
        unfold HostFile.sectors HostFile.size kfsSectorSize
        omega
      unfold HostFile.size kfsSectorSize at *
      omega

theorem genkfs_lt_length {dir : List HostFile} {img : List Byte} (h : genkfs dir = some img)
    {i x : ℕ} (hi : i < (dir.take kfsMaxFiles).length) (hx : x < (dir.take kfsMaxFiles)[i].size) :
    512 * (1 + (((dir.take kfsMaxFiles).map HostFile.sectors).take i).sum) + x < img.length := by
  obtain ⟨⟨es, ds⟩, hloop, h⟩ := Option.bind_eq_some_iff.mp h
  have hlen := genkfsLoop_length hloop
  generalize dir.take kfsMaxFiles = files at *
  obtain rfl := Option.some_inj.mp h
  have hsum := List.sum_take_succ (files.map HostFile.sectors) i (by rwa [List.length_map])
  have hle : ((files.map HostFile.sectors).take (i + 1)).sum ≤
      (files.map HostFile.sectors).sum := by
    conv_rhs => rw [← List.take_append_drop (i + 1) (files.map HostFile.sectors), List.sum_append]
    exact Nat.le_add_right _ _
  rw [List.getElem_map] at hsum
  have hsectors : files[i].size ≤ 512 * files[i].sectors := by
    unfold HostFile.sectors kfsSectorSize
    omega
  rw [List.length_nil, Nat.zero_add] at hlen
  simp only [List.length_append, length_wordBytes, List.length_replicate, hlen, kfsSectorSize]
  omega

theorem byteAt_image (d : Drive) (lba x : ℕ) : d.byteAt lba x = d.byteAt 0 (512 * lba + x) := by
  rw [Drive.byteAt, Drive.byteAt]
  have hdiv : 0 + (512 * lba + x) / 512 = lba + x / 512 := by omega
  rw [hdiv]
  exact Sector.byte_congr _ (by omega)

theorem represents_image {M M' : Machine} {sb : ℕ} {r : ℤ} {dir : List HostFile} {img : List Byte}
    {c : Files} (hdisk : M.disk.ErrorFree)
    (hdir : dir.take kfsMaxFiles = c.items.map StoredFile.hostFile) (himg : genkfs dir = some img)
    (hholds : M.disk.Holds img) (h : kfsMount M sb = some (.ok (r, M'))) : Represents sb M' c := by
  have hof := genkfs_image himg
  have hm := kfsMount_holdsSuperblock hof.fits hholds h
  obtain ⟨hmem, n, hunw⟩ := kfsMount_some h
  have hlength : (dir.take kfsMaxFiles).length = c.items.length := by rw [hdir, List.length_map]
  have hget (i : ℕ) (hi : i < c.items.length) (hi' : i < (dir.take kfsMaxFiles).length) :
      (dir.take kfsMaxFiles)[i] = c.items[i].hostFile := by
    simp only [hdir, List.getElem_map]
  have hsmall : ∀ f ∈ dir.take kfsMaxFiles, SmallSize f.size := by
    intro f hf
    rw [hdir] at hf
    obtain ⟨g, -, rfl⟩ := List.mem_map.mp hf
    exact g.small
  refine ⟨hdisk.congr hunw.reply, layout_mount hsmall himg hholds h, ?_, ?_, ?_, ?_, ?_⟩
  · exact load32_of_word (x := 0) hm (by decide) hof.magic
  · rw [hof.fileCount_eq hm, hlength]
  · intro i hi
    have hi' : i < (dir.take kfsMaxFiles).length := hlength.symm ▸ hi
    refine ⟨spells_of_get c.items[i].ne_zero fun t ht => ?_, BitVec.eq_of_toNat_eq ?_⟩
    · have hshort := c.items[i].short
      rw [hof.entryByte hm hi' (by omega), hget i hi hi', StoredFile.storedName_hostFile]
    · rw [hof.fileSize_eq hm hi', hget i hi hi', StoredFile.toNat_size]
      rfl
  · intro i hi x hx _
    have hi' : i < (dir.take kfsMaxFiles).length := hlength.symm ▸ hi
    have hsize : x < (dir.take kfsMaxFiles)[i].size := by
      rw [hget i hi hi']
      exact hx
    have hdata := genkfs_data himg hi' hsize
    rw [hunw.byteAt, hof.startLba_eq hm hi', byteAt_image,
      hholds _ (genkfs_lt_length himg hi' hsize), hdata, hget i hi hi']
    rfl
  · intro x hx
    have hlt : x < 512 := hx.trans (by decide)
    rw [hmem, Mem.get_blit_add _ _ _ (by decide) hlt, hunw.byteAt]

section

variable {sb name data : ℕ} {M M' : Machine} {c : Files} {f : StoredFile} {r : ℤ}

theorem WriteArgs.nameAt {m : Mem} (h : WriteArgs m sb name data f)
    (hroom : fileCount m sb < kfsMaxFiles) :
    NameAt m sb (fileCount m sb) name f.name.length where
  string := h.spells.stringAt
  short := f.short
  apart := h.nameApart hroom

theorem exists_kfsWrite {len : ℕ} (data : ℕ) (size : BitVec 32) (hdisk : M.disk.ErrorFree)
    (hname : fileCount M.mem sb < kfsMaxFiles → NameAt M.mem sb (fileCount M.mem sb) name len) :
    ∃ r M', kfsWrite M sb name data size = some (r, M') := by
  rcases Nat.lt_or_ge (fileCount M.mem sb) kfsMaxFiles with hroom | hfull
  · have hat := hname hroom
    have hshort := hat.short
    have hmax : fileCount M.mem sb < 8 := hroom
    have hstring : StringAt (M.mem.store32 (sb + 4) (M.mem.load32 (sb + 4) + 1#32)) name len :=
      hat.string.congr fun i hi => get_store_fileCount _ (hat.apart i hi)
    have hcopy := strcpy_of_string (kfsFile sb (fileCount M.mem sb)) hstring
      (by unfold addressSpace; omega) fun i hi => by
        have happart := (hat.apart i hi).2
        unfold sizeofKfsFile at happart
        exact Mem.le_offset_shift (n := len + 1) (by unfold sizeofKfsFile; omega)
          (by unfold sizeofKfsFile; omega)
    have htransfer (d : Drive) (hd : d.ErrorFree) (m : Mem) (lba count src : ℕ) :
        ∃ out, ataWriteSectors d m lba count src = some out :=
      Option.isSome_iff_exists.mp (ataWriteSectors_isSome_iff.mpr (hd.returns count))
    rw [kfsWrite, if_neg (Nat.not_le_of_lt hroom)]
    dsimp only
    rw [hcopy, Option.bind_eq_bind, Option.bind_some]
    obtain ⟨⟨r₁, disk₁⟩, hdata⟩ := htransfer M.disk hdisk _ _ _ data
    rw [hdata, Option.bind_eq_bind, Option.bind_some]
    obtain ⟨-, stored, hwd⟩ := ataWriteSectors_some hdata
    obtain ⟨⟨r₂, disk₂⟩, hsuper⟩ := htransfer disk₁ (hdisk.congr hwd.reply) _ 0 1 sb
    rw [hsuper]
    exact ⟨_, _, rfl⟩
  · rw [kfsWrite, if_pos hfull]
    exact ⟨_, _, rfl⟩

/-- What the disk stores for a write: first sectors behind the files, then the superblock. -/
theorem kfsWrite_log {len : ℕ} {size : BitVec 32} (hdisk : M.disk.ErrorFree)
    (hroom : fileCount M.mem sb < kfsMaxFiles)
    (hname : NameAt M.mem sb (fileCount M.mem sb) name len)
    (hw : kfsWrite M sb name data size = some (r, M')) :
    ∃ stored stored', M'.disk.accepted = stored' ++ stored ++ M.disk.accepted ∧
      M'.disk.sector = WriteLog.replay M.disk.sector (stored' ++ stored) ∧
      (∀ x ∈ stored, endLba M.mem sb ≤ x.1) ∧ ∀ x, x ∈ stored' ↔ x = (0, sectorAt M'.mem sb) := by
  obtain ⟨-, -, r', disk, hdata, hsuper⟩ := kfsWrite_entered hroom hname hw
  obtain ⟨-, stored, hwd⟩ := ataWriteSectors_some hdata
  obtain ⟨-, stored', hws⟩ := ataWriteSectors_some hsuper
  have hdisk' : disk.ErrorFree := hdisk.congr hwd.reply
  have hmax : fileCount M.mem sb < 8 := hroom
  have hbound := (System44.toNat_nextLba M.mem sb (Nat.le_of_lt hroom)).2
  have hpassed : M.disk.passed (kfsSectors size).toNat < 2 ^ 8 :=
    (streak_le ..).trans_lt (Nat.mod_lt _ (by decide))
  refine ⟨stored, stored', ?_, ?_, fun x hx => ?_, fun x => ?_⟩
  · rw [hws.accepted, hwd.accepted, List.append_assoc]
  · rw [hws.replay, hwd.replay, WriteLog.replay_append]
  · obtain ⟨i, -, -, rfl⟩ := (hwd.mem_iff (by unfold lbaLimit; omega) x).mp hx
    exact Nat.le_add_right _ _
  · rw [hdisk'.passed] at hws
    rw [hws.mem_iff (by decide)]
    constructor
    · rintro ⟨i, hi, -, rfl⟩
      obtain rfl : i = 0 := by omega
      rfl
    · rintro rfl
      exact ⟨0, by decide, Reply.kept_of_taken (hdisk' _), rfl⟩

/-- The directory behind a write: the entries from before it, and the new one. -/
theorem Represents.entryAt_entered (h : Represents sb M c) {m' : Mem}
    (hroom : fileCount M.mem sb < kfsMaxFiles) (hspells : Spells M.mem name f.name)
    (he : Entered M.mem m' sb (fileCount M.mem sb) name f.name.length f.size) {i : ℕ}
    (hi : i < (c.add f).items.length) : (c.add f).items[i].EntryAt m' sb i := by
  have hitems := Catalog.items_add (h.count ▸ hroom : c.items.length < kfsMaxFiles) f
  simp only [hitems, List.length_append, List.length_singleton] at hi ⊢
  rcases Nat.lt_succ_iff_lt_or_eq.mp hi with hlt | rfl
  · have hi' := h.lt_count hlt
    obtain ⟨hname, hsize⟩ := h.entry i hlt
    have hshort := c.items[i].short
    rw [List.getElem_append_left hlt]
    refine ⟨hname.congr fun t ht => he.get_kfsFile (by omega) (by omega) ?_, ?_⟩
    · unfold sizeofKfsFile
      omega
    · exact (he.load32_kfsFile (by omega) (by omega) (by decide)).trans hsize
  · rw [List.getElem_concat_length rfl, ← h.count]
    exact ⟨hspells.congr fun t ht => he.nameBytes t ht, he.fileSize⟩

/-- What a write to a volume with room has done. -/
theorem represents_write (h : Represents sb M c) (hargs : WriteArgs M.mem sb name data f)
    (hw : kfsWrite M sb name data f.size = some (r, M')) : Represents sb M' (c.add f) := by
  rcases Nat.lt_or_ge (fileCount M.mem sb) kfsMaxFiles with hroom | hfull
  · have hname := hargs.nameAt hroom
    have hsmall : SmallSize f.size.toNat := by
      rw [f.toNat_size]
      exact f.small
    obtain ⟨he, -, r', disk, -, hsuper⟩ := kfsWrite_entered hroom hname hw
    obtain ⟨-, hfree, hbytes⟩ := kfsWrite_byteAt h.errorFree hroom hname hw
    have hlayout := layout_entered h.layout hroom hsmall he
    obtain ⟨stored, stored', -, hsector, hbehind, hfirst⟩ := kfsWrite_log h.errorFree hroom hname hw
    have hitems := Catalog.items_add (h.count ▸ hroom : c.items.length < kfsMaxFiles) f
    refine ⟨hfree, hlayout, ?_, ?_, fun i hi => h.entryAt_entered hroom hargs.spells he hi, ?_, ?_⟩
    · refine (Mem.load32_congr fun i hi => he.frame _ ?_).trans h.magic
      have ho : Mem.offset sb (sb + i) = i := Mem.offset_add sb (by omega)
      rw [OffSlot, ho]
      unfold sizeofKfsFile
      omega
    · rw [he.fileCount, hitems, List.length_append, List.length_singleton, h.count]
    · intro i hi x hx hmoved
      simp only [hitems, List.length_append, List.length_singleton] at hi hx hmoved ⊢
      rcases Nat.lt_succ_iff_lt_or_eq.mp hi with hlt | rfl
      · rw [List.getElem_append_left hlt] at hx hmoved ⊢
        have hi' := h.lt_count hlt
        have hstart : startLba M'.mem sb i = startLba M.mem sb i :=
          he.load32_kfsFile (by omega) (by omega) (by decide)
        have hsize : x < (fileSize M.mem sb i).toNat := by
          rwa [(h.entry i hlt).size, StoredFile.toNat_size]
        -- the sectors of the files that were there are neither behind them nor the first one
        have hold : ∀ s, 0 < s → s < endLba M.mem sb → M'.disk.sector s = M.disk.sector s := by
          intro s hpos hend
          rw [hsector, WriteLog.replay_of_not_mem]
          rintro y hy rfl
          rcases List.mem_append.mp hy with hy | hy
          · rw [(hfirst y).mp hy] at hpos
            exact absurd hpos (lt_irrefl 0)
          · exact absurd (hbehind y hy) (not_le.mpr hend)
        rw [hstart, h.layout.byteAt_congr hold hi' hsize]
        exact h.data i hlt x hx hmoved
      · rw [List.getElem_concat_length rfl] at hx hmoved ⊢
        rw [f.toNat_kfsSectors_size] at hbytes
        rw [← h.count, he.startLba, hbytes x hmoved, he.frame _ (hargs.dataApart hroom x hx)]
        exact hargs.bytes x hx
    · intro x hx
      have hlt : x < 512 := hx.trans (by decide)
      have hzero : M'.disk.sector 0 = sectorAt M'.mem sb := by
        rw [hsector]
        have hlast := List.mem_append_left stored ((hfirst _).mpr rfl)
        refine WriteLog.replay_of_mem (List.mem_map_of_mem hlast) fun y hy hy0 => ?_
        rcases List.mem_append.mp hy with hy | hy
        · rw [(hfirst y).mp hy]
        · have hpos := h.layout.endLba_pos
          have := hbehind y hy
          omega
      rw [byteAt_first hx, hzero, byte_sectorAt, Nat.mod_eq_of_lt hlt]
  · obtain ⟨rfl, rfl⟩ := kfsWrite_full hfull hw
    rw [Catalog.add_full (h.count ▸ hfull)]
    exact h

theorem kfsMount_ok {M₁ : Machine} (hdisk : M₁.disk.ErrorFree)
    (hmagic : leWord (M₁.disk.byteAt 0) = kfsMagic) :
    ∃ M₂, kfsMount M₁ sb = some (.ok (errSuccess, M₂)) := by
  obtain ⟨⟨r', disk, mem⟩, hread⟩ := ataReadSectors_of_errorFree hdisk M₁.mem 0 1 sb
  obtain ⟨hr, -, hmem⟩ := ataReadSectors_some hread
  have hneg : ¬ r' < 0 := by
    rw [hr, not_lt, hdisk.answer_nonneg]
    decide
  have hload : magic mem sb = kfsMagic := by
    rw [← hmagic, hmem, hdisk.passed, Nat.mod_eq_of_lt (by decide), Mem.blitBlocks_one, magic,
      Mem.load32]
    refine leWord_congr fun i hi => ?_
    exact Mem.get_blit_add _ _ _ (by decide) (by omega)
  refine ⟨{ M₁ with mem := mem, disk := disk }, ?_⟩
  rw [kfsMount, hread, Option.bind_eq_bind, Option.bind_some]
  dsimp only
  rw [if_neg hneg, if_neg (not_not_intro hload)]

theorem represents_mount {M₁ : Machine} (h : Represents sb M c) (hdisk : M₁.disk.ErrorFree)
    (hsector : ∀ s < endLba M.mem sb, M₁.disk.sector s = M.disk.sector s)
    (hmount : kfsMount M₁ sb = some (.ok (r, M'))) : Represents sb M' c := by
  obtain ⟨hmem, n, hunw⟩ := kfsMount_some hmount
  apply h.transport (hdisk.congr hunw.reply)
  · intro x hx
    have hlt : x < 512 := hx.trans (by decide)
    rw [hmem, Mem.get_blit_add _ _ _ (by decide) hlt, byteAt_first hx,
      hsector 0 h.layout.endLba_pos, ← byteAt_first hx, h.saved x hx]
  · intro s hs
    rw [hunw.sector, hsector s hs]

theorem exists_mount (M₁ : Machine) (h : Represents sb M c) (hdisk : M₁.disk.ErrorFree)
    (hsector : ∀ s < endLba M.mem sb, M₁.disk.sector s = M.disk.sector s) :
    ∃ M₂, kfsMount M₁ sb = some (.ok (errSuccess, M₂)) := by
  apply kfsMount_ok hdisk
  rw [← h.magic, magic, Mem.load32]
  refine leWord_congr fun i hi => ?_
  have hlt : i < sizeofKfsSuperblock := hi.trans (by decide)
  rw [byteAt_first hlt, hsector 0 h.layout.endLba_pos, ← byteAt_first hlt, h.saved i hlt]

/-- Whatever the disk has kept of a write, it has the files from before the write or, once the
superblock is stored, those from after it. -/
theorem exists_represents_cut {M₁ : Machine} {d : Drive} {kept : List (ℕ × Sector)}
    (h : Represents sb M c) (hargs : WriteArgs M.mem sb name data f)
    (hw : kfsWrite M sb name data f.size = some (r, M₁)) (hcut : CutOff M.disk M₁.disk d kept) :
    ∃ M₀, Represents sb M₀ (if 0 ∈ kept.map Prod.fst then c.add f else c) ∧
      ∀ s < endLba M₀.mem sb, d.sector s = M₀.disk.sector s := by
  obtain ⟨lost, haccepted⟩ := hcut.accepted
  rcases Nat.lt_or_ge (fileCount M.mem sb) kfsMaxFiles with hroom | hfull
  · obtain ⟨stored, stored', hlog, hsector, hbehind, hfirst⟩ :=
      kfsWrite_log h.errorFree hroom (hargs.nameAt hroom) hw
    have hpos := h.layout.endLba_pos
    have hsplit : lost ++ kept = stored' ++ stored :=
      List.append_cancel_right (haccepted.symm.trans hlog)
    have hkept : ∀ x ∈ kept, x = (0, sectorAt M₁.mem sb) ∨ x ∈ stored := by
      intro x hx
      have hmem : x ∈ stored' ++ stored := hsplit ▸ List.mem_append_right lost hx
      exact (List.mem_append.mp hmem).imp_left (hfirst x).mp
    by_cases hzero : 0 ∈ kept.map Prod.fst
    · -- the superblock is stored last, so nothing else can have been lost
      have hlost : ∀ x ∈ lost, x = (0, sectorAt M₁.mem sb) := by
        rcases List.append_eq_append_iff.mp hsplit with ⟨as, hstored', -⟩ | ⟨bs, -, hstored⟩
        · intro x hx
          exact (hfirst x).mp (hstored' ▸ List.mem_append_left as hx)
        · obtain ⟨x, hx, hx0⟩ := List.mem_map.mp hzero
          have := hbehind x (hstored ▸ List.mem_append_right bs hx)
          omega
      rw [if_pos hzero]
      refine ⟨M₁, represents_write h hargs hw, fun s _ => ?_⟩
      rw [hcut.sector, hsector, ← hsplit, WriteLog.replay_append]
      by_cases hs : s = 0
      · have hall : WriteLog.replay M.disk.sector kept 0 = sectorAt M₁.mem sb := by
          refine WriteLog.replay_of_mem hzero fun x hx hx0 => ?_
          rcases hkept x hx with rfl | hx'
          · rfl
          · have := hbehind x hx'
            omega
        rw [hs, hall]
        by_cases hmem : 0 ∈ lost.map Prod.fst
        · exact (WriteLog.replay_of_mem hmem fun x hx _ => by rw [hlost x hx]).symm
        · rw [WriteLog.replay_of_not_mem, hall]
          rintro x hx hx0
          exact hmem (hx0 ▸ List.mem_map_of_mem hx)
      · have helsewhere : ∀ x ∈ lost, x.1 ≠ s := by
          intro x hx
          rw [hlost x hx]
          exact Ne.symm hs
        rw [WriteLog.replay_of_not_mem helsewhere]
    · rw [if_neg hzero]
      refine ⟨M, h, fun s hs => ?_⟩
      rw [hcut.sector, WriteLog.replay_of_not_mem]
      rintro x hx rfl
      rcases hkept x hx with rfl | hx'
      · exact hzero (List.mem_map_of_mem hx)
      · exact absurd (hbehind x hx') (not_le.mpr hs)
  · obtain ⟨rfl, rfl⟩ := kfsWrite_full hfull hw
    have hnil : kept = [] := by
      have hlength := congrArg List.length haccepted
      rw [List.length_append, List.length_append] at hlength
      exact List.length_eq_zero_iff.mp (by omega)
    subst hnil
    exact ⟨M₁, h, fun s _ => congrFun hcut.sector s⟩

end

section

variable {sb : ℕ} {V V' : Volume}

theorem kfsStart_represents (h : KfsStart sb V) : Represents sb V.machine V.files := by
  cases h with
  | mkfs hdisk hmkfs => exact represents_mkfs hdisk hmkfs
  | image hdisk hdir himg hholds hmount => exact represents_image hdisk hdir himg hholds hmount

theorem kfsWork_represents (h : Represents sb V.machine V.files) (hwork : KfsWork sb V V') :
    Represents sb V'.machine V'.files := by
  cases hwork with
  | write hargs hw => exact represents_write h hargs hw
  | elsewhere hmem hunw =>
      exact h.transport (h.errorFree.congr hunw.reply) hmem fun s _ => congrFun hunw.sector s

theorem kfsStep_represents (h : Represents sb V.machine V.files) (hstep : KfsStep sb V V') :
    Represents sb V'.machine V'.files := by
  cases hstep with
  | work hwork => exact kfsWork_represents h hwork
  | restart hdisk hsector hmount =>
      exact represents_mount h hdisk (fun s _ => congrFun hsector s) hmount
  | powerCut hargs hw hcut hmount =>
      obtain ⟨M₀, h₀, hsector⟩ := exists_represents_cut h hargs hw hcut
      exact represents_mount h₀ hcut.errorFree hsector hmount

theorem kfsRun_represents (h : KfsRun sb V) : Represents sb V.machine V.files := by
  obtain ⟨V₀, hstart, hsteps⟩ := h
  induction hsteps with
  | refl => exact kfsStart_represents hstart
  | tail _ hstep ih => exact kfsStep_represents ih hstep

theorem KfsRun.trans (h : KfsRun sb V) (hsteps : Relation.ReflTransGen (KfsStep sb) V V') :
    KfsRun sb V' := by
  obtain ⟨V₀, hstart, hsteps₀⟩ := h
  exact ⟨V₀, hstart, hsteps₀.trans hsteps⟩

theorem KfsRun.work (h : KfsRun sb V) (hwork : KfsWork sb V V') : KfsRun sb V' :=
  h.trans (.single (.work hwork))

theorem kfsWork_files (hwork : KfsWork sb V V') :
    V'.files = V.files ∨ ∃ f, V'.files = V.files.add f := by
  cases hwork with
  | write => exact Or.inr ⟨_, rfl⟩
  | elsewhere => exact Or.inl rfl

theorem kfsStep_files (hstep : KfsStep sb V V') :
    V'.files = V.files ∨ ∃ f, V'.files = V.files.add f := by
  cases hstep with
  | work hwork => exact kfsWork_files hwork
  | restart => exact Or.inl rfl
  | powerCut =>
      dsimp only
      split
      · exact Or.inr ⟨_, rfl⟩
      · exact Or.inl rfl

/-- All sectors of a file that is on the volume once, at least one and at most 255 of them, are read
back ever after, through any writes, restarts and power cuts. -/
theorem kfsRun_durable (h : KfsRun sb V) (hsteps : Relation.ReflTransGen (KfsStep sb) V V')
    {f : StoredFile} (hf : V.files.lookup StoredFile.name f.name = some f) (hpos : f.data ≠ [])
    (hfits : ceilSectors f.data.length ≤ 255) {name : ℕ}
    (hname : Spells V'.machine.mem name f.name) (buf : ℕ) :
    ∃ M', kfsRead V'.machine sb name buf = some ((ceilSectors f.data.length : ℤ), M') ∧
      ∀ x < f.data.length, M'.mem.get (buf + spread x) = f.data.getD x 0#8 := by
  have hgrown := Catalog.le_of_run Volume.files (fun _ _ => kfsStep_files) hsteps
  have hrep := kfsRun_represents (h.trans hsteps)
  obtain ⟨M', -, hread, -, -, hbytes, -⟩ :=
    hrep.kfsRead_some hname (Catalog.lookup_mono hgrown hf) buf
  have hlen : f.data.length ≠ 0 := fun h0 => hpos (List.length_eq_zero_iff.mp h0)
  have hmoved := f.moved_eq hfits
  have hne : f.moved ≠ 0 := by
    rw [hmoved, ceilSectors]
    omega
  refine ⟨M', ?_, fun x hx => hbytes x hx (hx.trans_le (f.length_le_moved hfits))⟩
  rw [hread, StoredFile.answer, if_neg hne, hmoved]

/-- When the power fails in the middle of a write, the volume can be mounted again, and it has the
files from before the write or, if the superblock had been stored, those from after it. -/
theorem kfsRun_powerCut (h : KfsRun sb V) {M₁ : Machine} {f : StoredFile} {name data : ℕ} {r : ℤ}
    {d : Drive} {kept : List (ℕ × Sector)} (hargs : WriteArgs V.machine.mem sb name data f)
    (hw : kfsWrite V.machine sb name data f.size = some (r, M₁))
    (hcut : CutOff V.machine.disk M₁.disk d kept) (m : Mem) (p : Pmm) :
    ∃ M', kfsMount ⟨m, d, p⟩ sb = some (.ok (errSuccess, M')) ∧
      KfsRun sb ⟨M', if 0 ∈ kept.map Prod.fst then V.files.add f else V.files⟩ := by
  have hrep := kfsRun_represents h
  obtain ⟨M₀, h₀, hsector⟩ := exists_represents_cut hrep hargs hw hcut
  obtain ⟨M', hmount⟩ := exists_mount ⟨m, d, p⟩ h₀ hcut.errorFree hsector
  exact ⟨M', hmount, h.trans (.single (.powerCut hargs hw hcut hmount))⟩

end

def letterFile : StoredFile := ⟨[0x61#8], [0x61#8], by decide, by decide, by simp [SmallSize]⟩

theorem demoVolume_run : KfsRun demoSuperblock ⟨demoVolume, Catalog.empty⟩ :=
  ⟨_, .mkfs (fun _ => rfl) demoMkfs_eq, .refl⟩

theorem letterFile_args : WriteArgs demoVolume.mem demoSuperblock demoName demoName letterFile where
  spells := by
    apply spells_of_get letterFile.ne_zero
    decide +kernel
  nameApart hroom i hi := offSlot_of_apart hroom (by
    revert i
    decide)
  bytes := by decide +kernel
  dataApart hroom x hx := offSlot_of_apart hroom (by
    revert x
    decide)

theorem letterFile_written : ∃ r M, kfsWrite demoVolume demoSuperblock demoName demoName
    letterFile.size = some (r, M) ∧ Spells M.mem demoName [0x61#8] := by
  have hsome : (kfsWrite demoVolume demoSuperblock demoName demoName letterFile.size).isSome := by
    decide +kernel
  obtain ⟨⟨r, M⟩, hw⟩ := Option.isSome_iff_exists.mp hsome
  obtain ⟨he, -, -⟩ := kfsWrite_entered demoVolume_free (letterFile_args.nameAt demoVolume_free) hw
  exact ⟨r, M, hw, letterFile_args.spells.congr fun t ht =>
    he.frame _ (letterFile_args.nameApart demoVolume_free t ht)⟩

theorem letterFile_run {M : Machine} {r : ℤ}
    (hw : kfsWrite demoVolume demoSuperblock demoName demoName letterFile.size = some (r, M)) :
    KfsRun demoSuperblock ⟨M, Catalog.empty.add letterFile⟩ :=
  demoVolume_run.work (.write letterFile_args hw)

theorem letterFile_lookup :
    (Catalog.empty.add letterFile : Files).lookup StoredFile.name [0x61#8] = some letterFile := by
  have hkey : letterFile.name = [0x61#8] := rfl
  rw [Catalog.lookup_add (by decide), if_pos hkey]
  rfl

theorem letterFile_moved : letterFile.moved = 1 := by decide

theorem letterFile_answer : letterFile.answer = 1 := by
  rw [StoredFile.answer, letterFile_moved]
  rfl

/-- The file is written, the machine restarted and the file read. -/
theorem letterFile_restarted : ∃ r M M₁ M',
    kfsWrite demoVolume demoSuperblock demoName demoName letterFile.size = some (r, M) ∧
      kfsMount M demoSuperblock = some (.ok (errSuccess, M₁)) ∧
      kfsRead M₁ demoSuperblock demoName 0x40000 = some (1, M') ∧ M'.mem.get 0x40000 = 0x61#8 := by
  obtain ⟨r, M, hw, hname⟩ := letterFile_written
  have hrun := letterFile_run hw
  have hrep := kfsRun_represents hrun
  obtain ⟨M₁, hmount⟩ := exists_mount M hrep hrep.errorFree fun _ _ => rfl
  have hname₁ : Spells M₁.mem demoName [0x61#8] := by
    refine hname.congr fun t ht => ?_
    rw [(kfsMount_some hmount).1]
    refine Mem.get_blit_of_le _ _ (by decide) ?_
    have hle : t ≤ 1 := ht
    unfold Mem.offset demoSuperblock demoName
    omega
  obtain ⟨M', hread, hbytes⟩ := kfsRun_durable hrun
    (.single (.restart hrep.errorFree rfl hmount)) (f := letterFile) letterFile_lookup
    (List.cons_ne_nil _ _) (by decide) hname₁ 0x40000
  exact ⟨r, M, M₁, M', hw, hmount, hread, hbytes 0 (by decide)⟩

/-- The power fails before the first sector of the file is stored. -/
theorem letterFile_lost : ∃ r M M',
    kfsWrite demoVolume demoSuperblock demoName demoName letterFile.size = some (r, M) ∧
      kfsMount demoVolume demoSuperblock = some (.ok (errSuccess, M')) ∧
      KfsRun demoSuperblock ⟨M', Catalog.empty⟩ := by
  obtain ⟨r, M, hw, -⟩ := letterFile_written
  obtain ⟨stored, stored', hlog, -⟩ := kfsWrite_log demoVolume_errorFree demoVolume_free
    (letterFile_args.nameAt demoVolume_free) hw
  obtain ⟨M', hmount, hrun⟩ := kfsRun_powerCut demoVolume_run letterFile_args hw
    ⟨⟨stored' ++ stored, by rw [hlog, List.append_nil]⟩, rfl, demoVolume_errorFree⟩
    demoVolume.mem demoVolume.pmm
  exact ⟨r, M, M', hw, hmount, hrun⟩

end System44
