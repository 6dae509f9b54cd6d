import System44.PmmConservation
import System44.PmmLater
import System44.UexImage

/-!
# Programs for a fixed address

A program with an address of its own is put there without a word to the page allocator. So the
pages it covers may belong to someone else, and if they do not they may be handed out while it runs.
-/

namespace System44

def Stored (m m' : Mem) (a : ℕ) : Prop := ∃ new, m'.writes = new ++ m.writes ∧ a ∈ new

/-- The pages that the load has stored to were nobody's, and while the program runs nobody gets
them. -/
structure FixedLoadSafe (m₁ : Mem) (p₁ : Pmm) (live : List Block) (M : Machine) (x : UexExit) :
    Prop where
  unreserved : ∀ a, Stored M.mem x.machine.mem a → a / pageSize ∉ reservedPages m₁ p₁
  unowned : ∀ a, Stored M.mem x.machine.mem a → ∀ b ∈ live, a / pageSize ∉ b.span
  notHandedOut : ∀ a, Stored M.mem x.machine.mem a → ∀ m p live',
    PmmLater x.machine.mem x.machine.pmm live m p live' → ∀ n, ¬ HandsOut m p n a

/-- The image has a byte for `loadAddr + j`: of the first sector, of the other ones or a zero. -/
def UexHdr.Fills (hdr : UexHdr) (j : ℕ) : Prop :=
  j < min hdr.fileSize.toNat firstChunk ∨
    firstChunk ≤ j ∧ InBlock (uexSectors hdr % 2 ^ 8) (j - firstChunk) ∨ hdr.Zeroes j

/-- The address of the image's byte. -/
def imageAddr (M : Machine) (sb i j : ℕ) : ℕ :=
  ((fileHdr M sb i).loadAddr.toNat + j) % 2 ^ 32

def ImageMarks (M : Machine) (sb i q : ℕ) : Prop :=
  ∃ j, (fileHdr M sb i).Fills j ∧ imageAddr M sb i j = (M.pmm.bitmap + q / 8) % 2 ^ 32 ∧
    (imageByte M sb i j).getLsbD (q % 8) = true

/-- The image stays behind the memory that the allocator hands out, apart from free pages that it
marks itself. -/
def ClearOfPages (M : Machine) (sb i : ℕ) : Prop :=
  ∀ j, (fileHdr M sb i).Fills j → M.pmm.maxPages ≤ imageAddr M sb i j / pageSize ∨
    bitmapTest M.mem M.pmm (imageAddr M sb i j / pageSize) = false ∧
      ImageMarks M sb i (imageAddr M sb i j / pageSize)

section

variable {M : Machine} {sb name i : ℕ} {wanted : Bool} {x : UexExit}

theorem arrives_iff_fills (h : RestRead M (fileHdr M sb i)) {j : ℕ} :
    Arrives M sb i j ↔ (fileHdr M sb i).Fills j := by
  rw [Arrives, h.sectorsDelivered_eq, UexHdr.Fills]
  simp only [h, true_and]

/-- What a load to a fixed address leaves, whatever errors the disk has had. -/
theorem uexExec_fixed (hfind : kfsFind M.mem sb name = some (some i))
    (hload : (fileHdr M sb i).loadAddr ≠ 0#32) (h : uexExec M sb name wanted = some x)
    (hok : x.result = errSuccess) :
    x.machine.pmm = M.pmm ∧ x.machine.mem = afterZeros (afterSectors
      (afterChunk M.mem (fileHdr M sb i) (fileHdr M sb i).loadAddr.toNat (fileByte M sb i))
      (fileHdr M sb i).loadAddr.toNat (uexSectors (fileHdr M sb i) % 2 ^ 8)
      (M.disk.byteAt (restLba M sb i).toNat)) (fileHdr M sb i)
      (fileHdr M sb i).loadAddr.toNat := by
  have hdest : uexDest M.mem M.pmm (fileHdr M sb i) =
      (M.mem, M.pmm, (fileHdr M sb i).loadAddr.toNat) := uexDest_fixed hload
  obtain ⟨hloaded, hread⟩ := uexExec_loaded_of_success hfind h hok
  constructor
  · rw [hloaded.pmm_eq, hdest]
  · rw [hloaded.mem_eq, if_pos hread, afterRest, hread.sectorsDelivered_eq, imageBase, hdest]

theorem UexHdr.Fills.lt {hdr : UexHdr} {j : ℕ} (h : hdr.Fills j) : j < 2 ^ 32 := by
  have hfile := hdr.fileSize.isLt
  have hmem := hdr.memSize.isLt
  have hsectors : uexSectors hdr % 2 ^ 8 < 2 ^ 8 := Nat.mod_lt _ (by decide)
  unfold UexHdr.Fills firstChunk sizeofUexHdr InBlock UexHdr.Zeroes at h
  omega

theorem stored_iff (hfind : kfsFind M.mem sb name = some (some i))
    (hload : (fileHdr M sb i).loadAddr ≠ 0#32) (h : uexExec M sb name wanted = some x)
    (hok : x.result = errSuccess) (a : ℕ) :
    Stored M.mem x.machine.mem a ↔ ∃ j, (fileHdr M sb i).Fills j ∧ a = imageAddr M sb i j := by
  obtain ⟨-, hmem⟩ := uexExec_fixed hfind hload h hok
  let dest := (fileHdr M sb i).loadAddr.toNat
  have hwrites : x.machine.mem.writes = (Mem.span (dest + (fileHdr M sb i).fileSize.toNat)
      ((fileHdr M sb i).memSize.toNat - (fileHdr M sb i).fileSize.toNat) ++
        (Mem.blockSpan (dest + firstChunk) (uexSectors (fileHdr M sb i) % 2 ^ 8) ++
          Mem.span dest (min (fileHdr M sb i).fileSize.toNat firstChunk))) ++ M.mem.writes := by
    rw [hmem, afterZeros, Mem.writes_blit, afterSectors, Mem.writes_blitBlocks, afterChunk,
      Mem.writes_blit, List.append_assoc, List.append_assoc]
  have hstored : Stored M.mem x.machine.mem a ↔
      a ∈ Mem.span (dest + (fileHdr M sb i).fileSize.toNat)
        ((fileHdr M sb i).memSize.toNat - (fileHdr M sb i).fileSize.toNat) ∨
      a ∈ Mem.blockSpan (dest + firstChunk) (uexSectors (fileHdr M sb i) % 2 ^ 8) ∨
      a ∈ Mem.span dest (min (fileHdr M sb i).fileSize.toNat firstChunk) := by
    rw [← List.mem_append, ← List.mem_append]
    constructor
    · rintro ⟨new, hnew, ha⟩
      rwa [← List.append_cancel_right (hnew.symm.trans hwrites)]
    · exact fun ha => ⟨_, hwrites, ha⟩
  rw [hstored, Mem.mem_span, Mem.mem_blockSpan, Mem.mem_span]
  constructor
  · rintro (⟨k, hk, rfl⟩ | ⟨k, hk, rfl⟩ | ⟨k, hk, rfl⟩)
    · refine ⟨(fileHdr M sb i).fileSize.toNat + k, Or.inr (Or.inr ⟨?_, ?_⟩), ?_⟩
      · omega
      · omega
      · rw [imageAddr, ← Nat.add_assoc]
    · refine ⟨firstChunk + spread k, Or.inr (Or.inl ⟨Nat.le_add_right .., ?_⟩), ?_⟩
      · rw [Nat.add_sub_cancel_left]
        exact inBlock_spread.mpr hk
      · rw [imageAddr, ← Nat.add_assoc]
    · exact ⟨k, Or.inl hk, rfl⟩
  · rintro ⟨j, hchunk | ⟨hlo, hin⟩ | ⟨hlo, hhi⟩, rfl⟩
    · exact Or.inr (Or.inr ⟨j, hchunk, rfl⟩)
    · refine Or.inr (Or.inl ⟨gather (j - firstChunk), gather_lt hin, ?_⟩)
      rw [imageAddr, Nat.add_assoc, spread_gather hin, Nat.add_sub_cancel' hlo]
    · refine Or.inl ⟨j - (fileHdr M sb i).fileSize.toNat, by omega, ?_⟩
      rw [imageAddr, Nat.add_assoc, Nat.add_sub_cancel' hlo]

theorem get_fixed (hfind : kfsFind M.mem sb name = some (some i))
    (hload : (fileHdr M sb i).loadAddr ≠ 0#32) (h : uexExec M sb name wanted = some x)
    (hok : x.result = errSuccess) {j : ℕ} (hj : j < 2 ^ 32) :
    ((fileHdr M sb i).Fills j →
      x.machine.mem.get (imageAddr M sb i j) = imageByte M sb i j) ∧
    (¬ (fileHdr M sb i).Fills j →
      x.machine.mem.get (imageAddr M sb i j) = M.mem.get (imageAddr M sb i j)) := by
  obtain ⟨hloaded, hread⟩ := uexExec_loaded_of_success hfind h hok
  have hdest : uexDest M.mem M.pmm (fileHdr M sb i) =
      (M.mem, M.pmm, (fileHdr M sb i).loadAddr.toNat) := uexDest_fixed hload
  have hbase : imageBase M sb i = (fileHdr M sb i).loadAddr.toNat := by rw [imageBase, hdest]
  have hmod (m : Mem) : m.get (imageAddr M sb i j) = m.get ((fileHdr M sb i).loadAddr.toNat + j) :=
    m.get_congr (Nat.mod_mod _ _)
  have hget := hloaded.get hj
  rw [arrives_iff_fills hread, hdest, hbase] at hget
  rw [hmod, hmod]
  exact hget

theorem bitmapTest_fixed (hfind : kfsFind M.mem sb name = some (some i))
    (hload : (fileHdr M sb i).loadAddr ≠ 0#32) (h : uexExec M sb name wanted = some x)
    (hok : x.result = errSuccess) {q : ℕ} (hclear : bitmapTest M.mem M.pmm q = false) :
    bitmapTest x.machine.mem M.pmm q = true ↔ ImageMarks M sb i q := by
  have hj := Mem.offset_lt (fileHdr M sb i).loadAddr.toNat (M.pmm.bitmap + q / 8)
  have haddr : imageAddr M sb i (Mem.offset (fileHdr M sb i).loadAddr.toNat
      (M.pmm.bitmap + q / 8)) = (M.pmm.bitmap + q / 8) % 2 ^ 32 := Mem.mod_add_offset _ _
  generalize Mem.offset (fileHdr M sb i).loadAddr.toNat (M.pmm.bitmap + q / 8) = j at hj haddr
  obtain ⟨hfills, hnot⟩ := get_fixed hfind hload h hok hj
  have hget (m : Mem) : m.get (imageAddr M sb i j) = m.get (M.pmm.bitmap + q / 8) := by
    rw [haddr]
    exact m.get_congr (Nat.mod_mod _ _)
  rw [hget] at hfills
  rw [hget, hget] at hnot
  rw [bitmapTest_eq] at hclear ⊢
  constructor
  · intro hset
    by_cases hj' : (fileHdr M sb i).Fills j
    · exact ⟨j, hj', haddr, by rw [← hfills hj']; exact hset⟩
    · rw [hnot hj', hclear] at hset
      cases hset
  · rintro ⟨k, hk, hkaddr, hset⟩
    have hkj : k = j := by
      have hk32 := hk.lt
      rw [← haddr, imageAddr, imageAddr] at hkaddr
      omega
    rw [hfills (hkj ▸ hk), ← hkj]
    exact hset

theorem PmmInv.owned_lt {m₁ m : Mem} {p₁ p : Pmm} {L : Ledger Block.span}
    (hinv : PmmInv m₁ p₁ m p L) {q : ℕ} (h : q ∈ L.owned) : q < p.maxPages := by
  rcases h with hres | ⟨b, hb, hspan⟩
  · rw [hinv.reserved_eq] at hres
    rw [hinv.maxPages_eq]
    exact hres.1
  · exact hspan.2.trans_le (hinv.blocks b hb).le_maxPages

/-- A load to a fixed address is safe exactly when the image stays clear of the pages that the
allocator manages. -/
theorem uexExec_fixedLoadSafe_iff {m₀ m₁ : Mem} {p₁ : Pmm} {live : List Block}
    (hinit : pmmInit m₀ Pmm.boot = (m₁, p₁, none)) (hrun : PmmRun m₁ p₁ M.mem M.pmm live)
    (hfind : kfsFind M.mem sb name = some (some i))
    (hload : (fileHdr M sb i).loadAddr ≠ 0#32) (h : uexExec M sb name wanted = some x)
    (hok : x.result = errSuccess) :
    FixedLoadSafe m₁ p₁ live M x ↔ ClearOfPages M sb i := by
  have hready := pmmInit_ready hinit
  obtain ⟨L, rfl, hinv⟩ := pmmRun_refines hready hrun
  have hbounds := hinv.bounds hready
  have hpmm := (uexExec_fixed hfind hload h hok).1
  have hstored := stored_iff hfind hload h hok
  constructor
  · intro hsafe j hj
    have ha := (hstored _).mpr ⟨j, hj, rfl⟩
    rcases Nat.lt_or_ge (imageAddr M sb i j / pageSize) M.pmm.maxPages with hlt | hge
    · right
      have hfree : imageAddr M sb i j / pageSize ∉ L.owned := by
        rintro (hres | ⟨b, hb, hspan⟩)
        · exact hsafe.unreserved _ ha (hinv.reserved_eq ▸ hres)
        · exact hsafe.unowned _ ha b hb hspan
      have hclear := (hinv.bit_eq_false_iff hlt).mpr hfree
      refine ⟨hclear, (bitmapTest_fixed hfind hload h hok hclear).mp ?_⟩
      by_contra hnot
      rw [Bool.not_eq_true, ← hpmm] at hnot
      have hne : imageAddr M sb i j / pageSize ≠ 0 := fun h0 =>
        hfree (h0 ▸ hinv.zero_owned hready (Nat.zero_lt_of_lt hlt))
      obtain ⟨m, p, live', hlater, hout⟩ :=
        exists_handsOut (hpmm ▸ hbounds) (hpmm ▸ hlt) hne hnot
      exact hsafe.notHandedOut _ ha m p live' hlater 1 hout
    · exact Or.inl hge
  · intro hclear
    have hwithheld : ∀ a, Stored M.mem x.machine.mem a →
        (M.pmm.maxPages ≤ a / pageSize ∨ bitmapTest M.mem M.pmm (a / pageSize) = false ∧
          bitmapTest x.machine.mem M.pmm (a / pageSize) = true) := by
      intro a ha
      obtain ⟨j, hj, rfl⟩ := (hstored a).mp ha
      refine (hclear j hj).imp_right fun hboth => ⟨hboth.1, ?_⟩
      exact (bitmapTest_fixed hfind hload h hok hboth.1).mpr hboth.2
    have hfree : ∀ a, Stored M.mem x.machine.mem a → a / pageSize ∉ L.owned := by
      intro a ha howned
      have hlt := hinv.owned_lt howned
      rcases hwithheld a ha with hge | ⟨hbit, -⟩
      · exact absurd hlt (Nat.not_lt.mpr hge)
      · exact (hinv.bit_eq_false_iff hlt).mp hbit howned
    refine ⟨fun a ha hres => ?_, fun a ha b hb hspan => ?_, fun a ha m p live' hlater n => ?_⟩
    · exact hfree a ha (Or.inl (hinv.reserved_eq ▸ hres))
    · exact hfree a ha (Or.inr ⟨b, hb, hspan⟩)
    · have hnow : Withheld (a / pageSize) x.machine.mem x.machine.pmm L.live := by
        refine ⟨?_, fun b hb hspan => hfree a ha (Or.inr ⟨b, hb, hspan⟩)⟩
        rw [hpmm]
        exact (hwithheld a ha).imp_right And.right
      obtain ⟨hbounds', hlaterWithheld⟩ := hnow.later (hpmm ▸ hbounds) hlater
      exact hlaterWithheld.not_handsOut hbounds' n

theorem reserved_of_holdsBitmap {m₀ m₁ : Mem} {p₁ : Pmm} (hmap : AlignedMap (readMap m₀))
    (hinit : pmmInit m₀ Pmm.boot = (m₁, p₁, none)) {q : ℕ} (hq : HoldsBitmap p₁ q) :
    q ∈ reservedPages m₁ p₁ := by
  refine reserved_of_bitmapPage hinit ?_ (bitmapPage_of_holdsBitmap hmap hinit hq)
  obtain ⟨e, hfind, hplace, -⟩ := pmmInit_success hinit
  obtain ⟨hmem, husable, hsize, -⟩ := findBitmap_spec hfind
  have hbase := hmap.base_aligned e hmem husable
  have hlength := hmap.length_aligned e hmem husable
  have hwrap := hmap.no_wrap e hmem husable
  obtain ⟨hbaseHigh, hlengthHigh⟩ := hmap.high_zero e hmem husable
  have hend : e.regionEnd = e.baseLow.toNat + e.lengthLow.toNat := by
    rw [E820Entry.regionEnd, hbaseHigh, hlengthHigh, BitVec.add_zero, BitVec.add_zero,
      BitVec.toNat_add, Nat.mod_eq_of_lt hwrap]
  have hle := regionEnd_le_maxAddr hmem husable
  have hbitmap : p₁.bitmap = e.baseLow.toNat := by rw [hplace, placeBitmap_bitmap]
  have hmax : p₁.maxPages = maxAddr m₀ / pageSize := by rw [hplace, placeBitmap_maxPages]
  obtain ⟨a, ha, hin, rfl⟩ := hq
  rw [InBitmap, hbitmap, Mem.offset] at hin
  rw [hmax]
  unfold pageSize at *
  omega

theorem clearOfPages_iff_of_aligned {m₀ m₁ : Mem} {p₁ : Pmm} {live : List Block}
    (hmap : AlignedMap (readMap m₀)) (hinit : pmmInit m₀ Pmm.boot = (m₁, p₁, none))
    (hrun : PmmRun m₁ p₁ M.mem M.pmm live) :
    ClearOfPages M sb i ↔ ∀ j, (fileHdr M sb i).Fills j →
      M.pmm.maxPages ≤ imageAddr M sb i j / pageSize := by
  have hready := pmmInit_ready hinit
  obtain ⟨L, -, hinv⟩ := pmmRun_refines hready hrun
  have hbounds := hinv.bounds hready
  refine ⟨fun hclear j hj => ?_, fun hbehind j hj => Or.inl (hbehind j hj)⟩
  by_contra hlt
  obtain ⟨-, k, hk, hkaddr, -⟩ := (hclear j hj).resolve_left hlt
  have hholds : HoldsBitmap p₁ (imageAddr M sb i k / pageSize) := by
    refine ⟨_, Nat.mod_lt _ (by decide), ?_, rfl⟩
    have hle := hbounds.maxPages_le
    have hsize := hbounds.bitmapSize_lt
    rw [InBitmap, ← hinv.bitmap_eq, ← hinv.bitmapSize_eq]
    change Mem.offset M.pmm.bitmap (imageAddr M sb i k) < _
    rw [hkaddr, Mem.offset_congr _ (Nat.mod_mod _ _), Mem.offset_add _ (by omega)]
    omega
  have hreserved := reserved_of_holdsBitmap hmap hinit hholds
  have howned : imageAddr M sb i k / pageSize ∈ L.owned := Or.inl (hinv.reserved_eq ▸ hreserved)
  rcases hclear k hk with hge | ⟨hbit, -⟩
  · exact absurd (hinv.owned_lt howned) (Nat.not_lt.mpr hge)
  · exact (hinv.bit_eq_false_iff (hinv.owned_lt howned)).mp hbit howned

end

/-- With 4 MiB of memory the allocator manages the page at `0x200000`. -/
def largeRegion : List E820Entry := [⟨0x100000#32, 0#32, 0x300000#32, 0#32, 1#32⟩]

def largeRegionInit : Mem × Pmm × Option PmmError := pmmInit (tableMemory largeRegion) Pmm.boot

theorem programMachine_run {m₁ : Mem} {p₁ : Pmm} {hdr : UexHdr} {M : Machine}
    (hM : programMachine m₁ p₁ hdr = some M) (hpmm : M.pmm = p₁) (hbitmap : p₁.bitmap = 0x100000)
    (hsize : p₁.bitmapSize ≤ 128) : PmmRun m₁ p₁ M.mem M.pmm [] := by
  obtain ⟨-, r, hmount⟩ := programMachine_some hM
  have hmem : M.mem = m₁.blit demoSuperblock 512 _ := (kfsMount_some hmount).1
  rw [hpmm]
  refine PmmRun.init.store fun a ha => ?_
  rw [hmem]
  refine Mem.get_blit_of_le _ _ (by decide) ?_
  rw [InBitmap, hbitmap] at ha
  unfold Mem.offset demoSuperblock at *
  omega

def shortRun (m : Mem) (p : Pmm) : Option (Pmm × Option (Option ℕ) × UexHdr × ℤ) :=
  (programMachine m p shortProgram).bind fun M =>
    (uexExec M demoSuperblock programName true).map fun x =>
      (M.pmm, kfsFind M.mem demoSuperblock programName, fileHdr M demoSuperblock 0, x.result)

theorem UexHdr.Fills.lt_page {hdr : UexHdr} {j : ℕ} (h : hdr.Fills j)
    (hfile : hdr.fileSize = 600#32) (hmem : hdr.memSize = 0x1000#32) : j < 0x1000 := by
  have hsectors : uexSectors hdr % 2 ^ 8 = 1 := by
    rw [uexSectors, hfile]
    decide
  rw [UexHdr.Fills, UexHdr.Zeroes, hfile, hmem, hsectors, inBlock_one] at h
  change j < min 600 488 ∨ 488 ≤ j ∧ j - 488 < 512 ∨ 600 ≤ j ∧ j < 0x1000 at h
  omega

theorem shortRun_some {m₁ : Mem} {p₁ p : Pmm} (hrun : shortRun m₁ p₁ =
      some (p, some (some 0), shortProgram, errSuccess)) (hp : p₁ = p)
    (hbitmap : p.bitmap = 0x100000) (hsize : p.bitmapSize ≤ 128) :
    ∃ M x, programMachine m₁ p₁ shortProgram = some M ∧ M.pmm = p ∧
      PmmRun m₁ p₁ M.mem M.pmm [] ∧
      kfsFind M.mem demoSuperblock programName = some (some 0) ∧
      fileHdr M demoSuperblock 0 = shortProgram ∧
      uexExec M demoSuperblock programName true = some x ∧ x.result = errSuccess := by
  obtain ⟨M, hM, hrun⟩ := Option.bind_eq_some_iff.mp hrun
  obtain ⟨x, hx, hrun⟩ := Option.map_eq_some_iff.mp hrun
  simp only [Prod.mk.injEq] at hrun
  obtain ⟨hpmm, hfind, hhdr, hok⟩ := hrun
  refine ⟨M, x, hM, hpmm, programMachine_run hM (hpmm.trans hp.symm) ?_ ?_, hfind, hhdr, hx, hok⟩
  · rw [hp, hbitmap]
  · rw [hp]
    exact hsize

theorem shortProgram_loadAddr : shortProgram.loadAddr ≠ 0#32 := by decide

/-- With 20 KiB above 1 MiB the program's page is no page of the allocator. -/
theorem shortProgram_fixedLoadSafe : ∃ M x,
    programMachine oneRegionInit.1 oneRegionInit.2.1 shortProgram = some M ∧
      uexExec M demoSuperblock programName true = some x ∧ x.result = errSuccess ∧
      FixedLoadSafe oneRegionInit.1 oneRegionInit.2.1 [] M x := by
  have hrun : shortRun oneRegionInit.1 oneRegionInit.2.1 =
      some (⟨0x100000, 33, 0x105, 0⟩, some (some 0), shortProgram, errSuccess) := by
    decide +kernel
  have hp : oneRegionInit.2.1 = ⟨0x100000, 33, 0x105, 0⟩ := by decide +kernel
  obtain ⟨M, x, hM, hpmm, hreach, hfind, hhdr, hx, hok⟩ := shortRun_some hrun hp rfl (by decide)
  refine ⟨M, x, hM, hx, hok, (uexExec_fixedLoadSafe_iff oneRegion_init hreach hfind
    (hhdr ▸ shortProgram_loadAddr) hx hok).mpr fun j hj => Or.inl ?_⟩
  rw [hhdr] at hj
  have hlt := hj.lt_page rfl rfl
  have hload : shortProgram.loadAddr.toNat = 0x200000 := rfl
  rw [hpmm, imageAddr, hhdr, hload, pageSize]
  change 0x105 ≤ _
  omega

theorem largeRegion_aligned : AlignedMap (readMap (tableMemory largeRegion)) := by
  rw [readMap_tableMemory (by decide)]
  refine ⟨by decide, by decide, by decide, by decide, ?_⟩
  exact List.pairwise_singleton _ _

theorem largeRegion_init : pmmInit (tableMemory largeRegion) Pmm.boot =
    (largeRegionInit.1, largeRegionInit.2.1, none) := by
  have hnone : largeRegionInit.2.2 = none := by decide +kernel
  rw [← hnone]
  rfl

/-- With 4 MiB it is one of them. -/
theorem shortProgram_not_fixedLoadSafe : ∃ M x,
    pmmInit (tableMemory largeRegion) Pmm.boot = (largeRegionInit.1, largeRegionInit.2.1, none) ∧
      programMachine largeRegionInit.1 largeRegionInit.2.1 shortProgram = some M ∧
      PmmRun largeRegionInit.1 largeRegionInit.2.1 M.mem M.pmm [] ∧
      kfsFind M.mem demoSuperblock programName = some (some 0) ∧
      (fileHdr M demoSuperblock 0).loadAddr ≠ 0#32 ∧
      uexExec M demoSuperblock programName true = some x ∧ x.result = errSuccess ∧
      ¬ FixedLoadSafe largeRegionInit.1 largeRegionInit.2.1 [] M x := by
  have hrun : shortRun largeRegionInit.1 largeRegionInit.2.1 =
      some (⟨0x100000, 128, 0x400, 0⟩, some (some 0), shortProgram, errSuccess) := by
    decide +kernel
  have hp : largeRegionInit.2.1 = ⟨0x100000, 128, 0x400, 0⟩ := by decide +kernel
  obtain ⟨M, x, hM, hpmm, hreach, hfind, hhdr, hx, hok⟩ := shortRun_some hrun hp rfl (by decide)
  have hload : (fileHdr M demoSuperblock 0).loadAddr ≠ 0#32 := hhdr ▸ shortProgram_loadAddr
  refine ⟨M, x, largeRegion_init, hM, hreach, hfind, hload, hx, hok, fun hsafe => ?_⟩
  have hclear := (clearOfPages_iff_of_aligned largeRegion_aligned largeRegion_init hreach).mp
    ((uexExec_fixedLoadSafe_iff largeRegion_init hreach hfind hload hx hok).mp hsafe)
  have hfills : (fileHdr M demoSuperblock 0).Fills 0 := by
    rw [hhdr]
    exact Or.inl (by decide)
  have hbehind := hclear 0 hfills
  rw [hpmm, imageAddr, hhdr] at hbehind
  exact absurd hbehind (by decide)

end System44
