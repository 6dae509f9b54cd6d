import System44.PmmConservation
import System44.UexImage

/-!
# The block of a program

A relocatable program gets a block of whole pages for its size in memory. What is copied from the
first sector and the zeros stay in the block; the transfer in between stores whole sectors at places
1024 bytes apart.
-/

namespace System44

/-- The size of the block that is asked for. -/
def blockSize (hdr : UexHdr) : ℕ := pageSize * ((hdr.memSize.toNat + 4095) / 4096)

/-- Every byte stored since `m` lies in the block at `dest`. -/
def WritesInside (m m' : Mem) (dest size : ℕ) : Prop :=
  ∃ new, m'.writes = new ++ m.writes ∧ ∀ a ∈ new, Mem.offset dest a < size

theorem writesInside_iff {m m' : Mem} {dest size : ℕ} {new : List ℕ}
    (h : m'.writes = new ++ m.writes) :
    WritesInside m m' dest size ↔ ∀ a ∈ new, Mem.offset dest a < size := by
  constructor
  · rintro ⟨new', hnew', hall⟩
    obtain rfl := List.append_cancel_right (h.symm.trans hnew')
    exact hall
  · intro hall
    exact ⟨new, h, hall⟩

theorem span_inside_iff {dest x n size : ℕ} (hx : x + n ≤ 2 ^ 32) :
    (∀ a ∈ Mem.span (dest + x) n, Mem.offset dest a < size) ↔ n = 0 ∨ x + n ≤ size := by
  have hoff : ∀ i < n, Mem.offset dest ((dest + x + i) % 2 ^ 32) = x + i := by
    intro i hi
    rw [Mem.offset_congr dest (Nat.mod_mod _ _), Nat.add_assoc, Mem.offset_add dest (by omega)]
  constructor
  · intro hall
    rcases Nat.eq_zero_or_pos n with h0 | hpos
    · exact Or.inl h0
    · have hlast := hall _ (Mem.mem_span.mpr ⟨n - 1, by omega, rfl⟩)
      rw [hoff _ (by omega)] at hlast
      omega
  · rintro hsize a ha
    obtain ⟨i, hi, rfl⟩ := Mem.mem_span.mp ha
    rw [hoff i hi]
    omega

theorem blockSpan_inside_iff {dest x n size : ℕ} (hx : x + blockReach n ≤ 2 ^ 32) :
    (∀ a ∈ Mem.blockSpan (dest + x) n, Mem.offset dest a < size) ↔
      n = 0 ∨ x + blockReach n ≤ size := by
  have hoff : ∀ i < 512 * n, Mem.offset dest ((dest + x + spread i) % 2 ^ 32) = x + spread i := by
    intro i hi
    have hlt := spread_lt_blockReach hi
    rw [Mem.offset_congr dest (Nat.mod_mod _ _), Nat.add_assoc, Mem.offset_add dest (by omega)]
  constructor
  · intro hall
    rcases Nat.eq_zero_or_pos n with h0 | hpos
    · exact Or.inl h0
    · have hlast := hall _ (Mem.mem_blockSpan.mpr ⟨512 * n - 1, by omega, rfl⟩)
      rw [hoff _ (by omega)] at hlast
      unfold spread at hlast
      unfold blockReach
      omega
  · rintro hsize a ha
    obtain ⟨i, hi, rfl⟩ := Mem.mem_blockSpan.mp ha
    have hlt := spread_lt_blockReach hi
    rw [hoff i hi]
    omega

theorem pages_of_memory {M : Machine} {hdr : UexHdr} (hload : hdr.loadAddr = 0#32)
    (h : (uexDest M.mem M.pmm hdr).2.2 ≠ 0) :
    hdr.pages = (hdr.memSize.toNat + 4095) / 4096 ∧ 0 < hdr.pages := by
  have hpages : hdr.pages = (hdr.memSize.toNat + 4095) % 2 ^ 32 / 4096 := by
    rw [UexHdr.pages, BitVec.toNat_udiv, BitVec.toNat_add]
    rfl
  have hpos : hdr.pages ≠ 0 := by
    intro h0
    rw [uexDest_relocatable hload, h0, pmmAlloc, if_pos rfl] at h
    exact h rfl
  have hlt := hdr.memSize.isLt
  omega

/-- The chunk and the zeros are inside any block for the size in memory, the sectors are as far as
they reach. -/
theorem stores_inside_iff (m : Mem) {hdr : UexHdr} (dest : ℕ) {t size : ℕ}
    (bytes bytes' : ℕ → Byte) (ht : t < 2 ^ 8) (hfile : hdr.fileSize.toNat ≤ hdr.memSize.toNat)
    (hmem : hdr.memSize.toNat ≤ size) (hchunk : firstChunk ≤ size) :
    (WritesInside m (afterSectors (afterChunk m hdr dest bytes) dest t bytes') dest size ↔
      firstChunk + blockReach t ≤ size) ∧
    (WritesInside m (afterZeros (afterSectors (afterChunk m hdr dest bytes) dest t bytes') hdr dest)
      dest size ↔ firstChunk + blockReach t ≤ size) := by
  have hlt := hdr.memSize.isLt
  have hfirst : firstChunk = 488 := rfl
  have hreach : firstChunk + blockReach t ≤ 2 ^ 32 := by
    unfold blockReach
    omega
  have hsectors : (afterSectors (afterChunk m hdr dest bytes) dest t bytes').writes =
      (Mem.blockSpan (dest + firstChunk) t ++
        Mem.span (dest + 0) (min hdr.fileSize.toNat firstChunk)) ++ m.writes := by
    rw [afterSectors, Mem.writes_blitBlocks, afterChunk, Mem.writes_blit, List.append_assoc,
      Nat.add_zero]
  have hzeros : (afterZeros (afterSectors (afterChunk m hdr dest bytes) dest t bytes')
      hdr dest).writes = (Mem.span (dest + hdr.fileSize.toNat)
        (hdr.memSize.toNat - hdr.fileSize.toNat) ++ (Mem.blockSpan (dest + firstChunk) t ++
        Mem.span (dest + 0) (min hdr.fileSize.toNat firstChunk))) ++ m.writes := by
    rw [afterZeros, Mem.writes_blit, hsectors, ← List.append_assoc]
  have hnone : t = 0 → blockReach t = 0 := by
    rintro rfl
    rfl
  constructor
  · rw [writesInside_iff hsectors, List.forall_mem_append, blockSpan_inside_iff hreach,
      span_inside_iff (by omega)]
    omega
  · rw [writesInside_iff hzeros, List.forall_mem_append, List.forall_mem_append,
      span_inside_iff (by omega), blockSpan_inside_iff hreach, span_inside_iff (by omega)]
    omega

/-- A load stays in its block exactly when the end of the last sector that is delivered does. -/
theorem uexExec_inside_iff {M : Machine} {sb name i : ℕ} {wanted : Bool} {x : UexExit}
    (hfind : kfsFind M.mem sb name = some (some i)) (hready : UexReady M sb i)
    (hload : (fileHdr M sb i).loadAddr = 0#32)
    (hfile : (fileHdr M sb i).fileSize.toNat ≤ (fileHdr M sb i).memSize.toNat)
    (h : uexExec M sb name wanted = some x) :
    WritesInside (pmmAlloc M.mem M.pmm (fileHdr M sb i).pages).1 x.machine.mem
        (pmmAlloc M.mem M.pmm (fileHdr M sb i).pages).2.2 (blockSize (fileHdr M sb i)) ↔
      firstChunk + blockReach (sectorsDelivered M (fileHdr M sb i)) ≤
        blockSize (fileHdr M sb i) := by
  have hloaded := uexExec_loaded hfind hready h
  have hdest : uexDest M.mem M.pmm (fileHdr M sb i) =
      pmmAlloc M.mem M.pmm (fileHdr M sb i).pages := uexDest_relocatable hload
  obtain ⟨hpages, hpos⟩ := pages_of_memory hload hready.memory
  have hblock : blockSize (fileHdr M sb i) = pageSize * (fileHdr M sb i).pages := by
    rw [blockSize, hpages]
  have hroom : (fileHdr M sb i).memSize.toNat ≤ blockSize (fileHdr M sb i) := by
    rw [blockSize, pageSize]
    omega
  have hchunk : firstChunk ≤ blockSize (fileHdr M sb i) := by
    rw [hblock, firstChunk, pageSize]
    omega
  obtain ⟨hsectors, hzeros⟩ := stores_inside_iff
    (pmmAlloc M.mem M.pmm (fileHdr M sb i).pages).1
    (pmmAlloc M.mem M.pmm (fileHdr M sb i).pages).2.2 (fileByte M sb i)
    (M.disk.byteAt (restLba M sb i).toNat) (sectorsDelivered_lt M (fileHdr M sb i)) hfile hroom
    hchunk
  rw [hloaded.mem_eq, afterRest, imageBase, hdest]
  split
  · exact hzeros
  · exact hsectors

def smallProgram : UexHdr := ⟨uexMagic, 0#32, 0#32, 600#32, 0x1000#32, 0#32⟩

def smallMachine : Machine :=
  (programMachine oneRegionInit.1 oneRegionInit.2.1 smallProgram).get (by decide +kernel)

theorem smallProgram_hdr : fileHdr smallMachine demoSuperblock 0 = smallProgram := by
  decide +kernel

theorem smallProgram_find :
    kfsFind smallMachine.mem demoSuperblock programName = some (some 0) := by decide +kernel

theorem smallMachine_errorFree : smallMachine.disk.ErrorFree := by
  have hmount : programMachine oneRegionInit.1 oneRegionInit.2.1 smallProgram =
      some smallMachine := (Option.some_get _).symm
  exact (programMachine_some hmount).1

theorem smallProgram_ready : UexReady smallMachine demoSuperblock 0 := by
  refine ⟨by decide +kernel, Reply.good_of_taken (smallMachine_errorFree _), ?_, ?_⟩
  · rw [smallProgram_hdr]
    rfl
  · rw [smallProgram_hdr]
    decide +kernel

theorem smallProgram_inside : ∃ x,
    uexExec smallMachine demoSuperblock programName true = some x ∧
      WritesInside
        (pmmAlloc smallMachine.mem smallMachine.pmm
          (fileHdr smallMachine demoSuperblock 0).pages).1 x.machine.mem
        (pmmAlloc smallMachine.mem smallMachine.pmm
          (fileHdr smallMachine demoSuperblock 0).pages).2.2
        (blockSize (fileHdr smallMachine demoSuperblock 0)) := by
  have hrun : (uexExec smallMachine demoSuperblock programName true).isSome = true := by
    decide +kernel
  obtain ⟨x, hx⟩ := Option.isSome_iff_exists.mp hrun
  refine ⟨x, hx, (uexExec_inside_iff smallProgram_find smallProgram_ready
    (by rw [smallProgram_hdr]; rfl) (by rw [smallProgram_hdr]; decide) hx).mpr ?_⟩
  rw [smallProgram_hdr]
  decide +kernel

/-- A program whose image and size in memory are one page. -/
def pageProgram : UexHdr := ⟨uexMagic, 0#32, 0#32, 0x1000#32, 0x1000#32, 0#32⟩

/-- The last byte that is stored for it lies 4071 bytes behind the end of its page. -/
theorem pageProgram_not_inside : ∃ M x,
    programMachine oneRegionInit.1 oneRegionInit.2.1 pageProgram = some M ∧
      kfsFind M.mem demoSuperblock programName = some (some 0) ∧
      fileHdr M demoSuperblock 0 = pageProgram ∧
      (pmmAlloc M.mem M.pmm pageProgram.pages).2.2 = 0x101000 ∧
      uexExec M demoSuperblock programName true = some x ∧ x.result = errSuccess ∧
      ¬ WritesInside (pmmAlloc M.mem M.pmm pageProgram.pages).1 x.machine.mem 0x101000
        (blockSize pageProgram) := by
  have hrun : ((programMachine oneRegionInit.1 oneRegionInit.2.1 pageProgram).bind fun M =>
      (uexExec M demoSuperblock programName true).map fun x =>
        (kfsFind M.mem demoSuperblock programName, fileHdr M demoSuperblock 0,
          (pmmAlloc M.mem M.pmm pageProgram.pages).2.2, x.result,
          decide (x.machine.mem.writes.head? = some (0x101000 + 8167) ∧
            (pmmAlloc M.mem M.pmm pageProgram.pages).1.writes.length <
              x.machine.mem.writes.length))) =
      some (some (some 0), pageProgram, 0x101000, errSuccess, true) := by decide +kernel
  obtain ⟨M, hM, h⟩ := Option.bind_eq_some_iff.mp hrun
  obtain ⟨x, hx, h⟩ := Option.map_eq_some_iff.mp h
  simp only [Prod.mk.injEq] at h
  obtain ⟨hfind, hhdr, hdest, hok, hlast⟩ := h
  obtain ⟨hhead, hlen⟩ := of_decide_eq_true hlast
  refine ⟨M, x, hM, hfind, hhdr, hdest, hx, hok, ?_⟩
  rintro ⟨new, hnew, hall⟩
  cases new with
  | nil =>
      rw [hnew, List.nil_append] at hlen
      exact absurd hlen (Nat.lt_irrefl _)
  | cons a new =>
      rw [hnew, List.cons_append, List.head?_cons, Option.some_inj] at hhead
      have hin := hall a (List.mem_cons_self ..)
      rw [hhead] at hin
      exact absurd hin (by decide)

end System44
