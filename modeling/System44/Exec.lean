import System44.UexBounds
import System44.UexFixed

/-!
# Running a program

`exec` and `execv` have a program loaded, call it and give its block back. A load that fails after
it has got a block keeps the block, and nobody else knows of it; and whatever happens, an image that
reaches the bitmap is stored over it.
-/

namespace System44

/-- What the machine is after a call of the entry point with the given arguments, if the program
returns. -/
abbrev Program := BitVec 32 → List ℕ → Machine → Option Machine

/-- `if (alloc.base) { pmm_free(alloc.base, alloc.pages); }`. -/
def giveBack (alloc : UexAlloc) (M : Machine) : Machine :=
  if alloc.base ≠ 0 then
    let (m, p) := pmmFree M.mem M.pmm alloc.base alloc.pages
    { M with mem := m, pmm := p }
  else M

/-- `exec` and `execv` differ in the arguments of the call only. -/
def execWith (prog : Program) (args : List ℕ) (M : Machine) (sb file : ℕ) :
    Option (ℤ × Machine) := do
  let x ← uexExec M sb file true
  if x.result = 0 then
    -- a load that succeeds has stored both
    let entry ← x.entry
    let alloc ← x.alloc
    let M ← prog entry args x.machine
    some (errSuccess, giveBack alloc M)
  else some (errFormat, x.machine)

def exec (prog : Program) (M : Machine) (sb file : ℕ) : Option (ℤ × Machine) :=
  execWith prog [] M sb file

def execv (prog : Program) (M : Machine) (sb file argv : ℕ) : Option (ℤ × Machine) :=
  execWith prog [argv] M sb file

/-- The page bitmap is where it was and has the same bits. -/
structure SameBitmap (M M' : Machine) : Prop where
  bitmap_eq : M'.pmm.bitmap = M.pmm.bitmap
  bitmapSize_eq : M'.pmm.bitmapSize = M.pmm.bitmapSize
  bits : ∀ q < 8 * M.pmm.bitmapSize, bitmapTest M'.mem M'.pmm q = bitmapTest M.mem M.pmm q

theorem SameBitmap.refl (M : Machine) : SameBitmap M M := ⟨rfl, rfl, fun _ _ => rfl⟩

def NoAllocation (prog : Program) : Prop :=
  ∀ entry args M M', prog entry args M = some M' → M'.pmm = M.pmm ∧ SameBitmap M M'

/-- No page is lost: a load that fails leaves the bitmap as it was, and so does a call of a program
that leaves it alone. -/
structure NoLeak (M : Machine) (sb name : ℕ) : Prop where
  load : ∀ wanted x, uexExec M sb name wanted = some x → x.result ≠ errSuccess →
    SameBitmap M x.machine
  exec : ∀ prog, NoAllocation prog → ∀ r M', exec prog M sb name = some (r, M') → SameBitmap M M'
  execv : ∀ prog, NoAllocation prog → ∀ argv r M', execv prog M sb name argv = some (r, M') →
    SameBitmap M M'

def Takes (M : Machine) (sb i q : ℕ) : Prop :=
  (fileHdr M sb i).loadAddr = 0#32 ∧
    q ∈ (Block.mk (imageBase M sb i) (fileHdr M sb i).pages).span

def Over (M : Machine) (sb i j q : ℕ) : Prop :=
  (imageBase M sb i + j) % 2 ^ 32 = (M.pmm.bitmap + q / 8) % 2 ^ 32

def Spares (M : Machine) (sb i q : ℕ) : Prop :=
  ∀ j, Arrives M sb i j → Over M sb i j q →
    (imageByte M sb i j).getLsbD (q % 8) = bitmapTest M.mem M.pmm q

/-- Nothing in the image changes the bitmap, apart from bits of the block that are cleared later;
and if the block is kept because the transfer has failed, the image itself covers its bits. -/
structure KeepsBitmap (M : Machine) (sb i : ℕ) : Prop where
  spares : ∀ q < 8 * M.pmm.bitmapSize,
    ¬ (RestRead M (fileHdr M sb i) ∧ Takes M sb i q) → Spares M sb i q
  givesBack : RestRead M (fileHdr M sb i) ∨
    ∀ q, Takes M sb i q → ∃ j, Arrives M sb i j ∧ Over M sb i j q

/-- What the search for a place does to the allocator. -/
structure Placed (M : Machine) (sb i : ℕ) : Prop where
  bitmap_eq : (uexDest M.mem M.pmm (fileHdr M sb i)).2.1.bitmap = M.pmm.bitmap
  bitmapSize_eq : (uexDest M.mem M.pmm (fileHdr M sb i)).2.1.bitmapSize = M.pmm.bitmapSize
  maxPages_eq : (uexDest M.mem M.pmm (fileHdr M sb i)).2.1.maxPages = M.pmm.maxPages
  bounds : PmmBounds M.pmm
  null : imageBase M sb i = 0 → (uexDest M.mem M.pmm (fileHdr M sb i)).1 = M.mem
  taken : imageBase M sb i ≠ 0 → ∀ q, Takes M sb i q →
    q < M.pmm.maxPages ∧ bitmapTest M.mem M.pmm q = false
  bits : imageBase M sb i ≠ 0 → ∀ q < 8 * M.pmm.bitmapSize,
    bitmapTest (uexDest M.mem M.pmm (fileHdr M sb i)).1 M.pmm q = true ↔
      Takes M sb i q ∨ bitmapTest M.mem M.pmm q = true

section

variable {m₀ m₁ : Mem} {p₁ : Pmm} {live : List Block} {M : Machine} {sb name i : ℕ}

theorem placed_fixed (hbounds : PmmBounds M.pmm) (hload : (fileHdr M sb i).loadAddr ≠ 0#32) :
    Placed M sb i := by
  have hdest : uexDest M.mem M.pmm (fileHdr M sb i) =
      (M.mem, M.pmm, (fileHdr M sb i).loadAddr.toNat) := uexDest_fixed hload
  refine ⟨?_, ?_, ?_, hbounds, fun _ => ?_, fun _ q htakes => absurd htakes.1 hload,
    fun _ q _ => ?_⟩
  · rw [hdest]
  · rw [hdest]
  · rw [hdest]
  · rw [hdest]
  · rw [hdest]
    exact (or_iff_right fun htakes : Takes M sb i q => hload htakes.1).symm

theorem placed_of_reachable (hinit : pmmInit m₀ Pmm.boot = (m₁, p₁, none))
    (hrun : PmmRun m₁ p₁ M.mem M.pmm live) : Placed M sb i := by
  have hready := pmmInit_ready hinit
  obtain ⟨L, rfl, hinv⟩ := pmmRun_refines hready hrun
  have hbounds := hinv.bounds hready
  by_cases hload : (fileHdr M sb i).loadAddr = 0#32
  · have hdest : uexDest M.mem M.pmm (fileHdr M sb i) =
        pmmAlloc M.mem M.pmm (fileHdr M sb i).pages := uexDest_relocatable hload
    obtain ⟨L', -, hinv'⟩ := hinv.alloc hready (fileHdr M sb i).pages
    rw [← hdest] at hinv'
    refine ⟨hinv'.bitmap_eq.trans hinv.bitmap_eq.symm,
      hinv'.bitmapSize_eq.trans hinv.bitmapSize_eq.symm,
      hinv'.maxPages_eq.trans hinv.maxPages_eq.symm, hbounds, fun hnull => ?_, ?_, ?_⟩
    · rw [imageBase, hdest] at hnull
      rw [hdest]
      exact (pmmAlloc_null_unchanged hinit hrun hnull).1
    · intro hne q htakes
      rw [imageBase, hdest] at hne
      rw [Takes, imageBase, hdest] at htakes
      exact (pmmAlloc_block hbounds hne).1 q htakes.2
    · intro hne q hq
      have hsize := hbounds.bitmapSize_lt
      rw [imageBase, hdest] at hne
      rw [Takes, imageBase, hdest, and_iff_right hload]
      exact (pmmAlloc_block hbounds hne).2 q (by omega)
  · exact placed_fixed hbounds hload

/-- A load leaves a bit as it was if the image spares it, and, where the bit has been set for the
block of the program, if the image covers it. -/
theorem UexLoaded.bit_iff {wanted : Bool} {x : UexExit} (h : UexLoaded M sb i wanted x)
    (hplaced : Placed M sb i) (hne : imageBase M sb i ≠ 0) {q : ℕ}
    (hq : q < 8 * M.pmm.bitmapSize) :
    bitmapTest x.machine.mem M.pmm q = bitmapTest M.mem M.pmm q ↔
      Spares M sb i q ∧ (Takes M sb i q → ∃ j, Arrives M sb i j ∧ Over M sb i j q) := by
  have hget (m : Mem) {j : ℕ} (hover : Over M sb i j q) :
      m.get (M.pmm.bitmap + q / 8) = m.get (imageBase M sb i + j) := m.get_congr hover.symm
  by_cases hcovered : ∃ j, Arrives M sb i j ∧ Over M sb i j q
  · have hbit : ∀ j, Arrives M sb i j → Over M sb i j q →
        bitmapTest x.machine.mem M.pmm q = (imageByte M sb i j).getLsbD (q % 8) := by
      intro j harrives hover
      rw [bitmapTest_eq, hget _ hover, (h.get harrives.lt).1 harrives]
    constructor
    · intro hsame
      refine ⟨fun j harrives hover => ?_, fun _ => hcovered⟩
      rw [← hbit j harrives hover, hsame]
    · rintro ⟨hspares, -⟩
      obtain ⟨j, harrives, hover⟩ := hcovered
      rw [hbit j harrives hover, hspares j harrives hover]
  · have hspares : Spares M sb i q := fun j harrives hover =>
      absurd ⟨j, harrives, hover⟩ hcovered
    -- the bit is the one that the allocation has left
    have hkept : bitmapTest x.machine.mem M.pmm q =
        bitmapTest (uexDest M.mem M.pmm (fileHdr M sb i)).1 M.pmm q := by
      have hj := Mem.offset_lt (imageBase M sb i) (M.pmm.bitmap + q / 8)
      have hover : Over M sb i (Mem.offset (imageBase M sb i) (M.pmm.bitmap + q / 8)) q :=
        Mem.mod_add_offset _ _
      rw [bitmapTest_eq, bitmapTest_eq, hget _ hover, hget _ hover,
        (h.get hj).2 fun harrives => hcovered ⟨_, harrives, hover⟩]
    rw [hkept, and_iff_right hspares]
    by_cases htakes : Takes M sb i q
    · have hset := (hplaced.bits hne q hq).mpr (Or.inl htakes)
      rw [hset, (hplaced.taken hne q htakes).2]
      exact iff_of_false (by decide) fun hcovers => hcovered (hcovers htakes)
    · refine iff_of_true ?_ fun hc => absurd hc htakes
      rw [Bool.eq_iff_iff, hplaced.bits hne q hq, or_iff_right htakes]

theorem giveBack_pmm (alloc : UexAlloc) (M : Machine) :
    (giveBack alloc M).pmm.bitmap = M.pmm.bitmap ∧
      (giveBack alloc M).pmm.bitmapSize = M.pmm.bitmapSize := by
  by_cases hbase : alloc.base = 0
  · rw [giveBack, if_neg (not_not.mpr hbase)]
    exact ⟨rfl, rfl⟩
  · rw [giveBack, if_pos hbase, pmmFree, if_neg hbase]
    dsimp only
    split <;> exact ⟨rfl, rfl⟩

theorem bitmapTest_giveBack {alloc : UexAlloc} {q : ℕ} (hmax : M.pmm.maxPages < 2 ^ 20)
    (hq : q < 2 ^ 35) :
    bitmapTest (giveBack alloc M).mem M.pmm q = true ↔
      ¬ (alloc.base ≠ 0 ∧ q ∈ (Block.mk alloc.base alloc.pages).span ∧ q < M.pmm.maxPages) ∧
        bitmapTest M.mem M.pmm q = true := by
  unfold giveBack
  by_cases hbase : alloc.base = 0
  · simp [hbase]
  · rw [if_pos hbase, pmmFree, if_neg hbase]
    change
      bitmapTest (clearPages M.mem M.pmm (alloc.base / pageSize) alloc.pages) M.pmm q = true ↔ _
    rw [bitmapTest_clearPages M.mem M.pmm (by omega) hq, Bool.and_eq_true, Bool.not_eq_true',
      decide_eq_false_iff_not, Block.span, Set.mem_ofPred_eq, and_assoc, and_iff_right hbase]
    rfl

variable {prog : Program} {args : List ℕ} {r : ℤ} {M' : Machine}

theorem execWith_some (h : execWith prog args M sb name = some (r, M')) :
    ∃ x, uexExec M sb name true = some x ∧
      (x.result ≠ errSuccess ∧ M' = x.machine ∨
        x.result = errSuccess ∧ ∃ entry alloc N, x.alloc = some alloc ∧
          prog entry args x.machine = some N ∧ M' = giveBack alloc N) := by
  obtain ⟨x, hx, h⟩ := Option.bind_eq_some_iff.mp h
  refine ⟨x, hx, ?_⟩
  by_cases hok : x.result = 0
  · rw [if_pos hok] at h
    obtain ⟨entry, -, h⟩ := Option.bind_eq_some_iff.mp h
    obtain ⟨alloc, halloc, h⟩ := Option.bind_eq_some_iff.mp h
    obtain ⟨N, hN, h⟩ := Option.bind_eq_some_iff.mp h
    obtain ⟨-, rfl⟩ := Prod.mk.inj (Option.some_inj.mp h)
    exact Or.inr ⟨hok, entry, alloc, N, halloc, hN, rfl⟩
  · rw [if_neg hok] at h
    obtain ⟨-, rfl⟩ := Prod.mk.inj (Option.some_inj.mp h)
    exact Or.inl ⟨hok, rfl⟩

theorem UexLoaded.sameBitmap_iff {wanted : Bool} {x : UexExit} (h : UexLoaded M sb i wanted x)
    (hplaced : Placed M sb i) (hne : imageBase M sb i ≠ 0) :
    SameBitmap M x.machine ↔ ∀ q < 8 * M.pmm.bitmapSize,
      Spares M sb i q ∧ (Takes M sb i q → ∃ j, Arrives M sb i j ∧ Over M sb i j q) := by
  have hbitmap : x.machine.pmm.bitmap = M.pmm.bitmap := by rw [h.pmm_eq, hplaced.bitmap_eq]
  have hbits : ∀ q, bitmapTest x.machine.mem x.machine.pmm q = bitmapTest x.machine.mem M.pmm q :=
    bitmapTest_congr_bitmap hbitmap _
  constructor
  · intro hsame q hq
    rw [← h.bit_iff hplaced hne hq, ← hbits]
    exact hsame.bits q hq
  · intro hall
    refine ⟨hbitmap, by rw [h.pmm_eq, hplaced.bitmapSize_eq], fun q hq => ?_⟩
    rw [hbits, h.bit_iff hplaced hne hq]
    exact hall q hq

theorem UexLoaded.sameBitmap_giveBack_iff {x : UexExit} (h : UexLoaded M sb i true x)
    (hplaced : Placed M sb i) (hne : imageBase M sb i ≠ 0) {alloc : UexAlloc} {N : Machine}
    (halloc : x.alloc = some alloc) (hpmm : N.pmm = x.machine.pmm)
    (hN : SameBitmap x.machine N) :
    SameBitmap M (giveBack alloc N) ↔
      ∀ q < 8 * M.pmm.bitmapSize, ¬ Takes M sb i q → Spares M sb i q := by
  have hmax : N.pmm.maxPages = M.pmm.maxPages := by rw [hpmm, h.pmm_eq, hplaced.maxPages_eq]
  have hbitmap : N.pmm.bitmap = M.pmm.bitmap := by rw [hpmm, h.pmm_eq, hplaced.bitmap_eq]
  have hsize : N.pmm.bitmapSize = M.pmm.bitmapSize := by rw [hpmm, h.pmm_eq, hplaced.bitmapSize_eq]
  have hbounds := hplaced.bounds
  obtain ⟨hbitmap', hsize'⟩ := giveBack_pmm alloc N
  have hcleared : ∀ q, (alloc.base ≠ 0 ∧ q ∈ (Block.mk alloc.base alloc.pages).span ∧
      q < N.pmm.maxPages) ↔ Takes M sb i q := by
    intro q
    obtain rfl := Option.some_inj.mp (halloc.symm.trans (h.alloc_eq.trans (if_pos rfl)))
    rw [hmax, uexAlloc]
    constructor
    · rintro ⟨hbase, hspan, -⟩
      by_cases hload : (fileHdr M sb i).loadAddr = 0#32
      · rw [if_pos hload] at hspan
        exact ⟨hload, hspan⟩
      · rw [if_neg hload] at hbase
        exact absurd rfl hbase
    · intro htakes
      rw [if_pos htakes.1]
      exact ⟨hne, htakes.2, (hplaced.taken hne q htakes).1⟩
  have hbit : ∀ q < 8 * M.pmm.bitmapSize,
      bitmapTest (giveBack alloc N).mem (giveBack alloc N).pmm q = true ↔
        ¬ Takes M sb i q ∧ bitmapTest x.machine.mem M.pmm q = true := by
    intro q hq
    have hlt : M.pmm.bitmapSize < 2 ^ 20 := hbounds.bitmapSize_lt
    have hmem : bitmapTest N.mem N.pmm q = bitmapTest x.machine.mem x.machine.pmm q := by
      apply hN.bits
      rw [← hpmm, hsize]
      exact hq
    rw [bitmapTest_congr_bitmap hbitmap', bitmapTest_giveBack (hmax ▸ hbounds.maxPages_lt)
      (by omega), hcleared, hmem, ← hpmm, bitmapTest_congr_bitmap hbitmap]
  have hsame : ∀ q < 8 * M.pmm.bitmapSize,
      (bitmapTest (giveBack alloc N).mem (giveBack alloc N).pmm q = bitmapTest M.mem M.pmm q ↔
        (¬ Takes M sb i q → Spares M sb i q)) := by
    intro q hq
    rw [Bool.eq_iff_iff, hbit q hq]
    by_cases htakes : Takes M sb i q
    · have hclear : ¬ bitmapTest M.mem M.pmm q = true := by
        rw [(hplaced.taken hne q htakes).2]
        decide
      exact iff_of_true (iff_of_false (fun hset => hset.1 htakes) hclear)
        fun hnot => absurd htakes hnot
    · have hloaded := h.bit_iff hplaced hne hq
      rw [and_iff_left (fun hc : Takes M sb i q => absurd hc htakes), Bool.eq_iff_iff] at hloaded
      rw [and_iff_right htakes, hloaded, imp_iff_right htakes]
  constructor
  · intro hsaved q hq
    exact (hsame q hq).mp (hsaved.bits q hq)
  · intro hall
    exact ⟨hbitmap'.trans hbitmap, hsize'.trans hsize, fun q hq => (hsame q hq).mpr (hall q hq)⟩

theorem sameBitmap_of_stopped (hplaced : Placed M sb i) {x : UexExit}
    (h : UexStopped M sb i x) : SameBitmap M x.machine := by
  rcases h with ⟨hmem, hpmm⟩ | ⟨hnull, hmem, hpmm⟩
  · refine ⟨by rw [hpmm], by rw [hpmm], fun q _ => ?_⟩
    rw [hmem, hpmm]
  · refine ⟨by rw [hpmm, hplaced.bitmap_eq], by rw [hpmm, hplaced.bitmapSize_eq], fun q _ => ?_⟩
    rw [hmem, hplaced.null hnull, hpmm]
    exact bitmapTest_congr_bitmap hplaced.bitmap_eq _ _

theorem uexExec_not_found {wanted : Bool} (hfind : kfsFind M.mem sb name = some none) :
    uexExec M sb name wanted = some ⟨errNotFound, M, none, none⟩ := by
  rw [uexExec, hfind, Option.bind_eq_bind, Option.bind_some]

theorem sameBitmap_of_failed (hplaced : ∀ i, Placed M sb i)
    (hkeeps : ∀ i, kfsFind M.mem sb name = some (some i) → UexReady M sb i →
      RestReturns M (fileHdr M sb i) → KeepsBitmap M sb i)
    {wanted : Bool} {x : UexExit} (h : uexExec M sb name wanted = some x)
    (hbad : x.result ≠ errSuccess) : SameBitmap M x.machine := by
  obtain ⟨found, hfind, -⟩ := Option.bind_eq_some_iff.mp h
  cases found with
  | none =>
      obtain rfl := Option.some_inj.mp ((uexExec_not_found hfind).symm.trans h)
      exact SameBitmap.refl M
  | some i =>
      by_cases hready : UexReady M sb i
      · have hloaded := uexExec_loaded hfind hready h
        have hreturns := (uexExec_isSome_iff _ hfind hready).mp (Option.isSome_of_mem h)
        have hread : ¬ RestRead M (fileHdr M sb i) := hloaded.result_iff.not.mp hbad
        obtain ⟨hspares, hback⟩ := hkeeps i hfind hready hreturns
        rw [hloaded.sameBitmap_iff (hplaced i) hready.memory]
        intro q hq
        exact ⟨hspares q hq fun hc => hread hc.1, hback.resolve_left hread q⟩
      · exact sameBitmap_of_stopped (hplaced i) (uexExec_not_ready hfind hready h).2

theorem sameBitmap_of_execWith (hplaced : ∀ i, Placed M sb i)
    (hkeeps : ∀ i, kfsFind M.mem sb name = some (some i) → UexReady M sb i →
      RestReturns M (fileHdr M sb i) → KeepsBitmap M sb i)
    (hprog : NoAllocation prog) (h : execWith prog args M sb name = some (r, M')) :
    SameBitmap M M' := by
  obtain ⟨x, hx, ⟨hbad, rfl⟩ | ⟨hok, entry, alloc, N, halloc, hN, rfl⟩⟩ := execWith_some h
  · exact sameBitmap_of_failed hplaced hkeeps hx hbad
  · obtain ⟨found, hfind, -⟩ := Option.bind_eq_some_iff.mp hx
    cases found with
    | none =>
        obtain rfl := Option.some_inj.mp ((uexExec_not_found hfind).symm.trans hx)
        exact absurd hok (by decide : errNotFound ≠ errSuccess)
    | some i =>
        by_cases hready : UexReady M sb i
        · have hloaded := uexExec_loaded hfind hready hx
          have hreturns := (uexExec_isSome_iff _ hfind hready).mp (Option.isSome_of_mem hx)
          have hread := hloaded.result_iff.mp hok
          obtain ⟨hpmm, hsame⟩ := hprog entry args _ _ hN
          rw [hloaded.sameBitmap_giveBack_iff (hplaced i) hready.memory halloc hpmm hsame]
          intro q hq hnot
          exact (hkeeps i hfind hready hreturns).spares q hq fun hc => hnot hc.2
        · exact absurd hok (uexExec_not_ready hfind hready hx).1

/-- No page is lost in a state of a run if and only if every program that can be loaded, and whose
transfer returns, keeps the bitmap. -/
theorem exec_noLeak_iff (hinit : pmmInit m₀ Pmm.boot = (m₁, p₁, none))
    (hrun : PmmRun m₁ p₁ M.mem M.pmm live) :
    NoLeak M sb name ↔ ∀ i, kfsFind M.mem sb name = some (some i) → UexReady M sb i →
      RestReturns M (fileHdr M sb i) → KeepsBitmap M sb i := by
  have hplaced : ∀ i, Placed M sb i := fun i => placed_of_reachable hinit hrun
  constructor
  · intro hleak i hfind hready hreturns
    obtain ⟨x, hx⟩ := Option.isSome_iff_exists.mp
      ((uexExec_isSome_iff true hfind hready).mpr hreturns)
    have hloaded := uexExec_loaded hfind hready hx
    by_cases hread : RestRead M (fileHdr M sb i)
    · -- a program that returns at once
      have hnothing : NoAllocation fun _ _ N => some N := by
        intro entry args N N' hN
        obtain rfl := Option.some_inj.mp hN
        exact ⟨rfl, SameBitmap.refl N⟩
      have halloc := hloaded.alloc_eq.trans (if_pos rfl)
      have hok : x.result = 0 := hloaded.result_iff.mpr hread
      have hexec : exec (fun _ _ N => some N) M sb name =
          some (errSuccess, giveBack (uexAlloc (fileHdr M sb i) (imageBase M sb i)) x.machine) := by
        rw [exec, execWith, hx, Option.bind_eq_bind, Option.bind_some, if_pos hok,
          hloaded.entry_eq hread, halloc]
        rfl
      have hsame := (hloaded.sameBitmap_giveBack_iff (hplaced i) hready.memory halloc rfl
        (SameBitmap.refl _)).mp (hleak.exec _ hnothing _ _ hexec)
      exact ⟨fun q hq hnot => hsame q hq fun htakes => hnot ⟨hread, htakes⟩, Or.inl hread⟩
    · have hsame := (hloaded.sameBitmap_iff (hplaced i) hready.memory).mp
        (hleak.load true x hx (hloaded.result_iff.not.mpr hread))
      refine ⟨fun q hq _ => (hsame q hq).1, Or.inr fun q htakes => ?_⟩
      have hlt := ((hplaced i).taken hready.memory q htakes).1
      have hle := (hplaced i).bounds.maxPages_le
      exact (hsame q (by omega)).2 htakes
  · intro hkeeps
    refine ⟨fun wanted x hx hbad => ?_, fun prog hprog r M' h => ?_,
      fun prog hprog argv r M' h => ?_⟩
    · exact sameBitmap_of_failed hplaced hkeeps hx hbad
    · exact sameBitmap_of_execWith hplaced hkeeps hprog h
    · exact sameBitmap_of_execWith hplaced hkeeps hprog h

end

theorem smallMachine_run :
    PmmRun oneRegionInit.1 oneRegionInit.2.1 smallMachine.mem smallMachine.pmm [] := by
  have hmount : programMachine oneRegionInit.1 oneRegionInit.2.1 smallProgram =
      some smallMachine := (Option.some_get _).symm
  have hp : oneRegionInit.2.1 = ⟨0x100000, 33, 0x105, 0⟩ := by decide +kernel
  refine programMachine_run hmount (by decide +kernel) ?_ ?_
  · rw [hp]
  · rw [hp]
    decide

theorem smallProgram_keepsBitmap : KeepsBitmap smallMachine demoSuperblock 0 := by
  have hread : RestRead smallMachine (fileHdr smallMachine demoSuperblock 0) := by decide +kernel
  have hpmm : smallMachine.pmm = ⟨0x100000, 33, 0x105, 0⟩ := by decide +kernel
  have hbase : imageBase smallMachine demoSuperblock 0 = 0x101000 := by decide +kernel
  refine ⟨fun q hq _ j harrives hover => ?_, Or.inl hread⟩
  have hlt : j < 0x1000 := by
    rw [arrives_iff_fills hread, smallProgram_hdr] at harrives
    exact harrives.lt_page rfl rfl
  rw [Over, hbase, hpmm] at hover
  rw [hpmm] at hq
  change q < 8 * 33 at hq
  change (0x101000 + j) % 2 ^ 32 = (0x100000 + q / 8) % 2 ^ 32 at hover
  omega

theorem smallProgram_noLeak : NoLeak smallMachine demoSuperblock programName := by
  apply (exec_noLeak_iff oneRegion_init smallMachine_run).mpr
  intro i hfind _ _
  obtain rfl : 0 = i := by simpa using smallProgram_find.symm.trans hfind
  exact smallProgram_keepsBitmap

/-- The same machine with a disk that cannot read the second sector of the file. -/
def badSectorMachine : Machine :=
  { smallMachine with
    disk := { smallMachine.disk with
      reply := fun n =>
        if n = smallMachine.disk.serial + 3 then ⟨0, 0, true, true, false⟩
        else smallMachine.disk.reply n } }

/-- The load fails, and the page it has got for the program stays marked. -/
theorem badSector_leaks :
    PmmRun oneRegionInit.1 oneRegionInit.2.1 badSectorMachine.mem badSectorMachine.pmm [] ∧
      (∃ x, uexExec badSectorMachine demoSuperblock programName true = some x ∧
        x.result = errIo ∧ bitmapTest badSectorMachine.mem badSectorMachine.pmm 0x101 = false ∧
        bitmapTest x.machine.mem x.machine.pmm 0x101 = true) ∧
      ¬ NoLeak badSectorMachine demoSuperblock programName := by
  have hreach : PmmRun oneRegionInit.1 oneRegionInit.2.1 badSectorMachine.mem
      badSectorMachine.pmm [] := by
    unfold badSectorMachine
    dsimp only
    exact smallMachine_run
  have hrun : (uexExec badSectorMachine demoSuperblock programName true).map (fun x =>
      (x.result, bitmapTest x.machine.mem x.machine.pmm 0x101)) = some (errIo, true) := by
    decide +kernel
  have hclear : bitmapTest badSectorMachine.mem badSectorMachine.pmm 0x101 = false := by
    decide +kernel
  have hsize : 0x101 < 8 * badSectorMachine.pmm.bitmapSize := by decide +kernel
  obtain ⟨x, hx, hout⟩ := Option.map_eq_some_iff.mp hrun
  simp only [Prod.mk.injEq] at hout
  obtain ⟨hresult, hset⟩ := hout
  refine ⟨hreach, ⟨x, hx, hresult, hclear, hset⟩, fun hleak => ?_⟩
  have hsame := hleak.load true x hx (by rw [hresult]; decide)
  have hbit := hsame.bits 0x101 hsize
  rw [hset, hclear] at hbit
  cases hbit

end System44
