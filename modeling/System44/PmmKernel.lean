import System44.PmmFreeMap
import System44.PmmLater

/-!
# The allocator and the memory of the kernel itself

The boot sector loads 47 sectors at `0x1000:0x0000`, and the kernel starts with its stack pointer at
`0x90000`. Nothing in `pmm_init` reserves these pages, and first fit reaches every free page sooner
or later, so the kernel is spared exactly when the firmware's table already keeps its pages out.
-/

namespace System44

/-- `loadk`: `es:bx` is `0x1000:0x0000`. -/
def kernelBase : ℕ := 0x1000 * 16

/-- `loadk`: the sector count in `dh`. -/
def kernelSectors : ℕ := 47

def sectorSize : ℕ := 512

/-- `init_pm` and `_start`: the stack pointer the kernel starts with. -/
def kernelStackTop : ℕ := 0x90000

/-- The image of the kernel, and the page at the top of its boot stack. -/
def InKernel (a : ℕ) : Prop :=
  kernelBase ≤ a ∧ a < kernelBase + kernelSectors * sectorSize ∨
    kernelStackTop - pageSize ≤ a ∧ a < kernelStackTop

def KernelPage (page : ℕ) : Prop := ∃ a, InKernel a ∧ a / pageSize = page

theorem kernelPage_iff {q : ℕ} : KernelPage q ↔ 0x10 ≤ q ∧ q ≤ 0x15 ∨ q = 0x8F := by
  constructor
  · rintro ⟨a, ha, rfl⟩
    unfold InKernel kernelBase kernelSectors sectorSize kernelStackTop pageSize at ha
    unfold pageSize
    omega
  · intro hq
    refine ⟨q * pageSize, ?_, Nat.mul_div_cancel q (by decide)⟩
    unfold InKernel kernelBase kernelSectors sectorSize kernelStackTop pageSize
    omega

section

variable {m₀ m₁ m : Mem} {p₁ p : Pmm} {live : List Block}

theorem alloc_span_unreserved (hinit : pmmInit m₀ Pmm.boot = (m₁, p₁, none))
    (hrun : PmmRun m₁ p₁ m p live) {n a : ℕ} (hptr : (pmmAlloc m p n).2.2 ≠ 0)
    (hlo : (pmmAlloc m p n).2.2 ≤ a) (hhi : a < (pmmAlloc m p n).2.2 + n * pageSize) :
    a / pageSize < p₁.maxPages ∧ bitmapTest m₁ p₁ (a / pageSize) = false := by
  obtain ⟨L, hlive, hinv⟩ := pmmRun_refines (pmmInit_ready hinit) (hrun.alloc n)
  rw [granted, if_neg hptr] at hlive
  have hmem : (⟨(pmmAlloc m p n).2.2, n⟩ : Block) ∈ L.live := hlive ▸ List.mem_cons_self
  obtain ⟨_, hle, hptr_eq⟩ := hinv.blocks _ hmem
  have hspan : a / pageSize ∈ Block.span ⟨(pmmAlloc m p n).2.2, n⟩ := by
    simp only [Block.span, Block.page, Set.mem_ofPred_eq] at hptr_eq ⊢
    unfold pageSize at *
    omega
  have hlt : a / pageSize < p₁.maxPages := by
    rw [← hinv.maxPages_eq]
    exact hspan.2.trans_le hle
  refine ⟨hlt, Bool.eq_false_of_not_eq_true fun hset => ?_⟩
  have hres : a / pageSize ∈ reservedPages m₁ p₁ := ⟨hlt, hset⟩
  exact Set.disjoint_left.mp (L.unreserved _ hmem) hspan (hinv.reserved_eq ▸ hres)

/-- No run ever hands out memory of the kernel exactly when every page of the kernel that a usable
entry claims lies past the end of the map or under the bitmap. -/
theorem pmmAlloc_spares_kernel_iff (hinit : pmmInit m₀ Pmm.boot = (m₁, p₁, none)) :
    (∀ m p live, PmmRun m₁ p₁ m p live → ∀ n, (pmmAlloc m p n).2.2 ≠ 0 →
      ∀ a, InKernel a →
        ¬ ((pmmAlloc m p n).2.2 ≤ a ∧ a < (pmmAlloc m p n).2.2 + n * pageSize)) ↔
      ∀ e ∈ markedEntries m₀ (plan m₀), e.Usable → ∀ q, KernelPage q → e.Claims q →
        (plan m₀).maxPages ≤ q ∨ BitmapPage (plan m₀) q := by
  have hle := pmmInit_maxPages_le hinit
  constructor
  · intro hspared e he hu q hkernel hclaim
    by_contra hbad
    obtain ⟨hlt, hbitmap⟩ := not_or.mp hbad
    rw [Nat.not_le] at hlt
    have hne : q ≠ 0 := by
      have := kernelPage_iff.mp hkernel
      omega
    have hgrant : Grantable (plan m₀) q := ⟨hne, hlt, hbitmap⟩
    have hclear := (pmmInit_free_iff hinit (hgrant.lt_bits hinit)).mpr
      ⟨hgrant, e, he, hu, hclaim⟩
    rw [plan_eq hinit] at hlt
    obtain ⟨m, p, live, hrun, hptr⟩ :=
      exists_pmmAlloc PmmRun.init (pmmInit_ready hinit).toPmmBounds hlt hclear
    obtain ⟨a, ha, rfl⟩ := hkernel
    refine hspared m p live hrun 1 ?_ a ha ?_
    · rw [hptr]
      exact Nat.mul_ne_zero hne (by decide)
    · rw [hptr]
      unfold pageSize
      omega
  · intro hcond m p live hrun n hptr a ha hin
    obtain ⟨hlt, hclear⟩ := alloc_span_unreserved hinit hrun hptr hin.1 hin.2
    obtain ⟨hgrant, e, he, hu, hclaim⟩ := (pmmInit_free_iff hinit (by omega)).mp hclear
    rcases hcond e he hu _ ⟨a, ha, rfl⟩ hclaim with hend | hbitmap
    · exact absurd hgrant.lt_maxPages (Nat.not_lt.mpr hend)
    · exact hgrant.not_bitmap hbitmap

end

theorem oneRegion_spares_kernel :
    pmmInit (tableMemory oneRegion) Pmm.boot = (oneRegionInit.1, oneRegionInit.2.1, none) ∧
    ∀ m p live, PmmRun oneRegionInit.1 oneRegionInit.2.1 m p live →
      ∀ n, (pmmAlloc m p n).2.2 ≠ 0 → ∀ a, InKernel a →
        ¬ ((pmmAlloc m p n).2.2 ≤ a ∧ a < (pmmAlloc m p n).2.2 + n * pageSize) := by
  refine ⟨oneRegion_init, (pmmAlloc_spares_kernel_iff oneRegion_init).mpr ?_⟩
  rw [plan_eq oneRegion_init, markedEntries_eq_readMap oneRegion_init oneRegion_offTable,
    readMap_tableMemory (by decide)]
  intro e he _ q hkernel hclaim
  have hstart : ∀ f ∈ oneRegion, f.startPage = 0x100 := by decide
  have hlow := kernelPage_iff.mp hkernel
  rw [E820Entry.Claims, hstart e he] at hclaim
  omega

def lowRegion : List E820Entry :=
  [⟨0#32, 0#32, 0x9F000#32, 0#32, 1#32⟩, ⟨0x100000#32, 0#32, 0x5000#32, 0#32, 1#32⟩]

def lowRegionInit : Mem × Pmm × Option PmmError := pmmInit (tableMemory lowRegion) Pmm.boot

/-- The first request for sixteen pages gets `[0x1000, 0x11000)`, over the start of the image. -/
theorem lowRegion_hands_out_kernel :
    pmmInit (tableMemory lowRegion) Pmm.boot = (lowRegionInit.1, lowRegionInit.2.1, none) ∧
    PmmRun lowRegionInit.1 lowRegionInit.2.1 lowRegionInit.1 lowRegionInit.2.1 [] ∧
    (pmmAlloc lowRegionInit.1 lowRegionInit.2.1 16).2.2 = 0x1000 ∧
    InKernel 0x10000 ∧ 0x1000 ≤ 0x10000 ∧ 0x10000 < 0x1000 + 16 * pageSize := by
  have hnone : lowRegionInit.2.2 = none := by decide +kernel
  refine ⟨?_, PmmRun.init, by decide +kernel, Or.inl (by decide), by decide, by decide⟩
  rw [← hnone]
  rfl

end System44
