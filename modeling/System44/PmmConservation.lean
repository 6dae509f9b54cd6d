import System44.PmmRun

/-!
# Conservation and completeness of page allocation

On an aligned map no page is ever lost or given twice. A failing allocation does not mean that the
pages are not there, though: the first pass starts at the hint and the second one stops at it, so a
run of clear pages that lies across the hint is seen by neither. A block that has just been freed is
never such a run, because freeing it moves the hint down to its first page.
-/

namespace System44

def E820Entry.Covers (e : E820Entry) (a : ℕ) : Prop := e.base ≤ a ∧ a < e.base + e.length

/-- Usable entries are whole pages of 32-bit addresses, and no two of them overlap. -/
structure AlignedMap (es : List E820Entry) : Prop where
  base_aligned : ∀ e ∈ es, e.Usable → e.baseLow.toNat % pageSize = 0
  length_aligned : ∀ e ∈ es, e.Usable → e.lengthLow.toNat % pageSize = 0
  high_zero : ∀ e ∈ es, e.Usable → e.baseHigh = 0#32 ∧ e.lengthHigh = 0#32
  no_wrap : ∀ e ∈ es, e.Usable → e.baseLow.toNat + e.lengthLow.toNat < 2 ^ 32
  apart : es.Pairwise fun e f => e.Usable → f.Usable → ∀ a, ¬ (e.Covers a ∧ f.Covers a)

/-- Some byte of the bitmap lies in the page. -/
def HoldsBitmap (p : Pmm) (page : ℕ) : Prop :=
  ∃ a < 2 ^ 32, InBitmap p a ∧ a / pageSize = page

def ClearRun (m : Mem) (p : Pmm) (a n : ℕ) : Prop :=
  a + n ≤ p.maxPages ∧ ∀ j < n, bitmapTest m p (a + j) = false

theorem clearRun_iff {m : Mem} {p : Pmm} {a n : ℕ} :
    ClearRun m p a n ↔ a + n ≤ p.maxPages ∧ FirstFit.IsRun (clearBit m p) a n := by
  simp only [ClearRun, FirstFit.IsRun, clearBit_eq_true]

section

variable {m₀ m₁ m : Mem} {p₁ p : Pmm} {live : List Block}

theorem bitmapPage_of_holdsBitmap (hmap : AlignedMap (readMap m₀))
    (hinit : pmmInit m₀ Pmm.boot = (m₁, p₁, none)) {q : ℕ} (hq : HoldsBitmap p₁ q) :
    BitmapPage p₁ q := by
  obtain ⟨e, hfind, hplace, _⟩ := pmmInit_success hinit
  obtain ⟨hmem, husable, hsize, _⟩ := findBitmap_spec hfind
  have halign := hmap.base_aligned e hmem husable
  have hwrap := hmap.no_wrap e hmem husable
  have hbitmap : p₁.bitmap = e.baseLow.toNat := by rw [hplace, placeBitmap_bitmap]
  have hstart : bitmapStartPage p₁ = e.baseLow.toNat / pageSize := by
    rw [hplace, bitmapStartPage_placeBitmap]
  obtain ⟨a, ha, hin, rfl⟩ := hq
  rw [InBitmap, hbitmap, Mem.offset] at hin
  rw [BitmapPage, hstart, bitmapPageCount]
  unfold pageSize at *
  split <;> omega

theorem reserved_of_bitmapPage (hinit : pmmInit m₀ Pmm.boot = (m₁, p₁, none)) {q : ℕ}
    (hlt : q < p₁.maxPages) (hq : BitmapPage p₁ q) : q ∈ reservedPages m₁ p₁ := by
  refine ⟨hlt, ?_⟩
  by_contra hclear
  have hle := pmmInit_maxPages_le hinit
  exact ((pmmInit_clear_iff hinit (by omega)).mp (Bool.eq_false_of_not_eq_true hclear)).2.1 hq

theorem pmmAlloc_eq_null_iff (hinit : pmmInit m₀ Pmm.boot = (m₁, p₁, none))
    (hrun : PmmRun m₁ p₁ m p live) {n : ℕ} (hn : 0 < n) :
    (pmmAlloc m p n).2.2 = 0 ↔
      ∀ a, OnOneSide p a n → ¬ FirstFit.IsRun (clearBit m p) a n := by
  have hready := pmmInit_ready hinit
  obtain ⟨L, _, hinv⟩ := pmmRun_refines hready hrun
  rcases pmmAlloc_take_or_null m p hn with ⟨a, heq, hside, hfree⟩ | ⟨heq, hnone⟩
  · have hle := hside.le_maxPages hinv.hint_le
    have hmax := (hinv.bounds hready).maxPages_lt
    have hone := hinv.one_le_of_isRun hready hn hle hfree
    rw [heq, takePages_ptr m p (by omega)]
    constructor
    · intro hzero
      exact absurd hzero (Nat.mul_ne_zero (by omega) (by decide))
    · intro hnone
      exact absurd hfree (hnone a hside)
  · rw [heq]
    exact iff_of_true rfl hnone

theorem pmmAlloc_null_unchanged (hinit : pmmInit m₀ Pmm.boot = (m₁, p₁, none))
    (hrun : PmmRun m₁ p₁ m p live) {n : ℕ} (hnull : (pmmAlloc m p n).2.2 = 0) :
    (pmmAlloc m p n).1 = m ∧ (pmmAlloc m p n).2.1.bitmap = p.bitmap := by
  rcases Nat.eq_zero_or_pos n with rfl | hn
  · exact ⟨rfl, rfl⟩
  · have hnone := (pmmAlloc_eq_null_iff hinit hrun hn).mp hnull
    rcases pmmAlloc_take_or_null m p hn with ⟨a, _, hside, hfree⟩ | ⟨heq, _⟩
    · exact absurd hfree (hnone a hside)
    · rw [heq]
      exact ⟨rfl, rfl⟩

end

/-- Five pages of memory, the first of which takes the bitmap. -/
def oneRegion : List E820Entry := [⟨0x100000#32, 0#32, 0x5000#32, 0#32, 1#32⟩]

theorem oneRegion_aligned : AlignedMap (readMap (tableMemory oneRegion)) := by
  rw [readMap_tableMemory (by decide)]
  refine ⟨by decide, by decide, by decide, by decide, ?_⟩
  exact List.pairwise_singleton _ _

def oneRegionInit : Mem × Pmm × Option PmmError := pmmInit (tableMemory oneRegion) Pmm.boot

theorem oneRegion_init : pmmInit (tableMemory oneRegion) Pmm.boot =
    (oneRegionInit.1, oneRegionInit.2.1, none) := by
  have hnone : oneRegionInit.2.2 = none := by decide +kernel
  rw [← hnone]
  rfl

/-- One page is handed out twice, with a free in between, then two pages at once; the hint now
stands above a clear page, and freeing the page under it makes a clear pair across the hint. -/
def acrossHint : Mem × Pmm :=
  let s₁ := pmmAlloc oneRegionInit.1 oneRegionInit.2.1 1
  let s₂ := pmmAlloc s₁.1 s₁.2.1 1
  let s₃ := pmmFree s₂.1 s₂.2.1 0x101000 1
  let s₄ := pmmAlloc s₃.1 s₃.2 2
  pmmFree s₄.1 s₄.2.1 0x102000 1

theorem acrossHint_run : PmmRun oneRegionInit.1 oneRegionInit.2.1 acrossHint.1 acrossHint.2
    [⟨0x103000, 2⟩] := by
  have h₀ : PmmRun oneRegionInit.1 oneRegionInit.2.1 _ _ [] := PmmRun.init
  have h₁ := h₀.alloc 1
  rw [show granted _ 1 [] = [⟨0x101000, 1⟩] by decide +kernel] at h₁
  have h₂ := h₁.alloc 1
  rw [show granted _ 1 _ = [⟨0x102000, 1⟩, ⟨0x101000, 1⟩] by decide +kernel] at h₂
  have h₃ := h₂.free (b := ⟨0x101000, 1⟩) (by decide)
  rw [show List.erase _ _ = [⟨0x102000, 1⟩] by decide] at h₃
  have h₄ := h₃.alloc 2
  rw [show granted _ 2 _ = [⟨0x103000, 2⟩, ⟨0x102000, 1⟩] by decide +kernel] at h₄
  have h₅ := h₄.free (b := ⟨0x102000, 1⟩) (by decide)
  rw [show List.erase _ _ = [⟨0x103000, 2⟩] by decide] at h₅
  exact h₅

section

variable {m₀ m₁ m : Mem} {p₁ p : Pmm} {live : List Block}

/-- Over every run: live blocks are disjoint ranges inside `[1, maxPages)` off the bitmap, a bit is
set exactly for reserved and for owned pages, and a null result changes no bit. -/
theorem pmmRun_conserves_pages (hmap : AlignedMap (readMap m₀))
    (hinit : pmmInit m₀ Pmm.boot = (m₁, p₁, none)) (hrun : PmmRun m₁ p₁ m p live) :
    p.maxPages = p₁.maxPages ∧
    live.Pairwise (fun b c => Disjoint b.span c.span) ∧
    (∀ b ∈ live, b.ptr = b.page * pageSize ∧ 1 ≤ b.page ∧ b.page + b.pages ≤ p.maxPages ∧
      0 ∉ b.span ∧ ∀ q ∈ b.span, ¬ HoldsBitmap p₁ q) ∧
    (∀ q < p.maxPages, bitmapTest m p q = true ↔
      bitmapTest m₁ p₁ q = true ∨ ∃ b ∈ live, q ∈ b.span) ∧
    (∀ n, (pmmAlloc m p n).2.2 = 0 → ∀ q,
      bitmapTest (pmmAlloc m p n).1 (pmmAlloc m p n).2.1 q = bitmapTest m p q) := by
  obtain ⟨L, rfl, hinv⟩ := pmmRun_refines (pmmInit_ready hinit) hrun
  refine ⟨hinv.maxPages_eq, L.apart, ?_, ?_, ?_⟩
  · intro b hb
    obtain ⟨hone, hle, hptr⟩ := hinv.blocks b hb
    refine ⟨hptr, hone, hle, fun hzero => by have := hzero.1; omega, ?_⟩
    intro q hq hbitmap
    have hlt : q < p₁.maxPages := by
      rw [← hinv.maxPages_eq]
      exact hq.2.trans_le hle
    have hres := reserved_of_bitmapPage hinit hlt (bitmapPage_of_holdsBitmap hmap hinit hbitmap)
    exact Set.disjoint_left.mp (L.unreserved b hb) hq (hinv.reserved_eq ▸ hres)
  · intro q hq
    rw [hinv.bits q hq, Ledger.mem_owned, hinv.reserved_eq]
    have hq₁ : q < p₁.maxPages := hinv.maxPages_eq ▸ hq
    simp only [reservedPages, Set.mem_ofPred_eq, hq₁, true_and]
  · intro n hnull q
    obtain ⟨hmem, hbitmap⟩ := pmmAlloc_null_unchanged hinit hrun hnull
    rw [hmem, bitmapTest_congr_bitmap hbitmap]

theorem acrossHint_conserves_pages :
    PmmRun oneRegionInit.1 oneRegionInit.2.1 acrossHint.1 acrossHint.2 [⟨0x103000, 2⟩] ∧
    ∀ q < acrossHint.2.maxPages,
      bitmapTest acrossHint.1 acrossHint.2 q = true ↔
        bitmapTest oneRegionInit.1 oneRegionInit.2.1 q = true ∨
          ∃ b ∈ [(⟨0x103000, 2⟩ : Block)], q ∈ b.span :=
  ⟨acrossHint_run,
    (pmmRun_conserves_pages oneRegion_aligned oneRegion_init acrossHint_run).2.2.2.1⟩

/-- An allocation is complete exactly when a run of clear pages across the hint is never the only
kind there is. -/
theorem pmmAlloc_complete_iff (hinit : pmmInit m₀ Pmm.boot = (m₁, p₁, none))
    (hrun : PmmRun m₁ p₁ m p live) {n : ℕ} (hn : 1 ≤ n) :
    ((pmmAlloc m p n).2.2 = 0 → ¬ ∃ a, ClearRun m p a n) ↔
      ∀ a, a < p.lastFreePage → p.lastFreePage < a + n → ClearRun m p a n →
        ∃ b, ClearRun m p b n ∧ (b + n ≤ p.lastFreePage ∨ p.lastFreePage ≤ b) := by
  obtain ⟨L, _, hinv⟩ := pmmRun_refines (pmmInit_ready hinit) hrun
  rw [pmmAlloc_eq_null_iff hinit hrun hn]
  constructor
  · intro hcomplete a _ _ hclear
    by_contra hnone
    apply hcomplete _ ⟨a, hclear⟩
    intro b hside hfree
    apply hnone
    refine ⟨b, clearRun_iff.mpr ⟨hside.le_maxPages hinv.hint_le, hfree⟩, ?_⟩
    rcases hside with ⟨hlo, _⟩ | hhi
    · exact Or.inr hlo
    · exact Or.inl hhi
  · rintro hcond hnone ⟨a, hclear⟩
    have honeside : ∀ b, ClearRun m p b n → ¬ (b + n ≤ p.lastFreePage ∨ p.lastFreePage ≤ b) := by
      rintro b hb (hhi | hlo)
      · exact hnone b (Or.inr hhi) (clearRun_iff.mp hb).2
      · exact hnone b (Or.inl ⟨hlo, (clearRun_iff.mp hb).1⟩) (clearRun_iff.mp hb).2
    have hacross := honeside a hclear
    obtain ⟨b, hb, hbside⟩ := hcond a (by omega) (by omega) hclear
    exact honeside b hb hbside

theorem acrossHint_one_page_complete :
    PmmRun oneRegionInit.1 oneRegionInit.2.1 acrossHint.1 acrossHint.2 [⟨0x103000, 2⟩] ∧
    ((pmmAlloc acrossHint.1 acrossHint.2 1).2.2 = 0 →
      ¬ ∃ a, ClearRun acrossHint.1 acrossHint.2 a 1) := by
  refine ⟨acrossHint_run, (pmmAlloc_complete_iff oneRegion_init acrossHint_run Nat.one_pos).mpr ?_⟩
  intro a hlo hhi _
  omega

/-- Pages `0x101` and `0x102` are clear, yet a request for two pages is refused. -/
theorem acrossHint_two_pages_refused :
    pmmInit (tableMemory oneRegion) Pmm.boot = (oneRegionInit.1, oneRegionInit.2.1, none) ∧
    PmmRun oneRegionInit.1 oneRegionInit.2.1 acrossHint.1 acrossHint.2 [⟨0x103000, 2⟩] ∧
    (pmmAlloc acrossHint.1 acrossHint.2 2).2.2 = 0 ∧
    ClearRun acrossHint.1 acrossHint.2 0x101 2 := by
  refine ⟨oneRegion_init, acrossHint_run, by decide +kernel, by decide +kernel, ?_⟩
  have hbits : ∀ j : Fin 2, bitmapTest acrossHint.1 acrossHint.2 (0x101 + j) = false := by
    decide +kernel
  intro j hj
  exact hbits ⟨j, hj⟩

end

section

variable {m₀ m₁ m : Mem} {p₁ p : Pmm} {live : List Block} {b : Block}

theorem lastFreePage_pmmFree_le (m : Mem) (p : Pmm) (hptr : b.ptr ≠ 0) :
    (pmmFree m p b.ptr b.pages).2.lastFreePage ≤ b.page := by
  rw [pmmFree, if_neg hptr]
  change (if b.page < p.lastFreePage then { p with lastFreePage := b.page } else p).lastFreePage ≤
    b.page
  split
  · exact Nat.le_refl b.page
  · omega

theorem pmmFree_clear (hready : PmmReady m₁ p₁) {L : Ledger Block.span}
    (hinv : PmmInv m₁ p₁ m p L) (hb : b ∈ L.live) {q : ℕ} (hq : q ∈ b.span) :
    bitmapTest (pmmFree m p b.ptr b.pages).1 (pmmFree m p b.ptr b.pages).2 q = false := by
  have hfreed := hinv.free hready hb
  have hlt : q < (pmmFree m p b.ptr b.pages).2.maxPages := by
    rw [hfreed.maxPages_eq, ← hinv.maxPages_eq]
    exact hq.2.trans_le (hinv.blocks b hb).le_maxPages
  rw [hfreed.bit_eq_false_iff hlt, Ledger.mem_owned_revoke hb]
  exact fun howned => howned.1 hq

/-- Right after a live block has been freed, every request for at most as many pages is granted. -/
theorem pmmAlloc_after_pmmFree (hinit : pmmInit m₀ Pmm.boot = (m₁, p₁, none))
    (hrun : PmmRun m₁ p₁ m p live) (hb : b ∈ live) {n : ℕ} (hn : 1 ≤ n) (hle : n ≤ b.pages) :
    (pmmAlloc (pmmFree m p b.ptr b.pages).1 (pmmFree m p b.ptr b.pages).2 n).2.2 ≠ 0 := by
  have hready := pmmInit_ready hinit
  obtain ⟨L, rfl, hinv⟩ := pmmRun_refines hready hrun
  obtain ⟨hone, hend, hptr⟩ := hinv.blocks b hb
  have hne : b.ptr ≠ 0 := by
    rw [hptr]
    exact Nat.mul_ne_zero (by omega) (by decide)
  have hmax : (pmmFree m p b.ptr b.pages).2.maxPages = p.maxPages := by
    rw [(hinv.free hready hb).maxPages_eq, hinv.maxPages_eq]
  intro hnull
  -- the block itself is a run the first pass finds
  apply (pmmAlloc_eq_null_iff hinit (hrun.free hb) hn).mp hnull b.page
  · left
    rw [hmax]
    exact ⟨lastFreePage_pmmFree_le m p hne, by omega⟩
  · intro j hj
    rw [clearBit_eq_true]
    exact pmmFree_clear hready hinv hb ⟨by omega, by omega⟩

theorem acrossHint_block_reusable :
    PmmRun oneRegionInit.1 oneRegionInit.2.1 acrossHint.1 acrossHint.2 [⟨0x103000, 2⟩] ∧
    (pmmAlloc (pmmFree acrossHint.1 acrossHint.2 0x103000 2).1
      (pmmFree acrossHint.1 acrossHint.2 0x103000 2).2 2).2.2 ≠ 0 :=
  ⟨acrossHint_run, pmmAlloc_after_pmmFree oneRegion_init acrossHint_run
    (b := ⟨0x103000, 2⟩) List.mem_cons_self (by decide) (by decide)⟩

end

end System44
