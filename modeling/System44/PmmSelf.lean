import System44.PmmKernel
import System44.PmmLater

/-!
# The bitmap of the page allocator and its own pages

`pmm_init` counts the pages it reserves for the bitmap from the size alone and starts at the page
the bitmap starts in. A bitmap that does not start on a page boundary may reach into one page more,
which stays free if some usable entry claims it; and where the sum of base and length wraps around,
the page of the bitmap may have no bit in it at all.
-/

namespace System44

def E820Entry.clearedBits (p : Pmm) (e : E820Entry) : List ℕ :=
  if e.Usable then
    ((List.range e.pageCount).map (e.startPage + ·)).filter (· < p.maxPages)
  else []

/-- The bits `pmm_init` sets or clears once it has filled the bitmap, in this order. -/
def touchedBits (m : Mem) (p : Pmm) : List ℕ :=
  (markedEntries m p).flatMap (·.clearedBits p) ++
    (List.range (bitmapPageCount p)).map (bitmapStartPage p + ·) ++ [0]

def bitStores (p : Pmm) (bits : List ℕ) : List ℕ :=
  (bits.map fun bit => (p.bitmap + bit / 8) % 2 ^ 32).reverse

theorem bitStores_append (p : Pmm) (bits bits' : List ℕ) :
    bitStores p (bits ++ bits') = bitStores p bits' ++ bitStores p bits := by
  rw [bitStores, List.map_append, List.reverse_append]
  rfl

section

variable {m m' : Mem} {p p' : Pmm}

theorem writes_clearPages (m : Mem) (p : Pmm) (start n : ℕ) :
    (clearPages m p start n).writes =
      bitStores p (((List.range n).map (start + ·)).filter (· < p.maxPages)) ++ m.writes := by
  induction n with
  | zero => rfl
  | succ n ih =>
      rw [List.range_succ, List.map_append, List.filter_append, bitStores_append]
      simp only [clearPages]
      split
      · rename_i hlt
        rw [bitmapClear, Mem.writes_set, ih]
        simp [bitStores, hlt]
      · rename_i hlt
        rw [ih]
        simp [bitStores, hlt]

theorem writes_setPages (m : Mem) (p : Pmm) (start n : ℕ) :
    (setPages m p start n).writes =
      bitStores p ((List.range n).map (start + ·)) ++ m.writes := by
  induction n with
  | zero => rfl
  | succ n ih =>
      rw [List.range_succ, List.map_append, bitStores_append, setPages, bitmapSet, Mem.writes_set,
        ih]
      rfl

theorem writes_markEntry (m : Mem) (p : Pmm) (e : E820Entry) :
    (markEntry m p e).writes = bitStores p (e.clearedBits p) ++ m.writes := by
  unfold markEntry E820Entry.clearedBits
  split
  · exact writes_clearPages m p e.startPage e.pageCount
  · rfl

theorem writes_markUsable (p : Pmm) (fuel i : ℕ) (m : Mem) :
    (markUsable p fuel i m).writes =
      bitStores p ((seenEntries p fuel i m).flatMap (·.clearedBits p)) ++ m.writes := by
  induction fuel generalizing i m with
  | zero => rfl
  | succ fuel ih =>
      unfold markUsable seenEntries
      split
      · rw [ih, writes_markEntry, List.flatMap_cons, bitStores_append, List.append_assoc]
      · rfl

/-- Behind the filling of the bitmap, `pmm_init` stores to the bytes of these bits only. -/
theorem pmmInit_writes (h : pmmInit m p = (m', p', none)) :
    m'.writes = bitStores p' (touchedBits m p') ++ (fillBitmap m p').writes := by
  obtain ⟨e, -, -, rfl⟩ := pmmInit_success h
  rw [reserveBitmap, bitmapSet, Mem.writes_set, writes_setPages, writes_markUsable, touchedBits,
    bitStores_append, bitStores_append, List.append_assoc, List.append_assoc]
  rfl

end

/-- The page behind the reserved ones; behind the last page of the address space comes page 0. -/
def pageBehind (p : Pmm) : ℕ := (bitmapStartPage p + bitmapPageCount p) % 2 ^ 20

def ReachesBehind (p : Pmm) : Prop :=
  pageSize * bitmapPageCount p < p.bitmap % pageSize + p.bitmapSize

/-- How the bitmap lies is good enough: it is not empty, the bits of its pages are its own bits, and
if it reaches into the page behind them then that page is page 0 or has a bit too, and no entry that
the marking loop reads makes it free. -/
structure SelfProtecting (m : Mem) : Prop where
  size_pos : 0 < (plan m).bitmapSize
  reserved_le : bitmapStartPage (plan m) + bitmapPageCount (plan m) ≤ 8 * (plan m).bitmapSize
  behind_kept : ReachesBehind (plan m) → pageBehind (plan m) = 0 ∨
    pageBehind (plan m) < 8 * (plan m).bitmapSize ∧ ∀ e ∈ markedEntries m (plan m), e.Usable →
      e.Claims (pageBehind (plan m)) → (plan m).maxPages ≤ pageBehind (plan m)

/-- The place and the size of a bitmap that `pmm_init` has chosen. -/
structure BitmapPlaced (p : Pmm) : Prop where
  bitmap_lt : p.bitmap < 2 ^ 32
  start_eq : bitmapStartPage p = p.bitmap / pageSize
  size_le : 8 * p.bitmapSize ≤ 2 ^ 20

section

variable {p : Pmm} {q : ℕ}

theorem bitmapPageCount_bounds (p : Pmm) : p.bitmapSize ≤ pageSize * bitmapPageCount p ∧
    pageSize * bitmapPageCount p < p.bitmapSize + pageSize := by
  unfold bitmapPageCount pageSize
  split <;> omega

theorem BitmapPlaced.holdsBitmap_cases (hp : BitmapPlaced p)
    (hle : bitmapStartPage p + bitmapPageCount p ≤ 2 ^ 20) (hq : HoldsBitmap p q) :
    BitmapPage p q ∨ ReachesBehind p ∧ q = pageBehind p := by
  obtain ⟨a, ha, hin, rfl⟩ := hq
  obtain ⟨hsize, hcount⟩ := bitmapPageCount_bounds p
  have hlt := hp.bitmap_lt
  have hsize8 := hp.size_le
  rw [hp.start_eq] at hle
  rw [InBitmap, Mem.offset] at hin
  rw [BitmapPage, ReachesBehind, pageBehind, hp.start_eq]
  generalize bitmapPageCount p = count at *
  unfold pageSize at *
  omega

theorem BitmapPlaced.holdsBitmap_pageBehind (hp : BitmapPlaced p) (hpos : 0 < p.bitmapSize)
    (hbehind : ReachesBehind p) : HoldsBitmap p (pageBehind p) := by
  obtain ⟨hsize, hcount⟩ := bitmapPageCount_bounds p
  have hlt := hp.bitmap_lt
  have hsize8 := hp.size_le
  refine ⟨pageBehind p * pageSize, ?_, ?_, Nat.mul_div_cancel _ (by decide)⟩
  · unfold pageBehind pageSize
    omega
  · rw [ReachesBehind] at hbehind
    rw [InBitmap, Mem.offset, pageBehind, hp.start_eq]
    generalize bitmapPageCount p = count at *
    unfold pageSize at *
    omega

end

section

variable {m₀ m₁ : Mem} {p₁ : Pmm} (hinit : pmmInit m₀ Pmm.boot = (m₁, p₁, none))

include hinit

theorem pmmInit_placed : BitmapPlaced p₁ := by
  obtain ⟨e, -, rfl, -⟩ := pmmInit_success hinit
  refine ⟨?_, ?_, ?_⟩
  · rw [placeBitmap_bitmap]
    exact e.baseLow.isLt
  · rw [bitmapStartPage_placeBitmap, placeBitmap_bitmap]
  · have hmax := placeBitmap_maxPages_lt (m := m₀) (p := Pmm.boot) (e := e)
    rw [placeBitmap_bitmapSize, bitmapBytes]
    split <;> omega

theorem pmmInit_set_iff {q : ℕ} (hq : q < 8 * p₁.bitmapSize) :
    bitmapTest m₁ p₁ q = true ↔ q = 0 ∨ BitmapPage p₁ q ∨
      ∀ e ∈ markedEntries m₀ p₁, e.Usable → e.Claims q → p₁.maxPages ≤ q := by
  rw [← Bool.not_eq_false, pmmInit_clear_iff hinit hq]
  constructor
  · intro h
    by_contra hno
    obtain ⟨hne, hpage, hall⟩ : q ≠ 0 ∧ ¬ BitmapPage p₁ q ∧ _ := by simpa only [not_or] using hno
    apply h
    refine ⟨hne, hpage, ?_⟩
    by_contra hnone
    apply hall
    intro e he hu hclaim
    by_contra hlt
    exact hnone ⟨e, he, hu, hclaim, Nat.lt_of_not_le hlt⟩
  · rintro (hzero | hpage | hall) ⟨hne, hnpage, e, he, hu, hclaim, hlt⟩
    · exact hne hzero
    · exact hnpage hpage
    · exact absurd (hall e he hu hclaim) (Nat.not_le.mpr hlt)

theorem touchedBits_lt_iff : (∀ bit ∈ touchedBits m₀ p₁, bit < 8 * p₁.bitmapSize) ↔
    0 < p₁.bitmapSize ∧ bitmapStartPage p₁ + bitmapPageCount p₁ ≤ 8 * p₁.bitmapSize := by
  have hmax := pmmInit_maxPages_le hinit
  constructor
  · intro hall
    have hzero := hall 0 (List.mem_append_right _ (List.mem_singleton_self 0))
    have hpos : 0 < bitmapPageCount p₁ := by
      have := (bitmapPageCount_bounds p₁).1
      unfold pageSize at this
      omega
    have hlast := hall (bitmapStartPage p₁ + (bitmapPageCount p₁ - 1))
      (List.mem_append_left _ (List.mem_append_right _
        (List.mem_map_of_mem (List.mem_range.mpr (Nat.sub_one_lt_of_lt hpos)))))
    exact ⟨by omega, by omega⟩
  · rintro ⟨hpos, hreserved⟩ bit hbit
    rcases List.mem_append.mp hbit with hbit | hbit
    · rcases List.mem_append.mp hbit with hbit | hbit
      · obtain ⟨e, -, hbit⟩ := List.mem_flatMap.mp hbit
        unfold E820Entry.clearedBits at hbit
        split at hbit
        · have hlt := of_decide_eq_true (List.mem_filter.mp hbit).2
          omega
        · exact absurd hbit List.not_mem_nil
      · obtain ⟨i, hi, rfl⟩ := List.mem_map.mp hbit
        have := List.mem_range.mp hi
        omega
    · rw [List.mem_singleton.mp hbit]
      omega

/-- Where the bits of the reserved pages lie in the bitmap, `pmm_init` stores to the bitmap only. -/
theorem pmmInit_stores (hpos : 0 < p₁.bitmapSize)
    (hle : bitmapStartPage p₁ + bitmapPageCount p₁ ≤ 8 * p₁.bitmapSize) :
    ∃ stored, m₁.writes = stored ++ m₀.writes ∧ ∀ a ∈ stored, InBitmap p₁ a := by
  have hsize := (pmmInit_placed hinit).size_le
  refine ⟨bitStores p₁ (touchedBits m₀ p₁) ++ Mem.span p₁.bitmap p₁.bitmapSize, ?_, fun a ha => ?_⟩
  · rw [pmmInit_writes hinit, fillBitmap, Mem.writes_blit, List.append_assoc]
  · obtain ⟨i, hi, rfl⟩ : ∃ i < p₁.bitmapSize, a = (p₁.bitmap + i) % 2 ^ 32 := by
      rcases List.mem_append.mp ha with hstore | hfill
      · obtain ⟨bit, hbit, rfl⟩ := List.mem_map.mp (List.mem_reverse.mp hstore)
        have hlt := (touchedBits_lt_iff hinit).mpr ⟨hpos, hle⟩ bit hbit
        exact ⟨bit / 8, by omega, rfl⟩
      · exact Mem.mem_span.mp hfill
    rw [InBitmap, Mem.offset_congr _ (Nat.mod_mod _ (2 ^ 32)), Mem.offset_add _ (by omega)]
    exact hi

/-- The pages of a bitmap whose reserved pages have bits are all marked exactly when the page behind
them is, if the bitmap reaches into it. -/
theorem holdsBitmap_set_iff (hpos : 0 < p₁.bitmapSize)
    (hle : bitmapStartPage p₁ + bitmapPageCount p₁ ≤ 8 * p₁.bitmapSize) :
    (∀ q, HoldsBitmap p₁ q → q < 8 * p₁.bitmapSize ∧ bitmapTest m₁ p₁ q = true) ↔
      (ReachesBehind p₁ → pageBehind p₁ = 0 ∨ pageBehind p₁ < 8 * p₁.bitmapSize ∧
        ∀ e ∈ markedEntries m₀ p₁, e.Usable → e.Claims (pageBehind p₁) →
          p₁.maxPages ≤ pageBehind p₁) := by
  have hplaced := pmmInit_placed hinit
  have hsize := hplaced.size_le
  constructor
  · intro hall hbehind
    obtain ⟨hlt, hset⟩ := hall _ (hplaced.holdsBitmap_pageBehind hpos hbehind)
    rcases (pmmInit_set_iff hinit hlt).mp hset with hzero | hpage | hfree
    · exact Or.inl hzero
    · -- the page behind is a reserved one only if it is page 0 after a wrap
      left
      obtain ⟨hlo, hhi⟩ := hpage
      unfold pageBehind at *
      omega
    · exact Or.inr ⟨hlt, hfree⟩
  · intro hbehind q hq
    rcases hplaced.holdsBitmap_cases (hle.trans hsize) hq with hpage | ⟨hreach, rfl⟩
    · have hlt : q < 8 * p₁.bitmapSize := hpage.2.trans_le hle
      exact ⟨hlt, (pmmInit_set_iff hinit hlt).mpr (Or.inr (Or.inl hpage))⟩
    · rcases hbehind hreach with hzero | ⟨hlt, hfree⟩
      · have hlt : pageBehind p₁ < 8 * p₁.bitmapSize := by omega
        exact ⟨hlt, (pmmInit_set_iff hinit hlt).mpr (Or.inl hzero)⟩
      · exact ⟨hlt, (pmmInit_set_iff hinit hlt).mpr (Or.inr (Or.inr hfree))⟩

theorem not_handsOut_bitmap
    (hset : ∀ q, HoldsBitmap p₁ q → q < 8 * p₁.bitmapSize ∧ bitmapTest m₁ p₁ q = true) {m : Mem}
    {p : Pmm} {live : List Block} (hrun : PmmRun m₁ p₁ m p live) (n : ℕ) {a : ℕ} (ha : a < 2 ^ 32)
    (hin : InBitmap p₁ a) : ¬ HandsOut m p n a := by
  rintro ⟨hptr, hlo, hhi⟩
  obtain ⟨-, hclear⟩ := alloc_span_unreserved hinit hrun hptr hlo hhi
  rw [(hset _ ⟨a, ha, hin, rfl⟩).2] at hclear
  cases hclear

/-- Every bit that is set or cleared lies in the bitmap, the pages of the bitmap are marked and no
run hands them out, exactly when the way the bitmap lies is good enough. -/
theorem pmmInit_protectsBitmap_iff :
    ((∀ bit ∈ touchedBits m₀ p₁, bit < 8 * p₁.bitmapSize) ∧
      (∀ q, HoldsBitmap p₁ q → q < 8 * p₁.bitmapSize ∧ bitmapTest m₁ p₁ q = true) ∧
      ∀ m p live, PmmRun m₁ p₁ m p live → ∀ n, ∀ a < 2 ^ 32, InBitmap p₁ a →
        ¬ HandsOut m p n a) ↔ SelfProtecting m₀ := by
  constructor
  · rintro ⟨htouched, hset, -⟩
    obtain ⟨hpos, hle⟩ := (touchedBits_lt_iff hinit).mp htouched
    have hbehind := (holdsBitmap_set_iff hinit hpos hle).mp hset
    rw [← plan_eq hinit] at hpos hle hbehind
    exact ⟨hpos, hle, hbehind⟩
  · rintro ⟨hpos, hle, hbehind⟩
    rw [plan_eq hinit] at hpos hle hbehind
    have hset := (holdsBitmap_set_iff hinit hpos hle).mpr hbehind
    refine ⟨(touchedBits_lt_iff hinit).mpr ⟨hpos, hle⟩, hset, ?_⟩
    intro m p live hrun n a ha hin
    exact not_handsOut_bitmap hinit hset hrun n ha hin

end

theorem oneRegion_selfProtecting : SelfProtecting (tableMemory oneRegion) := by
  have hplan := plan_eq oneRegion_init
  have hsize : oneRegionInit.2.1.bitmapSize = 33 := by decide +kernel
  have hbitmap : oneRegionInit.2.1.bitmap = 0x100000 := by decide +kernel
  have hstart : bitmapStartPage oneRegionInit.2.1 = 0x100 := by decide +kernel
  have hcount : bitmapPageCount oneRegionInit.2.1 = 1 := by decide +kernel
  refine ⟨?_, ?_, ?_⟩
  · rw [hplan, hsize]
    decide
  · rw [hplan, hsize, hstart, hcount]
    decide
  · rw [hplan, ReachesBehind, hbitmap, hsize, hcount]
    intro hreach
    unfold pageSize at hreach
    omega

theorem oneRegion_protectsBitmap :
    pmmInit (tableMemory oneRegion) Pmm.boot = (oneRegionInit.1, oneRegionInit.2.1, none) ∧
    (∀ bit ∈ touchedBits (tableMemory oneRegion) oneRegionInit.2.1,
      bit < 8 * oneRegionInit.2.1.bitmapSize) ∧
    ∀ q, HoldsBitmap oneRegionInit.2.1 q → q < 8 * oneRegionInit.2.1.bitmapSize ∧
      bitmapTest oneRegionInit.1 oneRegionInit.2.1 q = true := by
  have hprotects := (pmmInit_protectsBitmap_iff oneRegion_init).mpr oneRegion_selfProtecting
  exact ⟨oneRegion_init, hprotects.1, hprotects.2.1⟩

def unalignedRegion : List E820Entry := [⟨0x100FF0#32, 0#32, 0x5000#32, 0#32, 1#32⟩]

def unalignedRegionInit : Mem × Pmm × Option PmmError :=
  pmmInit (tableMemory unalignedRegion) Pmm.boot

/-- A region that ends one page behind the end of the address space. -/
def topRegion : List E820Entry := [⟨0xFFFFF000#32, 0#32, 0x2000#32, 0#32, 1#32⟩]

def topRegionInit : Mem × Pmm × Option PmmError := pmmInit (tableMemory topRegion) Pmm.boot

/-- The second page of the bitmap is free and the first request gets it; at the top of the address
space the page of the bitmap has number `0xFFFFF`, but the bitmap is a single byte. -/
theorem unalignedRegion_hands_out_bitmap :
    (unalignedRegionInit.2.2 = none ∧ HoldsBitmap unalignedRegionInit.2.1 0x101 ∧
      bitmapTest unalignedRegionInit.1 unalignedRegionInit.2.1 0x101 = false ∧
      (pmmAlloc unalignedRegionInit.1 unalignedRegionInit.2.1 1).2.2 = 0x101000) ∧
    topRegionInit.2.2 = none ∧ topRegionInit.2.1.bitmapSize = 1 ∧
      0xFFFFF ∈ touchedBits (tableMemory topRegion) topRegionInit.2.1 := by
  have hbitmap : unalignedRegionInit.2.1.bitmap = 0x100FF0 := by decide +kernel
  have hsize : unalignedRegionInit.2.1.bitmapSize = 33 := by decide +kernel
  refine ⟨⟨by decide +kernel, ⟨0x101000, by decide, ?_, rfl⟩, by decide +kernel,
    by decide +kernel⟩, by decide +kernel, by decide +kernel, by decide +kernel⟩
  rw [InBitmap, hbitmap, hsize]
  decide

end System44
