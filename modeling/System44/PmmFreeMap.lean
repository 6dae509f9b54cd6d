import System44.PmmConservation

/-!
# The free map and the firmware's table

Every page that is free after `pmm_init` was claimed by a usable entry, but an entry may claim pages
it does not contain: the high half of the base is dropped, and the base is rounded down to a page
while the length is rounded down on its own. The free map is sound exactly when each such page
happens to lie inside some other usable entry. On a map of whole pages below 4 GiB nothing is
misread, and the free map is exact.
-/

namespace System44

/-- The size and place `pmm_init` chooses for the bitmap, as a function of the table. -/
def plan (m : Mem) : Pmm :=
  match findBitmap m (bitmapBytes (maxAddr m / pageSize)) with
  | some e => placeBitmap m Pmm.boot e
  | none => Pmm.boot

/-- Pages a usable entry can make free: not page 0, not part of the bitmap, below the end. -/
structure Grantable (p : Pmm) (page : ℕ) : Prop where
  ne_zero : page ≠ 0
  lt_maxPages : page < p.maxPages
  not_bitmap : ¬ BitmapPage p page

/-- The page is claimed under a wrong address: the entry lies above 4 GiB, or the page is the
first one of an entry that starts in the middle of it. -/
def E820Entry.Misread (e : E820Entry) (page : ℕ) : Prop :=
  e.baseHigh ≠ 0#32 ∨ e.baseLow.toNat % pageSize ≠ 0 ∧ page = e.startPage

instance (e : E820Entry) (page : ℕ) : Decidable (e.Misread page) :=
  inferInstanceAs (Decidable (_ ∨ _))

theorem contains_iff_not_misread {e : E820Entry} {q : ℕ} (hclaim : e.Claims q) :
    e.Contains q ↔ ¬ e.Misread q := by
  obtain ⟨hlo, hhi⟩ := hclaim
  have hlow := e.baseLow.isLt
  have hbase : e.baseHigh ≠ 0#32 ↔ 0 < e.baseHigh.toNat := by
    rw [Nat.pos_iff_ne_zero, ne_eq, ne_eq, ← BitVec.toNat_inj]
    rfl
  unfold E820Entry.Contains E820Entry.Misread E820Entry.base E820Entry.length
  rw [hbase]
  unfold E820Entry.startPage E820Entry.pageCount pageSize at *
  omega

section

variable {m₀ m₁ : Mem} {p₁ : Pmm} (hinit : pmmInit m₀ Pmm.boot = (m₁, p₁, none))

include hinit

theorem plan_eq : plan m₀ = p₁ := by
  obtain ⟨e, hfind, hplace, _⟩ := pmmInit_success hinit
  rw [hplace, placeBitmap_bitmapSize, placeBitmap_maxPages] at hfind
  rw [plan, hfind, hplace]

theorem pmmInit_free_iff {q : ℕ} (hq : q < 8 * p₁.bitmapSize) :
    bitmapTest m₁ p₁ q = false ↔ Grantable (plan m₀) q ∧
      ∃ e ∈ markedEntries m₀ (plan m₀), e.Usable ∧ e.Claims q := by
  rw [pmmInit_clear_iff hinit hq, plan_eq hinit]
  constructor
  · rintro ⟨hne, hbitmap, e, he, hu, hclaim, hlt⟩
    exact ⟨⟨hne, hlt, hbitmap⟩, e, he, hu, hclaim⟩
  · rintro ⟨⟨hne, hlt, hbitmap⟩, e, he, hu, hclaim⟩
    exact ⟨hne, hbitmap, e, he, hu, hclaim, hlt⟩

theorem Grantable.lt_bits {q : ℕ} (hq : Grantable (plan m₀) q) : q < 8 * p₁.bitmapSize := by
  have hlt := hq.lt_maxPages
  rw [plan_eq hinit] at hlt
  exact hlt.trans_le (pmmInit_maxPages_le hinit)

/-- The free map is sound exactly when every grantable page that a usable entry misreads, or claims
without being an entry of the firmware's table, lies inside some usable entry all the same. -/
theorem pmmInit_freeMap_sound_iff :
    (∀ q < 8 * p₁.bitmapSize, bitmapTest m₁ p₁ q = false →
      ∃ f ∈ readMap m₀, f.Usable ∧ f.Contains q) ↔
      ∀ e ∈ markedEntries m₀ (plan m₀), e.Usable → ∀ q, e.Claims q → Grantable (plan m₀) q →
        e ∉ readMap m₀ ∨ e.Misread q → ∃ f ∈ readMap m₀, f.Usable ∧ f.Contains q := by
  constructor
  · intro hsound e he hu q hclaim hgrant _
    have hbits := hgrant.lt_bits hinit
    exact hsound q hbits ((pmmInit_free_iff hinit hbits).mpr ⟨hgrant, e, he, hu, hclaim⟩)
  · intro hcond q hbits hclear
    obtain ⟨hgrant, e, he, hu, hclaim⟩ := (pmmInit_free_iff hinit hbits).mp hclear
    by_cases hbad : e ∉ readMap m₀ ∨ e.Misread q
    · exact hcond e he hu q hclaim hgrant hbad
    · obtain ⟨hmem, hread⟩ := not_or.mp hbad
      exact ⟨e, not_not.mp hmem, hu, (contains_iff_not_misread hclaim).mpr hread⟩

end

theorem oneRegion_offTable (a : ℕ) (ha : InTable (tableMemory oneRegion) a) :
    ¬ InBitmap oneRegionInit.2.1 a := by
  have hbitmap : oneRegionInit.2.1.bitmap = 0x100000 := by decide +kernel
  have hsize : oneRegionInit.2.1.bitmapSize = 33 := by decide +kernel
  have hcount := readCount_tableMemory oneRegion (by decide)
  rw [InTable, hcount] at ha
  rw [InBitmap, hbitmap, hsize, Mem.offset]
  simp only [mmapCount, mmapAddr, sizeofE820Entry, oneRegion, List.length_singleton] at ha
  omega

theorem oneRegion_freeMap_sound :
    pmmInit (tableMemory oneRegion) Pmm.boot = (oneRegionInit.1, oneRegionInit.2.1, none) ∧
    ∀ q < 8 * oneRegionInit.2.1.bitmapSize,
      bitmapTest oneRegionInit.1 oneRegionInit.2.1 q = false →
        ∃ f ∈ readMap (tableMemory oneRegion), f.Usable ∧ f.Contains q := by
  refine ⟨oneRegion_init, (pmmInit_freeMap_sound_iff oneRegion_init).mpr ?_⟩
  rw [plan_eq oneRegion_init, markedEntries_eq_readMap oneRegion_init oneRegion_offTable,
    readMap_tableMemory (by decide)]
  intro e he _ q _ _ hbad
  have hgood : ∀ f ∈ oneRegion, f.baseHigh = 0#32 ∧ f.baseLow.toNat % pageSize = 0 := by decide
  obtain ⟨hhigh, halign⟩ := hgood e he
  rcases hbad with hnot | hread | ⟨hread, _⟩
  · exact absurd he hnot
  · exact absurd hhigh hread
  · exact absurd halign hread

/-- One page of RAM at 1 MiB and two pages of RAM at 4 GiB. -/
def highRegion : List E820Entry :=
  [⟨0x100000#32, 0#32, 0x1000#32, 0#32, 1#32⟩, ⟨0#32, 1#32, 0x2000#32, 0#32, 1#32⟩]

/-- Page 1 comes out free although no entry of the table contains it. -/
theorem highRegion_frees_foreign_page :
    (pmmInit (tableMemory highRegion) Pmm.boot).2.2 = none ∧
    bitmapTest (pmmInit (tableMemory highRegion) Pmm.boot).1
      (pmmInit (tableMemory highRegion) Pmm.boot).2.1 1 = false ∧
    ∀ f ∈ readMap (tableMemory highRegion), ¬ (f.Usable ∧ f.Contains 1) := by
  refine ⟨by decide +kernel, by decide +kernel, ?_⟩
  rw [readMap_tableMemory (by decide)]
  decide

section

variable {m₀ m₁ : Mem} {p₁ : Pmm} (hmap : AlignedMap (readMap m₀))

include hmap

theorem AlignedMap.base_length {e : E820Entry} (he : e ∈ readMap m₀) (hu : e.Usable) :
    e.base = e.baseLow.toNat ∧ e.length = e.lengthLow.toNat := by
  obtain ⟨hbase, hlength⟩ := hmap.high_zero e he hu
  constructor
  · simp [E820Entry.base, hbase]
  · simp [E820Entry.length, hlength]

theorem AlignedMap.regionEnd_eq {e : E820Entry} (he : e ∈ readMap m₀) (hu : e.Usable) :
    e.regionEnd = e.base + e.length := by
  obtain ⟨hbase, hlength⟩ := hmap.high_zero e he hu
  obtain ⟨hb, hl⟩ := hmap.base_length he hu
  have hwrap := hmap.no_wrap e he hu
  rw [hb, hl, E820Entry.regionEnd, hbase, hlength, BitVec.add_zero, BitVec.add_zero,
    BitVec.toNat_add, Nat.mod_eq_of_lt hwrap]

theorem AlignedMap.end_aligned {e : E820Entry} (he : e ∈ readMap m₀) (hu : e.Usable) :
    (e.base + e.length) % pageSize = 0 := by
  obtain ⟨hb, hl⟩ := hmap.base_length he hu
  rw [hb, hl, Nat.add_mod, hmap.base_aligned e he hu, hmap.length_aligned e he hu]
  rfl

theorem AlignedMap.claims_iff {e : E820Entry} (he : e ∈ readMap m₀) (hu : e.Usable) {q : ℕ} :
    e.Claims q ↔ e.Contains q := by
  obtain ⟨hb, hl⟩ := hmap.base_length he hu
  have hbase := hmap.base_aligned e he hu
  have hlength := hmap.length_aligned e he hu
  rw [E820Entry.Claims, E820Entry.Contains, hb, hl]
  unfold E820Entry.startPage E820Entry.pageCount pageSize at *
  omega

theorem AlignedMap.bitmapPage_iff (hinit : pmmInit m₀ Pmm.boot = (m₁, p₁, none)) {q : ℕ} :
    BitmapPage p₁ q ↔ HoldsBitmap p₁ q := by
  refine ⟨?_, bitmapPage_of_holdsBitmap hmap hinit⟩
  obtain ⟨e, hfind, hplace, -⟩ := pmmInit_success hinit
  obtain ⟨he, hu, hsize, -⟩ := findBitmap_spec hfind
  have halign := hmap.base_aligned e he hu
  have hwrap := hmap.no_wrap e he hu
  have hbitmap : p₁.bitmap = e.baseLow.toNat := by rw [hplace, placeBitmap_bitmap]
  have hstart : bitmapStartPage p₁ = e.baseLow.toNat / pageSize := by
    rw [hplace, bitmapStartPage_placeBitmap]
  rw [BitmapPage, hstart, bitmapPageCount]
  rintro ⟨hlo, hhi⟩
  -- the first byte of the page is one of the bitmap
  have hin : q * pageSize - e.baseLow.toNat < p₁.bitmapSize := by
    unfold pageSize at *
    split at hhi <;> omega
  have hlo' : e.baseLow.toNat ≤ q * pageSize := by
    unfold pageSize at *
    omega
  refine ⟨q * pageSize, by omega, ?_, Nat.mul_div_cancel q (by decide)⟩
  rw [InBitmap, hbitmap, ← Nat.add_sub_cancel' hlo', Mem.offset_add _ (by omega)]
  exact hin

/-- The end of the map is that of the highest usable entry. -/
theorem AlignedMap.maxPages_eq (hinit : pmmInit m₀ Pmm.boot = (m₁, p₁, none)) :
    p₁.maxPages * pageSize = maxAddr m₀ := by
  obtain ⟨e, he, hu, heq⟩ := exists_regionEnd_eq_maxAddr (pmmInit_maxAddr_ne_zero hinit)
  have halign := hmap.end_aligned he hu
  rw [← hmap.regionEnd_eq he hu, heq] at halign
  rw [pmmInit_maxPages hinit]
  exact Nat.div_mul_cancel (Nat.dvd_of_mod_eq_zero halign)

/-- A page is free on return exactly when a usable entry contains it, it is not page 0 and the
bitmap does not lie in it. -/
theorem pmmInit_freeMap_exact (hinit : pmmInit m₀ Pmm.boot = (m₁, p₁, none))
    (hoff : ∀ a, InTable m₀ a → ¬ InBitmap p₁ a) :
    (∃ e ∈ readMap m₀, e.Usable ∧ p₁.maxPages * pageSize = e.base + e.length) ∧
    (∀ f ∈ readMap m₀, f.Usable → f.base + f.length ≤ p₁.maxPages * pageSize) ∧
    ∀ q < p₁.maxPages, bitmapTest m₁ p₁ q = false ↔
      (∃ e ∈ readMap m₀, e.Usable ∧ e.Contains q) ∧ q ≠ 0 ∧ ¬ HoldsBitmap p₁ q := by
  refine ⟨?_, ?_, ?_⟩
  · obtain ⟨e, he, hu, heq⟩ := exists_regionEnd_eq_maxAddr (pmmInit_maxAddr_ne_zero hinit)
    exact ⟨e, he, hu, by rw [hmap.maxPages_eq hinit, ← heq, hmap.regionEnd_eq he hu]⟩
  · intro f hf hu
    rw [hmap.maxPages_eq hinit, ← hmap.regionEnd_eq hf hu]
    exact regionEnd_le_maxAddr hf hu
  · intro q hq
    have hbits := hq.trans_le (pmmInit_maxPages_le hinit)
    rw [pmmInit_clear_iff hinit hbits, markedEntries_eq_readMap hinit hoff,
      hmap.bitmapPage_iff hinit]
    constructor
    · rintro ⟨hne, hbitmap, e, he, hu, hclaim, -⟩
      exact ⟨⟨e, he, hu, (hmap.claims_iff he hu).mp hclaim⟩, hne, hbitmap⟩
    · rintro ⟨⟨e, he, hu, hcontain⟩, hne, hbitmap⟩
      exact ⟨hne, hbitmap, e, he, hu, (hmap.claims_iff he hu).mpr hcontain, hq⟩

end

/-- Of the five pages the bitmap takes the first and the other four are free. -/
theorem oneRegion_freeMap_exact :
    AlignedMap (readMap (tableMemory oneRegion)) ∧
    pmmInit (tableMemory oneRegion) Pmm.boot = (oneRegionInit.1, oneRegionInit.2.1, none) ∧
    (∀ a, InTable (tableMemory oneRegion) a → ¬ InBitmap oneRegionInit.2.1 a) ∧
    ∀ q < oneRegionInit.2.1.maxPages, bitmapTest oneRegionInit.1 oneRegionInit.2.1 q = false ↔
      (∃ e ∈ readMap (tableMemory oneRegion), e.Usable ∧ e.Contains q) ∧ q ≠ 0 ∧
        ¬ HoldsBitmap oneRegionInit.2.1 q :=
  ⟨oneRegion_aligned, oneRegion_init, oneRegion_offTable,
    (pmmInit_freeMap_exact oneRegion_aligned oneRegion_init oneRegion_offTable).2.2⟩

end System44
