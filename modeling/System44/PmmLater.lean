import Mathlib.Data.Finset.Card
import System44.PmmRun

/-!
# Page allocation from any state

Runs that go on from a state of the allocator whose bitmap may hold anything. A page that is marked,
or lies behind the map, and belongs to no live block is not handed out; every page that is not
marked can be.
-/

namespace System44

/-- Some block covers the address. -/
def HandsOut (m : Mem) (p : Pmm) (pages a : ℕ) : Prop :=
  (pmmAlloc m p pages).2.2 ≠ 0 ∧ (pmmAlloc m p pages).2.2 ≤ a ∧
    a < (pmmAlloc m p pages).2.2 + pages * pageSize

variable {m m' : Mem} {p p' : Pmm} {live live' : List Block} {q : ℕ}

/-- Nobody can be given page `q`. -/
structure Withheld (q : ℕ) (m : Mem) (p : Pmm) (live : List Block) : Prop where
  taken : p.maxPages ≤ q ∨ bitmapTest m p q = true
  unowned : ∀ b ∈ live, q ∉ b.span

/-- What an allocation does to the variables, the bits and the live blocks. -/
theorem pmmAlloc_effect (hp : PmmBounds p) (pages : ℕ) :
    PmmBounds (pmmAlloc m p pages).2.1 ∧ (pmmAlloc m p pages).2.1.maxPages = p.maxPages ∧
      ((pmmAlloc m p pages).2.2 = 0 ∧ (∀ c < p.maxPages, bitmapTest m p c = true →
          bitmapTest (pmmAlloc m p pages).1 (pmmAlloc m p pages).2.1 c = true) ∨
        ∃ a, (pmmAlloc m p pages).2.2 = a * pageSize ∧ a + pages ≤ p.maxPages ∧
          FirstFit.IsRun (clearBit m p) a pages ∧ ∀ c < p.maxPages,
            bitmapTest (pmmAlloc m p pages).1 (pmmAlloc m p pages).2.1 c =
              (decide (a ≤ c ∧ c < a + pages) || bitmapTest m p c)) := by
  have hmax := hp.maxPages_lt
  rcases Nat.eq_zero_or_pos pages with rfl | hpos
  · exact ⟨hp, rfl, Or.inl ⟨rfl, fun _ _ h => h⟩⟩
  · rcases pmmAlloc_take_or_null m p hpos with ⟨a, heq, hside, hrun⟩ | ⟨heq, -⟩
    · have hle := hside.le_maxPages hp.hint_le
      rw [heq]
      refine ⟨⟨hp.maxPages_lt, hp.maxPages_le, hp.bitmapSize_lt, hle⟩, rfl, Or.inr ⟨a, ?_, hle,
        hrun, fun c hc => ?_⟩⟩
      · exact takePages_ptr m p (by omega)
      · exact bitmapTest_setPages m p (by omega) (by omega)
    · rw [heq]
      exact ⟨⟨hp.maxPages_lt, hp.maxPages_le, hp.bitmapSize_lt, Nat.zero_le _⟩, rfl,
        Or.inl ⟨rfl, fun _ _ h => h⟩⟩

theorem pmmAlloc_block (hp : PmmBounds p) {pages : ℕ} (hne : (pmmAlloc m p pages).2.2 ≠ 0) :
    (∀ c ∈ (Block.mk (pmmAlloc m p pages).2.2 pages).span,
      c < p.maxPages ∧ bitmapTest m p c = false) ∧
    ∀ c < 2 ^ 35, bitmapTest (pmmAlloc m p pages).1 p c = true ↔
      c ∈ (Block.mk (pmmAlloc m p pages).2.2 pages).span ∨ bitmapTest m p c = true := by
  have hmax := hp.maxPages_lt
  have hpos : 0 < pages := by
    rcases Nat.eq_zero_or_pos pages with rfl | hpos
    · exact absurd rfl hne
    · exact hpos
  rcases pmmAlloc_take_or_null m p hpos with ⟨a, heq, hside, hrun⟩ | ⟨heq, -⟩
  · have hle := hside.le_maxPages hp.hint_le
    have hspan : ∀ c, c ∈ (Block.mk (a * pageSize) pages).span ↔ a ≤ c ∧ c < a + pages := by
      intro c
      simp only [Block.span, page_mul_pageSize, Set.mem_ofPred_eq]
    rw [heq, takePages_ptr m p (by omega)]
    constructor
    · intro c hc
      obtain ⟨hlo, hhi⟩ := (hspan c).mp hc
      exact ⟨by omega, clearBit_eq_true.mp (hrun.free_of_mem hlo hhi)⟩
    · intro c hc
      rw [hspan, takePages, bitmapTest_setPages m p (by omega) hc, Bool.or_eq_true,
        decide_eq_true_iff]
  · rw [heq] at hne
    exact absurd rfl hne

theorem get_setPages (hp : PmmBounds p) (m : Mem) {start n a : ℕ}
    (hle : start + n ≤ p.maxPages) (ha : ¬ InBitmap p a) :
    (setPages m p start n).get a = m.get a := by
  have hsize := hp.bitmapSize_lt
  have hmax := hp.maxPages_le
  induction n with
  | zero => rfl
  | succ n ih =>
      rw [setPages, bitmapSet, Mem.get_set_of_ne _ _ ?_, ih (by omega)]
      intro he
      apply ha
      have ho := (Mem.offset_eq_iff p.bitmap a (i := (start + n) / 8) (by omega)).mpr he
      rw [InBitmap, ho]
      omega

theorem get_pmmAlloc (hp : PmmBounds p) (m : Mem) (pages : ℕ) {a : ℕ}
    (ha : ¬ InBitmap p a) : (pmmAlloc m p pages).1.get a = m.get a := by
  rcases Nat.eq_zero_or_pos pages with rfl | hpos
  · rfl
  · rcases pmmAlloc_take_or_null m p hpos with ⟨b, heq, hside, -⟩ | ⟨heq, -⟩
    · rw [heq]
      exact get_setPages hp m (hside.le_maxPages hp.hint_le) ha
    · rw [heq]

theorem pmmAlloc_statics (m : Mem) (p : Pmm) (pages : ℕ) :
    ∃ hint, (pmmAlloc m p pages).2.1 = { p with lastFreePage := hint } := by
  rcases Nat.eq_zero_or_pos pages with rfl | hpos
  · exact ⟨p.lastFreePage, rfl⟩
  · rcases pmmAlloc_take_or_null m p hpos with ⟨a, heq, -⟩ | ⟨heq, -⟩
    · exact ⟨a + pages, by rw [heq]; rfl⟩
    · exact ⟨0, by rw [heq]⟩

theorem pmmFree_statics (m : Mem) (p : Pmm) (ptr pages : ℕ) :
    ∃ hint, (pmmFree m p ptr pages).2 = { p with lastFreePage := hint } := by
  unfold pmmFree
  split
  · exact ⟨p.lastFreePage, rfl⟩
  · dsimp only
    split
    · exact ⟨_, rfl⟩
    · exact ⟨p.lastFreePage, rfl⟩

theorem get_pmmFree (hp : PmmBounds p) (m : Mem) (ptr pages : ℕ) {a : ℕ} (ha : ¬ InBitmap p a) :
    (pmmFree m p ptr pages).1.get a = m.get a := by
  have hsize := hp.bitmapSize_lt
  unfold pmmFree
  split
  · rfl
  · exact get_clearPages hp.maxPages_le (by omega) m _ _ ha

/-- Giving a block back leaves the bits as they were before it was had, whatever has been stored
beside the bitmap in between. -/
theorem bitmapTest_givenBack (hp : PmmBounds p) {pages : ℕ} (hne : (pmmAlloc m p pages).2.2 ≠ 0)
    {m' : Mem} (hsame : ∀ a, InBitmap p a → m'.get a = (pmmAlloc m p pages).1.get a) {q : ℕ}
    (hq : q < 8 * p.bitmapSize) :
    bitmapTest (pmmFree m' (pmmAlloc m p pages).2.1 (pmmAlloc m p pages).2.2 pages).1 p q =
      bitmapTest m p q := by
  have hmax := hp.maxPages_lt
  have hsize := hp.bitmapSize_lt
  obtain ⟨hint, hstatics⟩ := pmmAlloc_statics m p pages
  obtain ⟨hclear, hset⟩ := pmmAlloc_block (m := m) hp hne
  have hbyte : bitmapTest m' p q = bitmapTest (pmmAlloc m p pages).1 p q := by
    have hin : InBitmap p (p.bitmap + q / 8) := by
      rw [InBitmap, Mem.offset_add _ (by omega)]
      omega
    rw [bitmapTest, bitmapTest, hsame _ hin]
  rw [hstatics, pmmFree, if_neg hne]
  change bitmapTest (clearPages m' { p with lastFreePage := hint } _ _)
    { p with lastFreePage := hint } q = _
  rw [bitmapTest_clearPages _ _ (by change p.maxPages ≤ 2 ^ 35; omega) (by omega)]
  change (!_ && bitmapTest m' p q) = _
  rw [hbyte]
  by_cases hspan : q ∈ (Block.mk (pmmAlloc m p pages).2.2 pages).span
  · obtain ⟨hlt, hfree⟩ := hclear q hspan
    rw [decide_eq_true ⟨hspan.1, hspan.2, hlt⟩, hfree]
    rfl
  · rw [decide_eq_false fun h => hspan ⟨h.1, h.2.1⟩, Bool.not_false, Bool.true_and,
      Bool.eq_iff_iff, hset q (by omega), or_iff_right hspan]

theorem Withheld.alloc (h : Withheld q m p live) (hp : PmmBounds p) (pages : ℕ) :
    Withheld q (pmmAlloc m p pages).1 (pmmAlloc m p pages).2.1
      (granted (pmmAlloc m p pages).2.2 pages live) := by
  obtain ⟨-, hmax, ⟨hnull, hbits⟩ | ⟨a, hptr, hle, hrun, hbits⟩⟩ :=
    pmmAlloc_effect (m := m) hp pages
  · refine ⟨?_, ?_⟩
    · rw [hmax]
      rcases Nat.lt_or_ge q p.maxPages with hlt | hge
      · exact Or.inr (hbits q hlt (h.taken.resolve_left (by omega)))
      · exact Or.inl hge
    · rw [hnull, granted, if_pos rfl]
      exact h.unowned
  · have hout : ¬ (a ≤ q ∧ q < a + pages) := by
      rintro ⟨hlo, hhi⟩
      rcases h.taken with hge | hset
      · omega
      · have hclear := clearBit_eq_true.mp (hrun.free_of_mem hlo hhi)
        rw [hset] at hclear
        cases hclear
    refine ⟨?_, ?_⟩
    · rw [hmax]
      rcases Nat.lt_or_ge q p.maxPages with hlt | hge
      · rw [hbits q hlt, h.taken.resolve_left (by omega), Bool.or_true]
        exact Or.inr rfl
      · exact Or.inl hge
    · rw [hptr, granted]
      split
      · exact h.unowned
      · intro b hb
        rcases List.mem_cons.mp hb with rfl | hb
        · simp only [Block.span, page_mul_pageSize, Set.mem_ofPred_eq]
          exact hout
        · exact h.unowned b hb

theorem Withheld.free (h : Withheld q m p live) (hp : PmmBounds p) {b : Block} (hb : b ∈ live) :
    PmmBounds (pmmFree m p b.ptr b.pages).2 ∧
      Withheld q (pmmFree m p b.ptr b.pages).1 (pmmFree m p b.ptr b.pages).2 (live.erase b) := by
  have hunowned : ∀ c ∈ live.erase b, q ∉ c.span :=
    fun c hc => h.unowned c (List.mem_of_mem_erase hc)
  have hmax := hp.maxPages_lt
  unfold pmmFree
  split
  · exact ⟨hp, h.taken, hunowned⟩
  · have htaken (hint : ℕ) : p.maxPages ≤ q ∨ bitmapTest (clearPages m p b.page b.pages)
        { p with lastFreePage := hint } q = true := by
      rcases Nat.lt_or_ge q p.maxPages with hlt | hge
      · have hset := h.taken.resolve_left (by omega)
        have hout : ¬ (b.page ≤ q ∧ q < b.page + b.pages ∧ q < p.maxPages) := fun hin =>
          h.unowned b hb ⟨hin.1, hin.2.1⟩
        right
        change bitmapTest (clearPages m p b.page b.pages) p q = true
        rw [bitmapTest_clearPages m p (by omega) (by omega), decide_eq_false hout, hset]
        rfl
      · exact Or.inl hge
    dsimp only
    split
    · rename_i hlt
      exact ⟨⟨hp.maxPages_lt, hp.maxPages_le, hp.bitmapSize_lt, hlt.le.trans hp.hint_le⟩,
        htaken b.page, hunowned⟩
    · exact ⟨hp, htaken p.lastFreePage, hunowned⟩

theorem Withheld.store (h : Withheld q m p live) (hp : PmmBounds p)
    (hm : ∀ a, InBitmap p a → m'.get a = m.get a) : Withheld q m' p live := by
  refine ⟨?_, h.unowned⟩
  rcases Nat.lt_or_ge q p.maxPages with hlt | hge
  · have hle := hp.maxPages_le
    have hsize := hp.bitmapSize_lt
    have hin : InBitmap p (p.bitmap + q / 8) := by
      rw [InBitmap, Mem.offset_add _ (by omega)]
      omega
    rw [bitmapTest, hm _ hin]
    exact Or.inr (h.taken.resolve_left (by omega))
  · exact Or.inl hge

theorem Withheld.later {m₀ : Mem} {p₀ : Pmm} {live₀ : List Block} (h : Withheld q m₀ p₀ live₀)
    (hp : PmmBounds p₀) (hrun : PmmLater m₀ p₀ live₀ m p live) :
    PmmBounds p ∧ Withheld q m p live := by
  induction hrun with
  | now => exact ⟨hp, h⟩
  | alloc n _ ih => exact ⟨(pmmAlloc_effect ih.1 n).1, ih.2.alloc ih.1 n⟩
  | free _ hb ih => exact ih.2.free ih.1 hb
  | store _ hm ih => exact ⟨ih.1, ih.2.store ih.1 hm⟩

theorem Withheld.not_handsOut {a : ℕ} (h : Withheld (a / pageSize) m p live) (hp : PmmBounds p)
    (pages : ℕ) : ¬ HandsOut m p pages a := by
  rintro ⟨hne, hlo, hhi⟩
  have hnext := (h.alloc hp pages).unowned
  obtain ⟨-, -, ⟨hnull, -⟩ | ⟨c, hptr, -⟩⟩ := pmmAlloc_effect (m := m) hp pages
  · exact hne hnull
  · rw [granted, if_neg hne, hptr] at hnext
    rw [hptr] at hlo hhi
    refine hnext _ List.mem_cons_self ?_
    simp only [Block.span, page_mul_pageSize, Set.mem_ofPred_eq]
    unfold pageSize at *
    omega

def clearPagesOf (m : Mem) (p : Pmm) : Finset ℕ :=
  (Finset.range p.maxPages).filter fun c => bitmapTest m p c = false

theorem clearPagesOf_ssubset (hp : PmmBounds p) {a : ℕ} (ha : a < p.maxPages)
    (hclear : bitmapTest m p a = false) :
    clearPagesOf (setPages m p a 1) p ⊂ clearPagesOf m p := by
  have hmax := hp.maxPages_lt
  have hbits (c : ℕ) (hc : c < p.maxPages) : bitmapTest (setPages m p a 1) p c =
      (decide (a ≤ c ∧ c < a + 1) || bitmapTest m p c) :=
    bitmapTest_setPages m p (by omega) (by omega)
  refine Finset.ssubset_iff_subset_ne.mpr ⟨fun c hc => ?_, fun hall => ?_⟩
  · obtain ⟨hrange, hcclear⟩ := Finset.mem_filter.mp hc
    rw [hbits c (Finset.mem_range.mp hrange), Bool.or_eq_false_iff] at hcclear
    exact Finset.mem_filter.mpr ⟨hrange, hcclear.2⟩
  · have hmem : a ∈ clearPagesOf m p := Finset.mem_filter.mpr ⟨Finset.mem_range.mpr ha, hclear⟩
    rw [← hall] at hmem
    have hset := (Finset.mem_filter.mp hmem).2
    rw [hbits a ha, decide_eq_true ⟨le_refl a, Nat.lt_succ_self a⟩] at hset
    cases hset

theorem exists_pmmAlloc {m₀ : Mem} {p₀ : Pmm} {live₀ : List Block}
    (hrun : PmmLater m₀ p₀ live₀ m p live) (hp : PmmBounds p) (hq : q < p.maxPages)
    (hclear : bitmapTest m p q = false) :
    ∃ m' p' live', PmmLater m₀ p₀ live₀ m' p' live' ∧ (pmmAlloc m' p' 1).2.2 = q * pageSize := by
  obtain ⟨k, hk⟩ : ∃ k, (clearPagesOf m p).card = k := ⟨_, rfl⟩
  induction k using Nat.strongRecOn generalizing m p live with
  | ind k ih =>
      have hmax := hp.maxPages_lt
      rcases pmmAlloc_take_or_null m p Nat.one_pos with ⟨a, heq, hside, hfree⟩ | ⟨-, hnone⟩
      · have hle := hside.le_maxPages hp.hint_le
        have haclear : bitmapTest m p a = false :=
          clearBit_eq_true.mp (hfree.free_of_mem (le_refl a) (Nat.lt_succ_self a))
        by_cases haq : a = q
        · refine ⟨m, p, live, hrun, ?_⟩
          rw [heq, takePages_ptr m p (by omega), haq]
        · have hnext := hrun.alloc 1
          rw [heq] at hnext
          refine ih _ (hk ▸ Finset.card_lt_card (clearPagesOf_ssubset hp hle haclear)) hnext
            ⟨hp.maxPages_lt, hp.maxPages_le, hp.bitmapSize_lt, hle⟩ hq ?_ rfl
          change bitmapTest (setPages m p a 1) p q = false
          rw [bitmapTest_setPages m p (by omega) (by omega), hclear, Bool.or_false,
            decide_eq_false_iff_not]
          omega
      · have hsingle : FirstFit.IsRun (clearBit m p) q 1 := by
          intro j hj
          rw [Nat.lt_one_iff.mp hj, Nat.add_zero, clearBit_eq_true]
          exact hclear
        refine absurd hsingle (hnone q ?_)
        rcases Nat.lt_or_ge q p.lastFreePage with hlt | hge
        · exact Or.inr hlt
        · exact Or.inl ⟨hge, hq⟩

theorem exists_handsOut {a : ℕ} (hp : PmmBounds p) (hlt : a / pageSize < p.maxPages)
    (hne : a / pageSize ≠ 0) (hclear : bitmapTest m p (a / pageSize) = false) :
    ∃ m' p' live', PmmLater m p live m' p' live' ∧ HandsOut m' p' 1 a := by
  obtain ⟨m', p', live', hlater, hptr⟩ :=
    exists_pmmAlloc (.now : PmmLater m p live m p live) hp hlt hclear
  refine ⟨m', p', live', hlater, ?_, ?_, ?_⟩
  · rw [hptr]
    exact Nat.mul_ne_zero hne (by decide)
  · rw [hptr]
    exact Nat.div_mul_le_self _ _
  · rw [hptr, Nat.one_mul]
    exact Nat.lt_div_mul_add (by decide)

end System44
