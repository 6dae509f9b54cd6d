import System44.Pmm

/-!
# What `pmm_init` leaves behind

When initialisation succeeds, a page below `maxPages` has a clear bit exactly when some usable entry
seen by the marking loop claims it through the low halves of its base and length, and the page is
neither page 0 nor one of the pages counted for the bitmap. The entries seen by the loop are those
of the firmware's table unless the bitmap was put on top of the table.
-/

namespace System44

/-- The address lies in the bytes of the bitmap. -/
def InBitmap (p : Pmm) (a : ℕ) : Prop := Mem.offset p.bitmap a < p.bitmapSize

/-- The pages an entry makes free: both halves of the computation drop the high words, and base
and length are rounded down to pages separately. -/
def E820Entry.Claims (e : E820Entry) (page : ℕ) : Prop :=
  e.startPage ≤ page ∧ page < e.startPage + e.pageCount

instance (e : E820Entry) (page : ℕ) : Decidable (e.Claims page) :=
  inferInstanceAs (Decidable (_ ∧ _))

/-- The pages `pmm_init` reserves for the bitmap. -/
def BitmapPage (p : Pmm) (page : ℕ) : Prop :=
  bitmapStartPage p ≤ page ∧ page < bitmapStartPage p + bitmapPageCount p

instance (p : Pmm) (page : ℕ) : Decidable (BitmapPage p page) :=
  inferInstanceAs (Decidable (_ ∧ _))

/-- The entries the marking loop reads, in the order in which it reads them. -/
def seenEntries (p : Pmm) : ℕ → ℕ → Mem → List E820Entry
  | 0, _, _ => []
  | fuel + 1, i, m =>
    if i < readCount m then
      readEntry m i :: seenEntries p fuel (i + 1) (markEntry m p (readEntry m i))
    else []

theorem le_foldl_maxAddrStep (l : List E820Entry) (acc : ℕ) :
    acc ≤ l.foldl maxAddrStep acc ∧ ∀ e ∈ l, e.Usable → e.regionEnd ≤ l.foldl maxAddrStep acc := by
  induction l generalizing acc with
  | nil => exact ⟨Nat.le_refl acc, fun e he => absurd he List.not_mem_nil⟩
  | cons a l ih =>
      obtain ⟨hacc, hl⟩ := ih (maxAddrStep acc a)
      have hstep : acc ≤ maxAddrStep acc a ∧ (a.Usable → a.regionEnd ≤ maxAddrStep acc a) := by
        unfold maxAddrStep
        split
        · split <;> omega
        · exact ⟨Nat.le_refl acc, fun hu => absurd hu (by assumption)⟩
      refine ⟨hstep.1.trans hacc, ?_⟩
      intro e he hu
      rcases List.mem_cons.mp he with rfl | he
      · exact (hstep.2 hu).trans hacc
      · exact hl e he hu

theorem foldl_maxAddrStep_lt (l : List E820Entry) {acc : ℕ} (hacc : acc < 2 ^ 32) :
    l.foldl maxAddrStep acc < 2 ^ 32 := by
  induction l generalizing acc with
  | nil => exact hacc
  | cons a l ih =>
      apply ih
      have ha : a.regionEnd < 2 ^ 32 := BitVec.isLt _
      unfold maxAddrStep
      split
      · split
        · exact ha
        · exact hacc
      · exact hacc

theorem foldl_maxAddrStep_attained (l : List E820Entry) (acc : ℕ) :
    l.foldl maxAddrStep acc = acc ∨ ∃ e ∈ l, e.Usable ∧ e.regionEnd = l.foldl maxAddrStep acc := by
  induction l generalizing acc with
  | nil => exact Or.inl rfl
  | cons a l ih =>
      rw [List.foldl_cons]
      rcases ih (maxAddrStep acc a) with hacc | ⟨e, he, hu, heq⟩
      · rw [hacc]
        unfold maxAddrStep
        split
        · rename_i hu
          split
          · exact Or.inr ⟨a, List.mem_cons_self, hu, rfl⟩
          · exact Or.inl rfl
        · exact Or.inl rfl
      · exact Or.inr ⟨e, List.mem_cons_of_mem a he, hu, heq⟩

theorem maxAddr_lt (m : Mem) : maxAddr m < 2 ^ 32 := foldl_maxAddrStep_lt _ (by decide)

theorem regionEnd_le_maxAddr {m : Mem} {e : E820Entry} (he : e ∈ readMap m) (hu : e.Usable) :
    e.regionEnd ≤ maxAddr m := (le_foldl_maxAddrStep (readMap m) 0).2 e he hu

theorem exists_regionEnd_eq_maxAddr {m : Mem} (h : maxAddr m ≠ 0) :
    ∃ e ∈ readMap m, e.Usable ∧ e.regionEnd = maxAddr m :=
  (foldl_maxAddrStep_attained (readMap m) 0).resolve_left h

theorem le_bitmapBytes (n : ℕ) : n ≤ 8 * bitmapBytes n := by
  unfold bitmapBytes
  split <;> omega

theorem findBitmap_spec {m : Mem} {size : ℕ} {e : E820Entry} (h : findBitmap m size = some e) :
    e ∈ readMap m ∧ e.Usable ∧ size ≤ e.lengthLow.toNat ∧ 1 ≤ e.baseLow.toNat := by
  unfold findBitmap at h
  cases hhigh : (readMap m).find? (E820Entry.canHold size 0x100000) with
  | some f =>
      simp only [hhigh, Option.some.injEq] at h
      subst h
      have hf := List.find?_some hhigh
      rw [E820Entry.canHold, decide_eq_true_iff] at hf
      obtain ⟨hu, hlen, hbase⟩ := hf
      exact ⟨List.mem_of_find?_eq_some hhigh, hu, hlen, by omega⟩
  | none =>
      simp only [hhigh] at h
      have hf := List.find?_some h
      rw [E820Entry.canHold, decide_eq_true_iff] at hf
      exact ⟨List.mem_of_find?_eq_some h, hf⟩

/-- The memory when the marking loop is entered, and what it holds when the function returns. -/
theorem pmmInit_success {m m' : Mem} {p p' : Pmm} (h : pmmInit m p = (m', p', none)) :
    ∃ e, findBitmap m p'.bitmapSize = some e ∧ p' = placeBitmap m p e ∧
      m' = reserveBitmap (markUsable p' countLimit 0 (fillBitmap m p')) p' := by
  unfold pmmInit at h
  rw [if_neg (by decide)] at h
  by_cases hzero : maxAddr m = 0
  · simp [hzero] at h
  · rw [if_neg hzero] at h
    cases hfind : findBitmap m (bitmapBytes (maxAddr m / pageSize)) with
    | none => simp [hfind] at h
    | some e =>
        simp only [hfind, Prod.mk.injEq] at h
        obtain ⟨hm, hp, _⟩ := h
        subst hp
        exact ⟨e, hfind, rfl, hm.symm⟩

theorem pmmInit_maxAddr_ne_zero {m m' : Mem} {p p' : Pmm} (h : pmmInit m p = (m', p', none)) :
    maxAddr m ≠ 0 := by
  intro hzero
  unfold pmmInit at h
  rw [if_neg (by decide), if_pos hzero] at h
  simp at h

section

variable {m m' : Mem} {p : Pmm} {e : E820Entry}

@[simp] theorem placeBitmap_bitmap : (placeBitmap m p e).bitmap = e.baseLow.toNat :=
  p2v_eq e.baseLow.isLt

theorem placeBitmap_lastFreePage : (placeBitmap m p e).lastFreePage = p.lastFreePage := by
  unfold placeBitmap
  exact Pmm.lastFreePage_mk _ _ _ _

theorem placeBitmap_maxPages : (placeBitmap m p e).maxPages = maxAddr m / pageSize := rfl

theorem placeBitmap_bitmapSize :
    (placeBitmap m p e).bitmapSize = bitmapBytes (placeBitmap m p e).maxPages := rfl

theorem placeBitmap_maxPages_lt : (placeBitmap m p e).maxPages < 2 ^ 20 := by
  have h := maxAddr_lt m
  rw [placeBitmap_maxPages, pageSize]
  omega

theorem placeBitmap_maxPages_le :
    (placeBitmap m p e).maxPages ≤ 8 * (placeBitmap m p e).bitmapSize := le_bitmapBytes _

theorem placeBitmap_bitmapSize_lt : (placeBitmap m p e).bitmapSize < 2 ^ 20 := by
  have h := placeBitmap_maxPages_lt (m := m) (p := p) (e := e)
  rw [placeBitmap_bitmapSize, bitmapBytes]
  split <;> omega

theorem bitmapStartPage_placeBitmap :
    bitmapStartPage (placeBitmap m p e) = e.baseLow.toNat / pageSize := by
  rw [bitmapStartPage, placeBitmap_bitmap, v2p_eq e.baseLow.isLt]

theorem bitmapPageCount_placeBitmap_lt : bitmapPageCount (placeBitmap m p e) < 2 ^ 20 := by
  have h := placeBitmap_bitmapSize_lt (m := m) (p := p) (e := e)
  unfold bitmapPageCount pageSize
  split <;> omega

end

section

variable {p : Pmm}

theorem get_clearPages (hp : p.maxPages ≤ 8 * p.bitmapSize) (hsize : p.bitmapSize ≤ 2 ^ 32)
    (m : Mem) (start n : ℕ) {a : ℕ} (ha : ¬ InBitmap p a) :
    (clearPages m p start n).get a = m.get a := by
  induction n with
  | zero => rfl
  | succ n ih =>
      simp only [clearPages]
      split
      · rename_i hlt
        rw [bitmapClear, Mem.get_set_of_ne _ _ ?_, ih]
        intro he
        apply ha
        have ho := (Mem.offset_eq_iff p.bitmap a (i := (start + n) / 8) (by omega)).mpr he
        rw [InBitmap, ho]
        omega
      · exact ih

theorem get_markEntry (hp : p.maxPages ≤ 8 * p.bitmapSize) (hsize : p.bitmapSize ≤ 2 ^ 32)
    (m : Mem) (e : E820Entry) {a : ℕ} (ha : ¬ InBitmap p a) :
    (markEntry m p e).get a = m.get a := by
  unfold markEntry
  split
  · exact get_clearPages hp hsize m _ _ ha
  · rfl

theorem bitmapTest_markEntry (hp : p.maxPages ≤ 2 ^ 35) (m : Mem) (e : E820Entry) {q : ℕ}
    (hq : q < 2 ^ 35) :
    bitmapTest (markEntry m p e) p q = false ↔
      bitmapTest m p q = false ∨ e.Usable ∧ e.Claims q ∧ q < p.maxPages := by
  unfold markEntry
  by_cases hu : e.Usable
  · rw [if_pos hu, bitmapTest_clearPages m p hp hq, Bool.and_eq_false_iff, Bool.not_eq_false',
      decide_eq_true_iff, or_comm]
    simp only [hu, E820Entry.Claims, and_assoc, true_and]
  · rw [if_neg hu]
    simp only [hu, false_and, or_false]

theorem bitmapTest_markUsable (hp : p.maxPages ≤ 2 ^ 35) {q : ℕ} (hq : q < 2 ^ 35)
    (fuel i : ℕ) (m : Mem) :
    bitmapTest (markUsable p fuel i m) p q = false ↔
      bitmapTest m p q = false ∨
        ∃ e ∈ seenEntries p fuel i m, e.Usable ∧ e.Claims q ∧ q < p.maxPages := by
  induction fuel generalizing i m with
  | zero => simp [markUsable, seenEntries]
  | succ fuel ih =>
      unfold markUsable seenEntries
      split
      · simp only [ih, bitmapTest_markEntry hp _ _ hq, List.mem_cons, exists_eq_or_imp, or_assoc]
      · simp

theorem seenEntries_eq (hp : p.maxPages ≤ 8 * p.bitmapSize) (hsize : p.bitmapSize ≤ 2 ^ 32)
    {m : Mem} (hoff : ∀ a, InTable m a → ¬ InBitmap p a) (fuel i : ℕ) (m₁ : Mem)
    (hm : ∀ a, InTable m a → m.get a = m₁.get a) (hfuel : readCount m ≤ i + fuel) :
    seenEntries p fuel i m₁ = (List.range' i (readCount m - i)).map (readEntry m) := by
  induction fuel generalizing i m₁ with
  | zero =>
      rw [show readCount m - i = 0 by omega]
      rfl
  | succ fuel ih =>
      rw [seenEntries, readCount_eq_of_table hm]
      by_cases hi : i < readCount m
      · have hread : readEntry m₁ i = readEntry m i := readEntry_eq_of_table hm hi
        have hstep : ∀ a, InTable m a →
            m.get a = (markEntry m₁ p (readEntry m₁ i)).get a := by
          intro a ha
          rw [get_markEntry hp hsize _ _ (hoff a ha)]
          exact hm a ha
        rw [if_pos hi, ih (i + 1) _ hstep (by omega), hread,
          show readCount m - i = readCount m - (i + 1) + 1 by omega, List.range'_succ,
          List.map_cons]
      · rw [if_neg hi, show readCount m - i = 0 by omega]
        rfl

end

theorem bitmapTest_fillBitmap (m : Mem) (p : Pmm) (hsize : p.bitmapSize ≤ 2 ^ 32) {q : ℕ}
    (hq : q < 8 * p.bitmapSize) : bitmapTest (fillBitmap m p) p q = true := by
  rw [bitmapTest_eq, fillBitmap, Mem.get_blit_add m p.bitmap _ hsize (by omega)]
  have hbits : ∀ k : Fin 8, BitVec.getLsbD 0xFF#8 k = true := by decide
  exact hbits ⟨q % 8, Nat.mod_lt _ (by decide)⟩

theorem bitmapTest_reserveBitmap (m : Mem) (p : Pmm)
    (hlt : bitmapStartPage p + bitmapPageCount p ≤ 2 ^ 35) {q : ℕ} (hq : q < 2 ^ 35) :
    bitmapTest (reserveBitmap m p) p q = false ↔
      q ≠ 0 ∧ ¬ BitmapPage p q ∧ bitmapTest m p q = false := by
  rw [reserveBitmap, bitmapTest_bitmapSet _ p (by omega) hq, bitmapTest_setPages m p hlt hq,
    Bool.or_eq_false_iff, Bool.or_eq_false_iff, decide_eq_false_iff_not, decide_eq_false_iff_not]
  rfl

/-- The entries seen by the marking loop of a successful initialisation. -/
def markedEntries (m : Mem) (p : Pmm) : List E820Entry :=
  seenEntries p countLimit 0 (fillBitmap m p)

section

variable {m m' : Mem} {p p' : Pmm} (h : pmmInit m p = (m', p', none))

include h

theorem pmmInit_maxPages : p'.maxPages = maxAddr m / pageSize := by
  obtain ⟨e, _, rfl, _⟩ := pmmInit_success h
  exact placeBitmap_maxPages

theorem pmmInit_maxPages_lt : p'.maxPages < 2 ^ 20 := by
  obtain ⟨e, _, rfl, _⟩ := pmmInit_success h
  exact placeBitmap_maxPages_lt

theorem pmmInit_maxPages_le : p'.maxPages ≤ 8 * p'.bitmapSize := by
  obtain ⟨e, _, rfl, _⟩ := pmmInit_success h
  exact placeBitmap_maxPages_le

theorem pmmInit_bitmapSize_lt : p'.bitmapSize < 2 ^ 20 := by
  obtain ⟨e, _, rfl, _⟩ := pmmInit_success h
  exact placeBitmap_bitmapSize_lt

theorem pmmInit_lastFreePage : p'.lastFreePage = p.lastFreePage := by
  obtain ⟨e, _, rfl, _⟩ := pmmInit_success h
  exact placeBitmap_lastFreePage

/-- The free map on return, exactly. -/
theorem pmmInit_clear_iff {q : ℕ} (hq : q < 8 * p'.bitmapSize) :
    bitmapTest m' p' q = false ↔ q ≠ 0 ∧ ¬ BitmapPage p' q ∧
      ∃ e ∈ markedEntries m p', e.Usable ∧ e.Claims q ∧ q < p'.maxPages := by
  have hmax := pmmInit_maxPages_lt h
  have hsize := pmmInit_bitmapSize_lt h
  obtain ⟨e, hfind, hplace, hmem⟩ := pmmInit_success h
  have hreserve : bitmapStartPage p' + bitmapPageCount p' ≤ 2 ^ 35 := by
    have hcount := bitmapPageCount_placeBitmap_lt (m := m) (p := p) (e := e)
    have hbase := e.baseLow.isLt
    rw [hplace, bitmapStartPage_placeBitmap, pageSize]
    omega
  have hfill := bitmapTest_fillBitmap m p' (by omega) hq
  rw [hmem, bitmapTest_reserveBitmap _ p' hreserve (by omega),
    bitmapTest_markUsable (by omega) (by omega), hfill]
  simp only [Bool.true_eq_false, false_or, markedEntries]

theorem markedEntries_eq_readMap (hoff : ∀ a, InTable m a → ¬ InBitmap p' a) :
    markedEntries m p' = readMap m := by
  have hsize := pmmInit_bitmapSize_lt h
  have hcount := readCount_lt m
  rw [markedEntries, seenEntries_eq (pmmInit_maxPages_le h) (by omega) hoff countLimit 0 _ ?_
    (by unfold countLimit; omega), Nat.sub_zero, ← List.range_eq_range', readMap]
  intro a ha
  rw [fillBitmap, Mem.get_blit_of_le m _ (by omega) (Nat.not_lt.mp (hoff a ha))]

end

end System44
