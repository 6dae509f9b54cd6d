import System44.Ledger
import System44.PmmInit
import System44.PmmSearch

/-!
# Runs of the page allocator

A run starts from the state in which `pmm_init` returned and takes any number of allocations and of
frees of live blocks; between the calls the rest of the kernel may store anywhere outside the
bitmap. Every state of a run refines a ledger of pages: a bit is set exactly when its page is owned,
either because it was reserved at the start or because a live block covers it.
-/

namespace System44

/-- A block handed out by `pmm_alloc`, with the page count it was asked for. -/
structure Block where
  ptr : ℕ
  pages : ℕ
  deriving DecidableEq

namespace Block

variable (b : Block)

def page : ℕ := b.ptr / pageSize

def span : Set ℕ := {q | b.page ≤ q ∧ q < b.page + b.pages}

structure WellPlaced (maxPages : ℕ) : Prop where
  one_le : 1 ≤ b.page
  le_maxPages : b.page + b.pages ≤ maxPages
  ptr_eq : b.ptr = b.page * pageSize

end Block

def granted (ptr pages : ℕ) (live : List Block) : List Block :=
  if ptr = 0 then live else ⟨ptr, pages⟩ :: live

/-- Runs that go on from a state of the allocator and its live blocks. -/
inductive PmmLater (m₀ : Mem) (p₀ : Pmm) (live₀ : List Block) : Mem → Pmm → List Block → Prop
  | now : PmmLater m₀ p₀ live₀ m₀ p₀ live₀
  | alloc {m p live} (pages : ℕ) (hrun : PmmLater m₀ p₀ live₀ m p live) :
      PmmLater m₀ p₀ live₀ (pmmAlloc m p pages).1 (pmmAlloc m p pages).2.1
        (granted (pmmAlloc m p pages).2.2 pages live)
  | free {m p live b} (hrun : PmmLater m₀ p₀ live₀ m p live) (hb : b ∈ live) :
      PmmLater m₀ p₀ live₀ (pmmFree m p b.ptr b.pages).1 (pmmFree m p b.ptr b.pages).2
        (live.erase b)
  | store {m p live m'} (hrun : PmmLater m₀ p₀ live₀ m p live)
      (hm : ∀ a, InBitmap p a → m'.get a = m.get a) : PmmLater m₀ p₀ live₀ m' p live

/-- Runs from the beginning, when nothing has been handed out. -/
abbrev PmmRun (m₀ : Mem) (p₀ : Pmm) : Mem → Pmm → List Block → Prop := PmmLater m₀ p₀ []

theorem PmmRun.init {m₀ : Mem} {p₀ : Pmm} : PmmRun m₀ p₀ m₀ p₀ [] := .now

def reservedPages (m : Mem) (p : Pmm) : Set ℕ := {q | q < p.maxPages ∧ bitmapTest m p q = true}

/-- What the allocator's variables satisfy in every run. -/
structure PmmBounds (p : Pmm) : Prop where
  maxPages_lt : p.maxPages < 2 ^ 20
  maxPages_le : p.maxPages ≤ 8 * p.bitmapSize
  bitmapSize_lt : p.bitmapSize < 2 ^ 20
  hint_le : p.lastFreePage ≤ p.maxPages

/-- What a run needs of the state it starts from. -/
structure PmmReady (m : Mem) (p : Pmm) : Prop extends PmmBounds p where
  page_zero : 0 < p.maxPages → bitmapTest m p 0 = true

/-- The state of the allocator refines the ledger `L`. -/
structure PmmInv (m₀ : Mem) (p₀ : Pmm) (m : Mem) (p : Pmm) (L : Ledger Block.span) : Prop where
  bitmap_eq : p.bitmap = p₀.bitmap
  bitmapSize_eq : p.bitmapSize = p₀.bitmapSize
  maxPages_eq : p.maxPages = p₀.maxPages
  hint_le : p.lastFreePage ≤ p.maxPages
  reserved_eq : L.reserved = reservedPages m₀ p₀
  bits : ∀ q < p.maxPages, bitmapTest m p q = true ↔ q ∈ L.owned
  blocks : ∀ b ∈ L.live, b.WellPlaced p.maxPages

theorem bitmapTest_congr_bitmap {p p' : Pmm} (h : p.bitmap = p'.bitmap) (m : Mem) (q : ℕ) :
    bitmapTest m p q = bitmapTest m p' q := by
  rw [bitmapTest, bitmapTest, h]

theorem pmmInit_ready {m m₁ : Mem} {p₁ : Pmm} (h : pmmInit m Pmm.boot = (m₁, p₁, none)) :
    PmmReady m₁ p₁ where
  maxPages_lt := pmmInit_maxPages_lt h
  maxPages_le := pmmInit_maxPages_le h
  bitmapSize_lt := pmmInit_bitmapSize_lt h
  hint_le := by
    rw [pmmInit_lastFreePage h]
    exact Nat.zero_le _
  page_zero hpos := by
    by_contra hclear
    have hle := pmmInit_maxPages_le h
    have hfree := (pmmInit_clear_iff h (q := 0) (by omega)).mp
      (Bool.eq_false_of_not_eq_true hclear)
    exact hfree.1 rfl

section

variable {m₀ m : Mem} {p₀ p : Pmm} {L : Ledger Block.span} {live : List Block}

theorem pmmInv_init (hready : PmmReady m₀ p₀) :
    PmmInv m₀ p₀ m₀ p₀ (Ledger.fresh Block.span (reservedPages m₀ p₀)) where
  bitmap_eq := rfl
  bitmapSize_eq := rfl
  maxPages_eq := rfl
  hint_le := hready.hint_le
  reserved_eq := rfl
  bits q hq := by
    rw [Ledger.owned_fresh]
    exact (and_iff_right hq).symm
  blocks b hb := absurd hb List.not_mem_nil

theorem PmmInv.bounds (hready : PmmReady m₀ p₀) (hinv : PmmInv m₀ p₀ m p L) : PmmBounds p where
  maxPages_lt := by
    rw [hinv.maxPages_eq]
    exact hready.maxPages_lt
  maxPages_le := by
    rw [hinv.maxPages_eq, hinv.bitmapSize_eq]
    exact hready.maxPages_le
  bitmapSize_lt := by
    rw [hinv.bitmapSize_eq]
    exact hready.bitmapSize_lt
  hint_le := hinv.hint_le

theorem PmmInv.clear_iff (hinv : PmmInv m₀ p₀ m p L) {q : ℕ} (hq : q < p.maxPages) :
    clearBit m p q = true ↔ q ∉ L.owned := by
  rw [clearBit_eq_true, ← hinv.bits q hq, Bool.not_eq_true]

theorem PmmInv.bit_eq_false_iff (hinv : PmmInv m₀ p₀ m p L) {q : ℕ} (hq : q < p.maxPages) :
    bitmapTest m p q = false ↔ q ∉ L.owned := by
  rw [← clearBit_eq_true, hinv.clear_iff hq]

theorem PmmInv.zero_owned (hready : PmmReady m₀ p₀) (hinv : PmmInv m₀ p₀ m p L)
    (hpos : 0 < p.maxPages) : 0 ∈ L.owned := by
  have hpos₀ : 0 < p₀.maxPages := hinv.maxPages_eq ▸ hpos
  rw [Ledger.mem_owned, hinv.reserved_eq]
  exact Or.inl ⟨hpos₀, hready.page_zero hpos₀⟩

theorem PmmInv.one_le_of_isRun (hready : PmmReady m₀ p₀) (hinv : PmmInv m₀ p₀ m p L) {a n : ℕ}
    (hn : 0 < n) (hle : a + n ≤ p.maxPages) (hrun : FirstFit.IsRun (clearBit m p) a n) :
    1 ≤ a := by
  by_contra hlt
  have hpos : 0 < p.maxPages := by omega
  have hclear := hrun.free_of_mem (p := 0) (by omega) (by omega)
  exact (hinv.clear_iff hpos).mp hclear (hinv.zero_owned hready hpos)

theorem OnOneSide.le_maxPages {a n : ℕ} (h : OnOneSide p a n)
    (hhint : p.lastFreePage ≤ p.maxPages) : a + n ≤ p.maxPages := by
  rcases h with ⟨_, h⟩ | h
  · exact h
  · exact h.trans hhint

theorem takePages_ptr (m : Mem) (p : Pmm) {a n : ℕ} (ha : a < 2 ^ 20) :
    (takePages m p a n).2.2 = a * pageSize := by
  have hlt : a * pageSize < 2 ^ 32 := by
    unfold pageSize
    omega
  exact Nat.mod_eq_of_lt hlt

theorem page_mul_pageSize (a n : ℕ) : (Block.mk (a * pageSize) n).page = a :=
  Nat.mul_div_cancel a (by decide)

theorem wellPlaced_mk {a n maxPages : ℕ} (ha : 1 ≤ a) (hle : a + n ≤ maxPages) :
    (Block.mk (a * pageSize) n).WellPlaced maxPages := by
  refine ⟨?_, ?_, ?_⟩ <;> rw [page_mul_pageSize]
  · exact ha
  · exact hle

/-- Taking a run of clear pages grants a block of the ledger. -/
theorem PmmInv.take (hready : PmmReady m₀ p₀) (hinv : PmmInv m₀ p₀ m p L) {a n : ℕ} (hn : 0 < n)
    (hle : a + n ≤ p.maxPages) (hrun : FirstFit.IsRun (clearBit m p) a n) :
    ∃ L', L'.live = ⟨a * pageSize, n⟩ :: L.live ∧
      PmmInv m₀ p₀ (takePages m p a n).1 (takePages m p a n).2.1 L' := by
  have hmax := (hinv.bounds hready).maxPages_lt
  have hpage := page_mul_pageSize a n
  have hspan : ∀ q, q ∈ (Block.mk (a * pageSize) n).span ↔ a ≤ q ∧ q < a + n := by
    intro q
    simp only [Block.span, hpage, Set.mem_ofPred_eq]
  have hfree : Disjoint (Block.mk (a * pageSize) n).span L.owned := by
    rw [Set.disjoint_left]
    intro q hq
    obtain ⟨haq, hqn⟩ := (hspan q).mp hq
    exact (hinv.clear_iff (by omega)).mp (hrun.free_of_mem haq hqn)
  refine ⟨L.grant _ hfree, rfl, hinv.bitmap_eq, hinv.bitmapSize_eq, hinv.maxPages_eq, hle,
    hinv.reserved_eq, ?_, ?_⟩
  · intro q hq
    change q < p.maxPages at hq
    rw [Ledger.mem_owned_grant, hspan q, ← hinv.bits q hq]
    change bitmapTest (setPages m p a n) p q = true ↔ _
    rw [bitmapTest_setPages m p (by omega) (by omega), Bool.or_eq_true, decide_eq_true_iff]
  · intro b hb
    rcases List.mem_cons.mp hb with rfl | hb
    · exact wellPlaced_mk (hinv.one_le_of_isRun hready hn hle hrun) hle
    · exact hinv.blocks b hb

/-- The hint plays no part in the ledger. -/
theorem PmmInv.hint (hinv : PmmInv m₀ p₀ m p L) {hint : ℕ} (hle : hint ≤ p.maxPages) :
    PmmInv m₀ p₀ m { p with lastFreePage := hint } L :=
  ⟨hinv.bitmap_eq, hinv.bitmapSize_eq, hinv.maxPages_eq, hle, hinv.reserved_eq, hinv.bits,
    hinv.blocks⟩

theorem PmmInv.alloc (hready : PmmReady m₀ p₀) (hinv : PmmInv m₀ p₀ m p L) (n : ℕ) :
    ∃ L', L'.live = granted (pmmAlloc m p n).2.2 n L.live ∧
      PmmInv m₀ p₀ (pmmAlloc m p n).1 (pmmAlloc m p n).2.1 L' := by
  rcases Nat.eq_zero_or_pos n with rfl | hn
  · exact ⟨L, rfl, hinv⟩
  · rcases pmmAlloc_take_or_null m p hn with ⟨a, heq, hside, hrun⟩ | ⟨heq, _⟩
    · have hle := hside.le_maxPages hinv.hint_le
      have hmax := (hinv.bounds hready).maxPages_lt
      have hone := hinv.one_le_of_isRun hready hn hle hrun
      have hptr : a * pageSize ≠ 0 := Nat.mul_ne_zero (by omega) (by decide)
      obtain ⟨L', hlive, hinv'⟩ := hinv.take hready hn hle hrun
      rw [heq, takePages_ptr m p (by omega)]
      exact ⟨L', by rw [hlive, granted, if_neg hptr], hinv'⟩
    · rw [heq]
      exact ⟨L, rfl, hinv.hint (Nat.zero_le _)⟩

theorem PmmInv.free (hready : PmmReady m₀ p₀) (hinv : PmmInv m₀ p₀ m p L) {b : Block}
    (hb : b ∈ L.live) :
    PmmInv m₀ p₀ (pmmFree m p b.ptr b.pages).1 (pmmFree m p b.ptr b.pages).2 (L.revoke b) := by
  have hmax := (hinv.bounds hready).maxPages_lt
  obtain ⟨hone, hle, hptr⟩ := hinv.blocks b hb
  have hne : b.ptr ≠ 0 := by
    rw [hptr]
    exact Nat.mul_ne_zero (by omega) (by decide)
  have hcleared : PmmInv m₀ p₀ (clearPages m p b.page b.pages) p (L.revoke b) := by
    refine ⟨hinv.bitmap_eq, hinv.bitmapSize_eq, hinv.maxPages_eq, hinv.hint_le, hinv.reserved_eq,
      ?_, fun c hc => hinv.blocks c (List.mem_of_mem_erase hc)⟩
    intro q hq
    rw [bitmapTest_clearPages m p (by omega) (by omega), Ledger.mem_owned_revoke hb,
      Bool.and_eq_true_iff, Bool.not_eq_true', decide_eq_false_iff_not, hinv.bits q hq]
    simp only [hq, and_true, Block.span, Set.mem_ofPred_eq]
  unfold pmmFree
  rw [if_neg hne]
  change PmmInv m₀ p₀ (clearPages m p b.page b.pages)
    (if b.page < p.lastFreePage then { p with lastFreePage := b.page } else p) (L.revoke b)
  split
  · exact hcleared.hint (by omega)
  · exact hcleared

theorem PmmInv.store (hready : PmmReady m₀ p₀) (hinv : PmmInv m₀ p₀ m p L) {m' : Mem}
    (hm : ∀ a, InBitmap p a → m'.get a = m.get a) : PmmInv m₀ p₀ m' p L := by
  refine ⟨hinv.bitmap_eq, hinv.bitmapSize_eq, hinv.maxPages_eq, hinv.hint_le, hinv.reserved_eq,
    ?_, hinv.blocks⟩
  intro q hq
  have hle := hready.maxPages_le
  have hsize := hready.bitmapSize_lt
  rw [← hinv.maxPages_eq, ← hinv.bitmapSize_eq] at hle
  rw [← hinv.bitmapSize_eq] at hsize
  have hin : InBitmap p (p.bitmap + q / 8) := by
    rw [InBitmap, Mem.offset_add _ (by omega)]
    omega
  rw [← hinv.bits q hq, bitmapTest, bitmapTest, hm _ hin]

/-- Every state of a run refines a ledger with the same live blocks. -/
theorem pmmRun_refines (hready : PmmReady m₀ p₀) (hrun : PmmRun m₀ p₀ m p live) :
    ∃ L : Ledger Block.span, L.live = live ∧ PmmInv m₀ p₀ m p L := by
  induction hrun with
  | now => exact ⟨_, rfl, pmmInv_init hready⟩
  | alloc n _ ih =>
      obtain ⟨L, rfl, hinv⟩ := ih
      exact hinv.alloc hready n
  | free _ hb ih =>
      obtain ⟨L, rfl, hinv⟩ := ih
      exact ⟨_, rfl, hinv.free hready hb⟩
  | store _ hm ih =>
      obtain ⟨L, rfl, hinv⟩ := ih
      exact ⟨L, rfl, hinv.store hready hm⟩

end

end System44
