import System44.E820

/-!
# The physical page allocator

`pmmInit`, `pmmAlloc` and `pmmFree` of the page allocator, over the memory that holds both the E820
table and the bitmap. The statics of the allocator are the fields of `Pmm`; one set bit of the
bitmap is one page that may not be handed out.
-/

namespace System44

/-- The file-level variables of the allocator. -/
structure Pmm where
  bitmap : ℕ
  bitmapSize : ℕ
  maxPages : ℕ
  lastFreePage : ℕ
  deriving DecidableEq

theorem Pmm.lastFreePage_mk (bitmap bitmapSize maxPages lastFreePage : ℕ) :
    (Pmm.mk bitmap bitmapSize maxPages lastFreePage).lastFreePage = lastFreePage := rfl

/-- Their values when the kernel starts. -/
def Pmm.boot : Pmm := ⟨0, 0, 0, 0⟩

def hhdmOffset : ℕ := 0xFFFF800000000000

/-- The sum is formed in 64 bits and truncated to a pointer. -/
def p2v (phys : ℕ) : ℕ := (phys + hhdmOffset) % 2 ^ 64 % 2 ^ 32

def v2p (virt : ℕ) : ℕ := (virt + (2 ^ 64 - hhdmOffset)) % 2 ^ 64 % 2 ^ 32

def bitmapSet (m : Mem) (p : Pmm) (bit : ℕ) : Mem :=
  m.set (p.bitmap + bit / 8) (m.get (p.bitmap + bit / 8) ||| 1#8 <<< (bit % 8))

def bitmapClear (m : Mem) (p : Pmm) (bit : ℕ) : Mem :=
  m.set (p.bitmap + bit / 8) (m.get (p.bitmap + bit / 8) &&& ~~~(1#8 <<< (bit % 8)))

def bitmapTest (m : Mem) (p : Pmm) (bit : ℕ) : Bool :=
  m.get (p.bitmap + bit / 8) &&& 1#8 <<< (bit % 8) != 0#8

/-- `for (j = 0; j < pages; j++) BITMAP_SET(start + j)`. -/
def setPages (m : Mem) (p : Pmm) (start : ℕ) : ℕ → Mem
  | 0 => m
  | j + 1 => bitmapSet (setPages m p start j) p (start + j)

/-- `for (j = 0; j < pages; j++) if (start + j < max_pages) BITMAP_CLEAR(start + j)`. -/
def clearPages (m : Mem) (p : Pmm) (start : ℕ) : ℕ → Mem
  | 0 => m
  | j + 1 =>
    let m := clearPages m p start j
    if start + j < p.maxPages then bitmapClear m p (start + j) else m

inductive PmmError where
  | noMap
  | noUsable
  | noLocation
  deriving DecidableEq

def PmmError.message : PmmError → String
  | .noMap => "[pmm] ERROR: no memory map tag found\n"
  | .noUsable => "[pmm] ERROR: no usable memory regions found in map\n"
  | .noLocation => "[pmm] ERROR: could not find safe location for bitmap\n"

/-- `base + length` in 32 bits, where each addend is itself the sum of a low and a high half. -/
def E820Entry.regionEnd (e : E820Entry) : ℕ :=
  (e.baseLow + e.baseHigh + (e.lengthLow + e.lengthHigh)).toNat

def maxAddrStep (maxAddr : ℕ) (e : E820Entry) : ℕ :=
  if e.Usable then if maxAddr < e.regionEnd then e.regionEnd else maxAddr else maxAddr

def maxAddr (m : Mem) : ℕ := (readMap m).foldl maxAddrStep 0

def bitmapBytes (maxPages : ℕ) : ℕ :=
  if maxPages % 8 ≠ 0 then maxPages / 8 + 1 else maxPages / 8

def E820Entry.canHold (size floor : ℕ) (e : E820Entry) : Bool :=
  decide (e.Usable ∧ size ≤ e.lengthLow.toNat ∧ floor ≤ e.baseLow.toNat)

/-- The first entry above 1 MiB with room for the bitmap, else the first one not at address 0. -/
def findBitmap (m : Mem) (size : ℕ) : Option E820Entry :=
  match (readMap m).find? (E820Entry.canHold size 0x100000) with
  | some e => some e
  | none => (readMap m).find? (E820Entry.canHold size 1)

def E820Entry.startPage (e : E820Entry) : ℕ := e.baseLow.toNat / pageSize

def E820Entry.pageCount (e : E820Entry) : ℕ := e.lengthLow.toNat / pageSize

def markEntry (m : Mem) (p : Pmm) (e : E820Entry) : Mem :=
  if e.Usable then clearPages m p e.startPage e.pageCount else m

/-- The count is a 16-bit word. -/
def countLimit : ℕ := 2 ^ 16

/-- The marking loop. It reads the count and the current entry anew at every iteration, so it sees
what it has itself stored; `fuel` only bounds the number of iterations. -/
def markUsable (p : Pmm) : ℕ → ℕ → Mem → Mem
  | 0, _, m => m
  | fuel + 1, i, m =>
    if i < readCount m then markUsable p fuel (i + 1) (markEntry m p (readEntry m i)) else m

def bitmapStartPage (p : Pmm) : ℕ := v2p p.bitmap / pageSize

def bitmapPageCount (p : Pmm) : ℕ :=
  if p.bitmapSize % pageSize ≠ 0 then p.bitmapSize / pageSize + 1 else p.bitmapSize / pageSize

def placeBitmap (m : Mem) (p : Pmm) (e : E820Entry) : Pmm :=
  { p with
    maxPages := maxAddr m / pageSize
    bitmapSize := bitmapBytes (maxAddr m / pageSize)
    bitmap := p2v e.baseLow.toNat }

def fillBitmap (m : Mem) (p : Pmm) : Mem := m.blit p.bitmap p.bitmapSize fun _ => 0xFF#8

def reserveBitmap (m : Mem) (p : Pmm) : Mem :=
  bitmapSet (setPages m p (bitmapStartPage p) (bitmapPageCount p)) p 0

def pmmInit (m : Mem) (p : Pmm) : Mem × Pmm × Option PmmError :=
  if mmapAddr = 0 then (m, p, some .noMap)
  else if maxAddr m = 0 then (m, p, some .noUsable)
  else
    let maxPages := maxAddr m / pageSize
    let bitmapSize := bitmapBytes maxPages
    match findBitmap m bitmapSize with
    | none => (m, { p with maxPages := maxPages, bitmapSize := bitmapSize }, some .noLocation)
    | some e =>
      let p := placeBitmap m p e
      (reserveBitmap (markUsable p countLimit 0 (fillBitmap m p)) p, p, none)

/-- `while (...) i += 32`. Every step raises `i`, and `full` fails past the bitmap's whole words,
so `fuel` is never the reason to stop. -/
def skipWords (full : ℕ → Bool) : ℕ → ℕ → ℕ
  | 0, i => i
  | fuel + 1, i => if full i then skipWords full fuel (i + 32) else i

/-- One `for` loop of `pmm_alloc`, up to the first run of `pages` clear bits. -/
def searchPass (full taken : ℕ → Bool) (limit pages : ℕ) : ℕ → ℕ → ℕ → ℕ → Option ℕ
  | 0, _, _, _ => none
  | fuel + 1, i, consecutive, startBit =>
    if i < limit then
      let i := if i % 32 = 0 ∧ consecutive = 0 then skipWords full limit i else i
      if limit ≤ i then none
      else if !taken i then
        let startBit := if consecutive = 0 then i else startBit
        if consecutive + 1 = pages then some startBit
        else searchPass full taken limit pages fuel (i + 1) (consecutive + 1) startBit
      else searchPass full taken limit pages fuel (i + 1) 0 startBit
    else none

/-- `i / 32 < max_words && bitmap_words[i / 32] == (uint32_t)-1`. -/
def fullWord (m : Mem) (p : Pmm) (i : ℕ) : Bool :=
  decide (i / 32 < p.maxPages / 32) && m.load32 (p.bitmap + 4 * (i / 32)) == BitVec.allOnes 32

def firstPass (m : Mem) (p : Pmm) (pages : ℕ) : Option ℕ :=
  searchPass (fullWord m p) (bitmapTest m p) p.maxPages pages p.maxPages p.lastFreePage 0 0

/-- The second pass stops at the hint, and so do its word skips. -/
def secondPass (m : Mem) (p : Pmm) (pages searchLimit : ℕ) : Option ℕ :=
  searchPass (fun i => decide (i + 32 ≤ searchLimit) && fullWord m p i) (bitmapTest m p)
    searchLimit pages searchLimit 0 0 0

/-- Mark the run that was found, move the hint behind it and return its address. -/
def takePages (m : Mem) (p : Pmm) (startBit pages : ℕ) : Mem × Pmm × ℕ :=
  (setPages m p startBit pages, { p with lastFreePage := startBit + pages },
    startBit * pageSize % 2 ^ 32)

/-- The returned pointer is 0 for `NULL`. -/
def pmmAlloc (m : Mem) (p : Pmm) (pages : ℕ) : Mem × Pmm × ℕ :=
  if pages = 0 then (m, p, 0)
  else
    match firstPass m p pages with
    | some startBit => takePages m p startBit pages
    | none =>
      if 0 < p.lastFreePage then
        match secondPass m p pages p.lastFreePage with
        | some startBit => takePages m p startBit pages
        | none => (m, { p with lastFreePage := 0 }, 0)
      else (m, p, 0)

def pmmFree (m : Mem) (p : Pmm) (ptr pages : ℕ) : Mem × Pmm :=
  if ptr = 0 then (m, p)
  else
    let startBit := ptr / pageSize
    (clearPages m p startBit pages,
      if startBit < p.lastFreePage then { p with lastFreePage := startBit } else p)

theorem p2v_eq {a : ℕ} (h : a < 2 ^ 32) : p2v a = a := by
  unfold p2v hhdmOffset
  omega

theorem v2p_eq {a : ℕ} (h : a < 2 ^ 32) : v2p a = a := by
  unfold v2p hhdmOffset
  omega

theorem bitmapTest_eq (m : Mem) (p : Pmm) (bit : ℕ) :
    bitmapTest m p bit = (m.get (p.bitmap + bit / 8)).getLsbD (bit % 8) := by
  have hne : BitVec.twoPow 8 (bit % 8) ≠ 0#8 := by
    intro h
    have hbit := congrArg (fun v => BitVec.getLsbD v (bit % 8)) h
    simp [Nat.mod_lt] at hbit
  unfold bitmapTest
  rw [← BitVec.twoPow_eq, BitVec.and_twoPow]
  cases h : (m.get (p.bitmap + bit / 8)).getLsbD (bit % 8) <;> simp [hne]

theorem byteAddr_eq_iff (base : ℕ) {b c : ℕ} (hb : b < 2 ^ 35) (hc : c < 2 ^ 35) :
    (base + c / 8) % 2 ^ 32 = (base + b / 8) % 2 ^ 32 ↔ c / 8 = b / 8 := by
  omega

theorem bitmapTest_bitmapSet (m : Mem) (p : Pmm) {b c : ℕ} (hb : b < 2 ^ 35) (hc : c < 2 ^ 35) :
    bitmapTest (bitmapSet m p b) p c = (decide (c = b) || bitmapTest m p c) := by
  rw [bitmapTest_eq, bitmapTest_eq, bitmapSet, Mem.get_set, ← BitVec.twoPow_eq]
  by_cases h : c / 8 = b / 8
  · rw [if_pos ((byteAddr_eq_iff _ hb hc).mpr h), h, BitVec.getLsbD_or, BitVec.getLsbD_twoPow]
    have hbit : (b % 8 = c % 8) ↔ (c = b) := by omega
    simp [Nat.mod_lt, hbit, Bool.or_comm]
  · rw [if_neg (fun he => h ((byteAddr_eq_iff _ hb hc).mp he))]
    have hne : c ≠ b := fun he => h (by rw [he])
    simp [hne]

theorem bitmapTest_bitmapClear (m : Mem) (p : Pmm) {b c : ℕ} (hb : b < 2 ^ 35)
    (hc : c < 2 ^ 35) :
    bitmapTest (bitmapClear m p b) p c = (!decide (c = b) && bitmapTest m p c) := by
  rw [bitmapTest_eq, bitmapTest_eq, bitmapClear, Mem.get_set, ← BitVec.twoPow_eq]
  by_cases h : c / 8 = b / 8
  · rw [if_pos ((byteAddr_eq_iff _ hb hc).mpr h), h, BitVec.getLsbD_and, BitVec.getLsbD_not,
      BitVec.getLsbD_twoPow]
    have hbit : (b % 8 = c % 8) ↔ (c = b) := by omega
    simp [Nat.mod_lt, hbit, Bool.and_comm]
  · rw [if_neg (fun he => h ((byteAddr_eq_iff _ hb hc).mp he))]
    have hne : c ≠ b := fun he => h (by rw [he])
    simp [hne]

theorem bitmapTest_setPages (m : Mem) (p : Pmm) {start n c : ℕ} (hn : start + n ≤ 2 ^ 35)
    (hc : c < 2 ^ 35) :
    bitmapTest (setPages m p start n) p c =
      (decide (start ≤ c ∧ c < start + n) || bitmapTest m p c) := by
  induction n with
  | zero => simp [setPages]
  | succ n ih =>
      rw [setPages, bitmapTest_bitmapSet _ p (by omega) hc, ih (by omega), ← Bool.or_assoc]
      congr 1
      rw [← Bool.decide_or, decide_eq_decide]
      omega

theorem bitmapTest_clearPages (m : Mem) (p : Pmm) {start n c : ℕ} (hp : p.maxPages ≤ 2 ^ 35)
    (hc : c < 2 ^ 35) :
    bitmapTest (clearPages m p start n) p c =
      (!decide (start ≤ c ∧ c < start + n ∧ c < p.maxPages) && bitmapTest m p c) := by
  induction n with
  | zero =>
      have hno : ¬ (start ≤ c ∧ c < start + 0 ∧ c < p.maxPages) := by omega
      rw [clearPages, decide_eq_false hno, Bool.not_false, Bool.true_and]
  | succ n ih =>
      simp only [clearPages]
      by_cases hlt : start + n < p.maxPages
      · rw [if_pos hlt, bitmapTest_bitmapClear _ p (by omega) hc, ih, ← Bool.and_assoc]
        congr 1
        rw [← Bool.not_or, ← Bool.decide_or]
        congr 1
        rw [decide_eq_decide]
        omega
      · rw [if_neg hlt, ih]
        congr 2
        rw [decide_eq_decide]
        omega

end System44
