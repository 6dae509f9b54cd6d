import System44.E820

/-!
# The memory map from the boot sector to the kernel

The boot sector asks the BIOS for one entry of the memory map at a time and lets it store every
answer behind the previous one, as far apart as `CX` says. The kernel reads the result with the
stride of its own `struct e820_entry`. A list of `Int15` is what the BIOS returns call after call.

The answers are stored below the boot stack, which holds the words that `mmap` has pushed and the
frame of the call to the BIOS. A run whose answers reach that frame has no way back to its caller,
and `le820` gives it no result.
-/

namespace System44

/-- One return from `int 0x15`: the flags and registers, and the bytes stored at `ES:DI`, which are
an entry and its extended attributes. -/
structure Int15 where
  carry : Bool
  eax : BitVec 32
  ebx : BitVec 32
  cx : BitVec 16
  entry : E820Entry
  attributes : BitVec 32
  deriving DecidableEq

def smap : BitVec 32 := 0x534D4150#32

def Int15.byte (r : Int15) (k : ℕ) : Byte :=
  if k < sizeofE820Entry then r.entry.byte k else leBytes r.attributes (k - sizeofE820Entry)

def Int15.size (r : Int15) : ℕ := r.cx.toNat

/-- The lowest word in use while the BIOS runs: the stack starts at `0x9000` and holds the return
address of `mmap`, its seven saved registers and the three words of the interrupt frame. -/
def bootStack : ℕ := 0x9000 - 2 * (1 + 7 + 3)

/-- The words that `.int12` stores from `MMAPADDR` on, `DX:AX` being the product of the `kb`
kilobytes of conventional memory with 1024. -/
def int12Word (kb : BitVec 16) : ℕ → ℕ
  | 4 => kb.toNat * 1024 % 2 ^ 16
  | 5 => kb.toNat * 1024 / 2 ^ 16
  | 8 => 1
  | _ => 0

def int12 (kb : BitVec 16) (m : Mem) : Mem :=
  (m.blit mmapAddr 24 fun k => BitVec.ofNat 8 (int12Word kb (k / 2) / 256 ^ (k % 2))).store16
    mmapCount 1

def le820 (kb : BitVec 16) : List Int15 → Mem → ℕ → ℕ → Option Mem
  | [], _, _, _ => none
  | r :: rest, m, di, si =>
    if r.carry then some (int12 kb m)
    else if bootStack < di + r.size then none
    else
      let m := m.blit di r.size r.byte
      if r.eax ≠ smap then some (int12 kb m)
      else
        let di := (di + r.size) % 2 ^ 16
        let si := (si + 1) % 2 ^ 16
        if r.ebx ≠ 0#32 then le820 kb rest m di si else some (m.store16 mmapCount si)

def mmap (kb : BitVec 16) (calls : List Int15) (m : Mem) : Option Mem :=
  le820 kb calls (m.store16 mmapCount 0) mmapAddr 0

def hexDigit (v : ℕ) : Char := "0123456789ABCDEF".toList.getD (v % 16) '0'

/-- `for (int s = 28; s >= 0; s -= 4) tty_putc("0123456789ABCDEF"[(v >> s) & 0xF])`. -/
def hexWord (v : BitVec 32) : String :=
  String.ofList ((List.range 8).map fun d => hexDigit (v.toNat / 16 ^ (7 - d)))

/-- The type is first cut to a byte. -/
def typeName (type : BitVec 32) : String :=
  ["Unknown", "RAM", "Reserved", "ACPI Reclaim", "ACPI NVS", "Bad RAM"].getD (type.toNat % 256)
    "Unknown"

def mmpLine (i : ℕ) (e : E820Entry) : String :=
  String.ofList [hexDigit (i % 10)] ++ ": base=0x" ++ hexWord e.baseLow ++ " len=0x" ++
    hexWord e.lengthLow ++ " type=" ++ typeName e.type ++ "\n"

def mmp (m : Mem) : List String :=
  "E820 Memory Map:\n" :: (List.range (readCount m)).map fun i => mmpLine i (readEntry m i)

/-- How the BIOS says that there are no more entries. -/
inductive Ending where
  | ebxZero
  | carrySet
  deriving DecidableEq

def Int15.IsAnswer (r : Int15) : Prop :=
  r.carry = false ∧ r.eax = smap ∧ (r.size = 20 ∨ r.size = 24)

/-- `Listing answers calls ending`: the BIOS returns `calls`, of which `answers` carry the entries
of its map, and ends the map as `ending` says. -/
inductive Listing : List Int15 → List Int15 → Ending → Prop
  | zero {r : Int15} : r.IsAnswer → r.ebx = 0#32 → Listing [r] [r] .ebxZero
  | carry {r c : Int15} : r.IsAnswer → r.ebx ≠ 0#32 → c.carry = true → Listing [r] [r, c] .carrySet
  | more {r : Int15} {answers calls : List Int15} {ending : Ending} : r.IsAnswer → r.ebx ≠ 0#32 →
      Listing answers calls ending → Listing (r :: answers) (r :: calls) ending

def entries (answers : List Int15) : List E820Entry := answers.map Int15.entry

/-- The kernel finds the count and the entries of the BIOS, and lists those. -/
def Agrees (m : Mem) (answers : List Int15) : Prop := readMap m = entries answers

theorem mmp_of_agrees {m : Mem} {answers : List Int15} (h : Agrees m answers) :
    mmp m = "E820 Memory Map:\n" :: (entries answers).mapIdx mmpLine := by
  rw [mmp, ← h]
  congr 1
  apply List.ext_getElem
  · simp [readMap]
  · intro i h1 h2
    simp [readMap]

def totalSize : List Int15 → ℕ
  | [] => 0
  | r :: rest => r.size + totalSize rest

def storeAnswers (m : Mem) (di : ℕ) : List Int15 → Mem
  | [] => m
  | r :: rest => storeAnswers (m.blit di r.size r.byte) (di + r.size) rest

def streamByte : List Int15 → ℕ → Byte
  | [], _ => 0#8
  | r :: rest, k => if k < r.size then r.byte k else streamByte rest (k - r.size)

theorem get_storeAnswers_of_lt (m : Mem) {di b : ℕ} {answers : List Int15}
    (hdi : di + totalSize answers ≤ 2 ^ 32) (hb : b < di) :
    (storeAnswers m di answers).get b = m.get b := by
  induction answers generalizing m di with
  | nil => rfl
  | cons r rest ih =>
      rw [totalSize] at hdi
      rw [storeAnswers, ih _ (by omega) (by omega)]
      exact Mem.get_blit_of_le m _ (by omega) (Mem.le_offset (by omega) (Or.inl hb) (by omega))

theorem get_storeAnswers (m : Mem) (di : ℕ) {k : ℕ} {answers : List Int15}
    (hdi : di + totalSize answers ≤ 2 ^ 32) (hk : k < totalSize answers) :
    (storeAnswers m di answers).get (di + k) = streamByte answers k := by
  induction answers generalizing m di k with
  | nil => exact absurd hk (Nat.not_lt_zero k)
  | cons r rest ih =>
      rw [totalSize] at hdi hk
      rw [storeAnswers, streamByte]
      by_cases hlt : k < r.size
      · rw [if_pos hlt, get_storeAnswers_of_lt _ (by omega) (by omega)]
        exact Mem.get_blit_add m di _ (by omega) hlt
      · rw [if_neg hlt, ← ih (m.blit di r.size r.byte) (di + r.size) (by omega) (by omega)]
        congr 1
        omega

section

variable {answers calls : List Int15} {ending : Ending} (h : Listing answers calls ending)

include h

theorem Listing.isAnswer : ∀ r ∈ answers, r.IsAnswer := by
  induction h with
  | zero hr _ => simpa using hr
  | carry hr _ _ => simpa using hr
  | more hr _ _ ih => simpa using ⟨hr, ih⟩

omit h in
theorem le820_answer (kb : BitVec 16) (m : Mem) {di si : ℕ} {r : Int15} {rest : List Int15}
    (hr : r.IsAnswer) :
    le820 kb (r :: rest) m di si =
      if di + r.size ≤ bootStack then
        if r.ebx ≠ 0#32 then
          le820 kb rest (m.blit di r.size r.byte) (di + r.size) ((si + 1) % 2 ^ 16)
        else some ((m.blit di r.size r.byte).store16 mmapCount ((si + 1) % 2 ^ 16))
      else none := by
  have hstack : bootStack < 2 ^ 16 := by decide
  obtain ⟨hcarry, heax, -⟩ := hr
  rw [le820, hcarry, if_neg Bool.false_ne_true]
  by_cases hfit : di + r.size ≤ bootStack
  · rw [if_neg (by omega), if_pos hfit, if_neg (by simp [heax]), Nat.mod_eq_of_lt (by omega)]
  · rw [if_pos (by omega), if_neg hfit]

theorem le820_of_listing (kb : BitVec 16) (m : Mem) (di si : ℕ) :
    le820 kb calls m di si =
      if di + totalSize answers ≤ bootStack then
        match ending with
        | .ebxZero => some
            ((storeAnswers m di answers).store16 mmapCount ((si + answers.length) % 2 ^ 16))
        | .carrySet => some (int12 kb (storeAnswers m di answers))
      else none := by
  induction h generalizing m di si with
  | zero hr hebx =>
      rw [le820_answer kb m hr, if_neg (not_not_intro hebx)]
      rfl
  | carry hr hebx hc =>
      rw [le820_answer kb m hr, if_pos hebx, le820, if_pos hc]
      rfl
  | @more r answers calls ending hr hebx _ ih =>
      rw [le820_answer kb m hr, if_pos hebx, ih, totalSize, storeAnswers, List.length_cons,
        Nat.add_assoc di, Nat.mod_add_mod, Nat.add_assoc si, Nat.add_comm 1 answers.length]
      by_cases hfit : di + r.size ≤ bootStack
      · rw [if_pos hfit]
      · rw [if_neg hfit, if_neg (by omega)]

end

/-- Entry `i` of the kernel's array is where the BIOS stored its own entry `i`, because no earlier
answer was longer than the structure, or else the bytes found there happen to be the same. -/
def Unshifted (answers : List Int15) : Prop :=
  ∀ (i : ℕ) (_ : i < answers.length), (∀ r ∈ answers.take i, r.size = sizeofE820Entry) ∨
    ∀ k < sizeofE820Entry,
      streamByte answers (i * sizeofE820Entry + k) = answers[i].entry.byte k

/-- The only entry of the map that `.int12` makes up. -/
def int12Entry (kb : BitVec 16) : E820Entry :=
  ⟨0#32, 0#32, BitVec.ofNat 32 (kb.toNat * 1024), 0#32, 1#32⟩

theorem readMap_eq_iff {m : Mem} {es : List E820Entry} :
    readMap m = es ↔ readCount m = es.length ∧
      ∀ (i : ℕ) (_ : i < es.length), readEntry m i = es[i] := by
  constructor
  · rintro rfl
    simp [readMap]
  · rintro ⟨hcount, hentry⟩
    apply List.ext_getElem
    · simp [readMap, hcount]
    · intro i h1 h2
      simp [readMap, hentry i h2]

theorem Int15.IsAnswer.le_size {r : Int15} (h : r.IsAnswer) : sizeofE820Entry ≤ r.size := by
  obtain ⟨-, -, hsize⟩ := h
  unfold sizeofE820Entry
  omega

theorem length_mul_le_totalSize {answers : List Int15} (h : ∀ r ∈ answers, r.IsAnswer) :
    answers.length * sizeofE820Entry ≤ totalSize answers := by
  induction answers with
  | nil => exact Nat.le_of_eq (Nat.zero_mul _)
  | cons r rest ih =>
      have hr := (h r (List.mem_cons_self ..)).le_size
      have hrest := ih fun x hx => h x (List.mem_cons_of_mem _ hx)
      rw [List.length_cons, totalSize, Nat.succ_mul]
      omega

theorem streamByte_of_unshifted {answers : List Int15} {i k : ℕ} (hi : i < answers.length)
    (h : ∀ r ∈ answers.take i, r.size = sizeofE820Entry) (hk : k < sizeofE820Entry)
    (hlast : sizeofE820Entry ≤ answers[i].size) :
    streamByte answers (i * sizeofE820Entry + k) = answers[i].entry.byte k := by
  induction i generalizing answers with
  | zero =>
      obtain ⟨r, rest, rfl⟩ := List.exists_cons_of_length_pos hi
      rw [List.getElem_cons_zero] at hlast ⊢
      rw [streamByte, Nat.zero_mul, Nat.zero_add, if_pos (by omega), Int15.byte, if_pos hk]
  | succ i ih =>
      obtain ⟨r, rest, rfl⟩ := List.exists_cons_of_length_pos (Nat.zero_lt_of_lt hi)
      rw [List.take_succ_cons] at h
      rw [List.getElem_cons_succ] at hlast ⊢
      have hr := h r (List.mem_cons_self ..)
      rw [streamByte, hr, Nat.succ_mul, if_neg (by omega), ← ih (Nat.lt_of_succ_lt_succ hi)
        (fun x hx => h x (List.mem_cons_of_mem _ hx)) hlast]
      congr 1
      omega

/-- The kernel's reading after the exit through `EBX = 0`. -/
theorem readMap_stored_iff {m : Mem} {answers : List Int15} (h : ∀ r ∈ answers, r.IsAnswer)
    (hfit : mmapAddr + totalSize answers ≤ bootStack) :
    readMap ((storeAnswers m mmapAddr answers).store16 mmapCount (answers.length % 2 ^ 16)) =
      entries answers ↔ Unshifted answers := by
  have hlen := length_mul_le_totalSize h
  have hstack : bootStack = 0x8FEA := by decide
  have haddr : mmapAddr = 0x8000 := by decide
  have hlen' : answers.length * 20 ≤ totalSize answers := hlen
  have hcount : readCount ((storeAnswers m mmapAddr answers).store16 mmapCount
      (answers.length % 2 ^ 16)) = answers.length := by
    rw [readCount, Mem.load16_store16 _ _ (Nat.mod_lt _ (by decide)), Nat.mod_eq_of_lt (by omega)]
  have hread : ∀ (i : ℕ) (hi : i < answers.length),
      readEntry ((storeAnswers m mmapAddr answers).store16 mmapCount
        (answers.length % 2 ^ 16)) i = answers[i].entry ↔
      ∀ k < sizeofE820Entry,
        streamByte answers (i * sizeofE820Entry + k) = answers[i].entry.byte k := by
    intro i hi
    have hmul : (i + 1) * sizeofE820Entry ≤ answers.length * sizeofE820Entry :=
      Nat.mul_le_mul_right _ hi
    rw [Nat.succ_mul] at hmul
    rw [readEntry, loadE820Entry_eq_iff]
    refine forall₂_congr fun k hk => ?_
    rw [Mem.get_store16_of_le _ _ (Mem.le_offset (by omega) (Or.inr (by unfold mmapCount; omega))
      (by decide)), Nat.add_assoc, get_storeAnswers m _ (by omega) (by omega)]
  rw [readMap_eq_iff, hcount]
  simp only [entries, List.length_map, true_and, List.getElem_map]
  refine forall₂_congr fun i hi => ?_
  rw [hread i hi]
  constructor
  · exact Or.inr
  · rintro (hfront | hbytes)
    · intro k hk
      exact streamByte_of_unshifted hi hfront hk (h _ (List.getElem_mem hi)).le_size
    · exact hbytes

theorem int12Word_byte (kb : BitVec 16) {k : ℕ} (hk : k < sizeofE820Entry) :
    BitVec.ofNat 8 (int12Word kb (k / 2) / 256 ^ (k % 2)) = (int12Entry kb).byte k := by
  have hkb := kb.isLt
  have hk' : k < 20 := hk
  have hlen : (BitVec.ofNat 32 (kb.toNat * 1024)).toNat = kb.toNat * 1024 := by
    rw [BitVec.toNat_ofNat, Nat.mod_eq_of_lt (by omega)]
  by_cases hword : k / 4 = 2
  · rw [E820Entry.byte, hword, int12Entry, E820Entry.word, leBytes, hlen]
    apply BitVec.eq_of_toNat_eq
    rw [BitVec.toNat_ofNat, BitVec.toNat_ofNat]
    obtain rfl | rfl | rfl | rfl : k = 8 ∨ k = 9 ∨ k = 10 ∨ k = 11 := by omega
    all_goals
      simp only [int12Word, Nat.reduceDiv, Nat.reduceMod, Nat.reducePow]
      omega
  · interval_cases k <;>
      simp [int12Word, int12Entry, E820Entry.byte, E820Entry.word, leBytes] at hword ⊢

theorem readMap_int12 (kb : BitVec 16) (m : Mem) : readMap (int12 kb m) = [int12Entry kb] := by
  rw [readMap_eq_iff]
  constructor
  · exact Mem.load16_store16 _ _ (by decide)
  · intro i hi
    obtain rfl : i = 0 := Nat.lt_one_iff.mp hi
    apply loadE820Entry_eq_iff.mpr
    intro k hk
    have hk' : k < 20 := hk
    rw [Nat.zero_mul, Nat.add_zero, int12, Mem.get_store16_of_le _ _ (Mem.le_offset
      (by unfold mmapAddr; omega) (Or.inr (by unfold mmapAddr mmapCount; omega)) (by decide)),
      Mem.get_blit_add _ _ _ (by decide) (by omega)]
    exact int12Word_byte kb hk

/-- When the map that the boot sector leaves is the map that the BIOS told it. -/
def MapKept (kb : BitVec 16) (answers : List Int15) : Ending → Prop
  | .ebxZero => Unshifted answers
  | .carrySet => entries answers = [int12Entry kb]

/-- The kernel reads the entries of the BIOS exactly when they fit below the boot stack and, after
an end through `EBX = 0`, stand where the kernel looks for them; an end through the carry flag
throws them all away for one entry of conventional memory. -/
theorem mmap_agrees_iff (kb : BitVec 16) (m : Mem) {answers calls : List Int15} {ending : Ending}
    (h : Listing answers calls ending) :
    (∃ m', mmap kb calls m = some m' ∧ Agrees m' answers) ↔
      mmapAddr + totalSize answers ≤ bootStack ∧ MapKept kb answers ending := by
  rw [mmap, le820_of_listing h, Nat.zero_add]
  by_cases hfit : mmapAddr + totalSize answers ≤ bootStack
  · rw [if_pos hfit]
    cases ending with
    | ebxZero =>
        rw [MapKept, ← readMap_stored_iff (m := m.store16 mmapCount 0) h.isAnswer hfit]
        simp [hfit, Agrees]
    | carrySet =>
        simp [hfit, Agrees, MapKept, readMap_int12, eq_comm]
  · simp [hfit]

def ramAnswer (cx : BitVec 16) (ebx : BitVec 32) : Int15 :=
  ⟨false, smap, ebx, cx, ⟨0#32, 0#32, 0x9FC00#32, 0#32, 1#32⟩, 1#32⟩

def highAnswer (cx : BitVec 16) (ebx : BitVec 32) : Int15 :=
  ⟨false, smap, ebx, cx, ⟨0x100000#32, 0#32, 0x7F00000#32, 0#32, 1#32⟩, 1#32⟩

/-- The call after the last entry. -/
def noMoreEntries : Int15 :=
  ⟨true, 0x8600#32, 0#32, 24#16, ⟨0#32, 0#32, 0#32, 0#32, 0#32⟩, 0#32⟩

def blankMemory : Mem := ⟨fun _ => 0#8, []⟩

theorem ramAnswer_listing :
    Listing [ramAnswer 20#16 1#32, highAnswer 24#16 0#32]
      [ramAnswer 20#16 1#32, highAnswer 24#16 0#32] .ebxZero :=
  .more ⟨rfl, rfl, by decide⟩ (by decide) (.zero ⟨rfl, rfl, by decide⟩ rfl)

theorem ramAnswer_agrees :
    ∃ m', mmap 639#16 [ramAnswer 20#16 1#32, highAnswer 24#16 0#32] blankMemory = some m' ∧
      Agrees m' [ramAnswer 20#16 1#32, highAnswer 24#16 0#32] := by
  refine (mmap_agrees_iff 639#16 blankMemory ramAnswer_listing).mpr ⟨by decide, ?_⟩
  intro i hi
  left
  have : i = 0 ∨ i = 1 := by
    simp only [List.length_cons, List.length_nil] at hi
    omega
  rcases this with rfl | rfl
  · simp
  · decide

/-- A 24-byte answer moves the next entry away from where the kernel reads it, and the carry flag
makes the boot sector forget entries that it has already stored. -/
theorem wideAnswer_disagrees :
    (Listing [ramAnswer 24#16 1#32, highAnswer 24#16 0#32]
        [ramAnswer 24#16 1#32, highAnswer 24#16 0#32] .ebxZero ∧
      ¬ ∃ m', mmap 639#16 [ramAnswer 24#16 1#32, highAnswer 24#16 0#32] blankMemory = some m' ∧
        Agrees m' [ramAnswer 24#16 1#32, highAnswer 24#16 0#32]) ∧
    (Listing [ramAnswer 20#16 1#32, highAnswer 20#16 2#32]
        [ramAnswer 20#16 1#32, highAnswer 20#16 2#32, noMoreEntries] .carrySet ∧
      ¬ ∃ m', mmap 639#16 [ramAnswer 20#16 1#32, highAnswer 20#16 2#32, noMoreEntries] blankMemory =
          some m' ∧ Agrees m' [ramAnswer 20#16 1#32, highAnswer 20#16 2#32]) := by
  refine ⟨⟨.more ⟨rfl, rfl, by decide⟩ (by decide) (.zero ⟨rfl, rfl, by decide⟩ rfl), ?_⟩,
    .more ⟨rfl, rfl, by decide⟩ (by decide) (.carry ⟨rfl, rfl, by decide⟩ (by decide) rfl), ?_⟩
  · rintro ⟨m', hrun, hread⟩
    have hmap :
        (mmap 639#16 [ramAnswer 24#16 1#32, highAnswer 24#16 0#32] blankMemory).map readMap ≠
          some (entries [ramAnswer 24#16 1#32, highAnswer 24#16 0#32]) := by decide +kernel
    exact hmap (by rw [hrun, Option.map_some, hread])
  · rintro ⟨m', hrun, hread⟩
    have hmap : (mmap 639#16 [ramAnswer 20#16 1#32, highAnswer 20#16 2#32, noMoreEntries]
        blankMemory).map readMap ≠
        some (entries [ramAnswer 20#16 1#32, highAnswer 20#16 2#32]) := by decide +kernel
    exact hmap (by rw [hrun, Option.map_some, hread])

end System44
