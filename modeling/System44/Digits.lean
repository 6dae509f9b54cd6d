import Mathlib.Data.Nat.Log
import System44.CString

/-!
# Digits

The kernel writes a number by collecting its digits, the last one first, in a small array, and by
copying the array backwards. An array is what has been stored in it so far, and a store outside it
has no result.
-/

namespace System44

/-- `while (u) { tmp[len++] = digit; u = rest; }`, where `room` elements of `tmp` are still free. -/
def digitLoop (digit : BitVec 32 → Byte) (rest : BitVec 32 → BitVec 32) :
    ℕ → BitVec 32 → List Byte → Option (List Byte)
  | 0, u, tmp => if u = 0#32 then some tmp else none
  | room + 1, u, tmp =>
    if u = 0#32 then some tmp else digitLoop digit rest room (rest u) (tmp ++ [digit u])

def digitsOf (digit : BitVec 32 → Byte) (rest : BitVec 32 → BitVec 32) (room : ℕ)
    (u : BitVec 32) : Option (List Byte) :=
  if u = 0#32 then some [0x30#8] else digitLoop digit rest room u []

/-- `'0' + (u % 10)` -/
def decChar (u : BitVec 32) : Byte := (0x30#32 + u % 10#32).setWidth 8

/-- A digit of `%x`, which is `num & 0xF`. -/
def hexChar (num : BitVec 32) : Byte :=
  let digit := num &&& 0xF#32
  if digit.slt 10#32 then (0x30#32 + digit).setWidth 8 else (0x61#32 + (digit - 10#32)).setWidth 8

/-- The numeral of `n` without leading zeros; the digits above 9 are small letters. -/
def numeral (base n : ℕ) : List Byte := asciiBytes (Nat.toDigits base n)

/-- The decimal numeral of an integer. -/
def intNumeral (n : ℤ) : List Byte :=
  if n < 0 then 0x2D#8 :: numeral 10 n.natAbs else numeral 10 n.natAbs

def readDecimal (bs : List Byte) : ℕ := bs.foldl (fun v b => 10 * v + (b.toNat - 0x30)) 0

theorem numeral_of_lt {base n : ℕ} (h : n < base) :
    numeral base n = [BitVec.ofNat 8 n.digitChar.toNat] := by
  rw [numeral, Nat.toDigits_of_lt_base h]
  rfl

theorem numeral_of_le {base n : ℕ} (hbase : 1 < base) (h : base ≤ n) :
    numeral base n = numeral base (n / base) ++ numeral base (n % base) := by
  rw [numeral_of_lt (Nat.mod_lt n (by omega)), numeral, Nat.toDigits_of_base_le hbase h, asciiBytes,
    List.map_append]
  rfl

theorem length_numeral_le_iff {base n k : ℕ} (hbase : 1 < base) (hk : 0 < k) :
    (numeral base n).length ≤ k ↔ n < base ^ k := by
  rw [numeral, asciiBytes, List.length_map]
  exact Nat.length_toDigits_le_iff hbase hk

theorem length_numeral {base : ℕ} (hbase : 1 < base) (n : ℕ) :
    (numeral base n).length = Nat.log base n + 1 := by
  refine eq_of_forall_ge_iff fun k => ?_
  cases k with
  | zero =>
      rw [numeral, asciiBytes, List.length_map]
      have hpos := Nat.length_toDigits_pos (b := base) (n := n)
      omega
  | succ k =>
      rw [length_numeral_le_iff hbase (Nat.succ_pos k), Nat.succ_le_succ_iff, ← Nat.lt_succ_iff]
      rcases Nat.eq_zero_or_pos n with rfl | hn
      · exact iff_of_true (Nat.pow_pos (by omega)) (by simp)
      · exact (Nat.log_lt_iff_lt_pow hbase hn.ne').symm

theorem not_mem_numeral {base : ℕ} (hbase : 1 < base) (h16 : base ≤ 16) {b : Byte}
    (hb : b.toNat < 0x30) (n : ℕ) : b ∉ numeral base n := by
  have hdigit : ∀ d < 16, 0x30 ≤ (BitVec.ofNat 8 d.digitChar.toNat).toNat := by decide
  have hsingle {d : ℕ} (hd : d < base) : b ∉ numeral base d := by
    rw [numeral_of_lt hd, List.mem_singleton]
    rintro rfl
    exact Nat.not_le_of_lt hb (hdigit d (hd.trans_le h16))
  induction n using Nat.strong_induction_on with
  | _ n ih =>
      rcases Nat.lt_or_ge n base with h | h
      · exact hsingle h
      · rw [numeral_of_le hbase h, List.mem_append, not_or]
        exact ⟨ih (n / base) (Nat.div_lt_self (by omega) hbase),
          hsingle (Nat.mod_lt n (by omega))⟩

theorem readDecimal_append (bs cs : List Byte) :
    readDecimal (bs ++ cs) = cs.foldl (fun v b => 10 * v + (b.toNat - 0x30)) (readDecimal bs) := by
  rw [readDecimal, List.foldl_append]
  rfl

theorem readDecimal_digit {d : ℕ} (h : d < 10) (v : ℕ) :
    10 * v + ((BitVec.ofNat 8 d.digitChar.toNat).toNat - 0x30) = 10 * v + d := by
  have hdigit : ∀ d < 10, (BitVec.ofNat 8 d.digitChar.toNat).toNat - 0x30 = d := by decide
  rw [hdigit d h]

theorem readDecimal_numeral (n : ℕ) : readDecimal (numeral 10 n) = n := by
  induction n using Nat.strong_induction_on with
  | _ n ih =>
      rcases Nat.lt_or_ge n 10 with h | h
      · rw [numeral_of_lt h]
        exact (readDecimal_digit h 0).trans (Nat.zero_add n)
      · have hlt := Nat.mod_lt n (show 0 < 10 by decide)
        rw [numeral_of_le (by decide) h, readDecimal_append, ih (n / 10) (by omega),
          numeral_of_lt hlt]
        exact (readDecimal_digit hlt (n / 10)).trans (Nat.div_add_mod n 10)

theorem digitLoop_zero (digit : BitVec 32 → Byte) (rest : BitVec 32 → BitVec 32) (room : ℕ)
    (tmp : List Byte) : digitLoop digit rest room 0#32 tmp = some tmp := by
  cases room with
  | zero => exact if_pos rfl
  | succ room => exact if_pos rfl

/-- Where the loop takes the digits of a number one after the other, `tmp` gets its numeral
backwards, and it is large enough if the number has at most as many digits. -/
theorem digitLoop_eq {digit : BitVec 32 → Byte} {rest : BitVec 32 → BitVec 32} {base : ℕ}
    (hbase : 1 < base) (hdigit : ∀ u, [digit u] = numeral base (u.toNat % base))
    (hrest : ∀ u, (rest u).toNat = u.toNat / base) {room : ℕ} {u : BitVec 32}
    (hu : u.toNat < base ^ room) (hpos : 0 < u.toNat) (tmp : List Byte) :
    digitLoop digit rest room u tmp = some (tmp ++ (numeral base u.toNat).reverse) := by
  induction room generalizing u tmp with
  | zero =>
      rw [pow_zero] at hu
      omega
  | succ room ih =>
      have hne : u ≠ 0#32 := by
        rintro rfl
        exact Nat.lt_irrefl 0 hpos
      have hlast := hdigit u
      rw [digitLoop, if_neg hne, hlast]
      rcases Nat.lt_or_ge u.toNat base with hlt | hge
      · -- the last digit
        have hzero : rest u = 0#32 := by
          apply BitVec.eq_of_toNat_eq
          rw [hrest, Nat.div_eq_of_lt hlt]
          rfl
        rw [hzero, digitLoop_zero, Nat.mod_eq_of_lt hlt, numeral_of_lt hlt, List.reverse_singleton]
      · have hrest' : (rest u).toNat < base ^ room := by
          rw [hrest]
          exact Nat.div_lt_of_lt_mul (by rwa [pow_succ'] at hu)
        have hpos' : 0 < (rest u).toNat := by
          rw [hrest]
          exact Nat.div_pos hge (by omega)
        rw [ih hrest' hpos', hrest, numeral_of_le hbase hge, List.reverse_append, List.append_assoc,
          ← hlast, List.reverse_singleton]

theorem digitChar_eq {u : BitVec 32} (hu : u.toNat < 10) :
    [(0x30#32 + u).setWidth 8] = numeral 10 u.toNat := by
  have hall : ∀ d < 10, (0x30#32 + BitVec.ofNat 32 d).setWidth 8 =
      BitVec.ofNat 8 d.digitChar.toNat := by decide
  rw [numeral_of_lt hu, ← hall _ hu, BitVec.ofNat_toNat, BitVec.setWidth_eq]

theorem decChar_eq (u : BitVec 32) : [decChar u] = numeral 10 (u.toNat % 10) := by
  have hmod : (u % 10#32).toNat = u.toNat % 10 := BitVec.toNat_umod
  have hlt : (u % 10#32).toNat < 10 := by
    rw [hmod]
    exact Nat.mod_lt _ (by decide)
  rw [decChar, digitChar_eq hlt, hmod]

theorem hexChar_eq (u : BitVec 32) : [hexChar u] = numeral 16 (u.toNat % 16) := by
  have hlt : u.toNat % 16 < 16 := Nat.mod_lt _ (by decide)
  have hall : ∀ d < 16, (if (BitVec.ofNat 32 d).slt 10#32 then
      (0x30#32 + BitVec.ofNat 32 d).setWidth 8
      else (0x61#32 + (BitVec.ofNat 32 d - 10#32)).setWidth 8) =
        BitVec.ofNat 8 d.digitChar.toNat := by decide
  have hmask : u &&& 0xF#32 = BitVec.ofNat 32 (u.toNat % 16) := by
    apply BitVec.eq_of_toNat_eq
    rw [BitVec.toNat_and, BitVec.toNat_ofNat, BitVec.toNat_ofNat,
      Nat.mod_eq_of_lt (hlt.trans (by decide))]
    exact Nat.and_two_pow_sub_one_eq_mod u.toNat 4
  rw [numeral_of_lt hlt, hexChar, hmask, hall _ hlt]

theorem digitsOf_eq {digit : BitVec 32 → Byte} {rest : BitVec 32 → BitVec 32} {base room : ℕ}
    (hbase : 1 < base) (hdigit : ∀ u, [digit u] = numeral base (u.toNat % base))
    (hrest : ∀ u, (rest u).toNat = u.toNat / base) (hroom : 2 ^ 32 ≤ base ^ room) (u : BitVec 32) :
    digitsOf digit rest room u = some (numeral base u.toNat).reverse := by
  rw [digitsOf]
  by_cases hu : u = 0#32
  · rw [if_pos hu, hu, BitVec.toNat_ofNat, Nat.zero_mod, numeral_of_lt (by omega)]
    rfl
  · have hpos : 0 < u.toNat := by
      rw [Nat.pos_iff_ne_zero]
      exact fun h0 => hu (BitVec.eq_of_toNat_eq h0)
    rw [if_neg hu, digitLoop_eq hbase hdigit hrest (u.isLt.trans_le hroom) hpos, List.nil_append]

theorem decDigits_eq {room : ℕ} (hroom : 10 ≤ room) (u : BitVec 32) :
    digitsOf decChar (· / 10#32) room u = some (numeral 10 u.toNat).reverse := by
  refine digitsOf_eq (by decide) decChar_eq (fun u => ?_) ?_ u
  · rw [BitVec.toNat_udiv]
    rfl
  · exact le_trans (by decide) (Nat.pow_le_pow_right (by decide) hroom)

theorem hexDigits_eq {room : ℕ} (hroom : 8 ≤ room) (u : BitVec 32) :
    digitsOf hexChar (· >>> 4) room u = some (numeral 16 u.toNat).reverse := by
  refine digitsOf_eq (by decide) hexChar_eq (fun u => ?_) ?_ u
  · rw [BitVec.toNat_ushiftRight, Nat.shiftRight_eq_div_pow]
  · exact le_trans (by decide) (Nat.pow_le_pow_right (by decide) hroom)

end System44
