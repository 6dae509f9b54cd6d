import Mathlib.Tactic.IntervalCases
import Mathlib.Tactic.Ring
import System44.PrintfRuns

/-!
# Reading numbers back

`atoi` takes every character for a digit, the minus sign of `printf` too, and its accumulator wraps
around. The character behind a minus sign starts from a value that is not 0.
-/

namespace System44

/-- `k = (k << 3) + (k << 1) + (*p) - '0'`, where `char` is signed. -/
def atoiStep (k : BitVec 32) (c : Byte) : BitVec 32 :=
  k <<< 3 + k <<< 1 + c.signExtend 32 - 0x30#32

def atoiLoop (m : Mem) : ℕ → ℕ → BitVec 32 → Option (BitVec 32)
  | 0, _, _ => none
  | fuel + 1, p, k =>
    if m.get p ≠ 0#8 then atoiLoop m fuel (p + 1) (atoiStep k (m.get p)) else some k

def atoi (m : Mem) (p : ℕ) : Option (BitVec 32) := atoiLoop m addressSpace p 0#32

def atoiValue (z : ℤ) (bs : List Byte) : ℤ := bs.foldl (fun z b => 10 * z + (b.toInt - 0x30)) z

theorem atoiStep_ofInt (z : ℤ) (c : Byte) :
    atoiStep (BitVec.ofInt 32 z) c = BitVec.ofInt 32 (10 * z + (c.toInt - 0x30)) := by
  have height : BitVec.ofInt 32 z <<< 3 = BitVec.ofInt 32 (z * 8) := by
    rw [BitVec.shiftLeft_eq_mul_twoPow, BitVec.ofInt_mul]
    rfl
  have htwo : BitVec.ofInt 32 z <<< 1 = BitVec.ofInt 32 (z * 2) := by
    rw [BitVec.shiftLeft_eq_mul_twoPow, BitVec.ofInt_mul]
    rfl
  rw [atoiStep, height, htwo, BitVec.signExtend, ← BitVec.ofInt_add, ← BitVec.ofInt_add,
    BitVec.sub_eq_add_neg]
  change _ + BitVec.ofInt 32 (-0x30) = _
  rw [← BitVec.ofInt_add]
  congr 1
  ring

theorem atoiLoop_of_spells {m : Mem} {p fuel : ℕ} {bs : List Byte} (h : Spells m p bs)
    (hfuel : bs.length < fuel) (z : ℤ) :
    atoiLoop m fuel p (BitVec.ofInt 32 z) = some (BitVec.ofInt 32 (atoiValue z bs)) := by
  induction bs generalizing p fuel z with
  | nil =>
      obtain ⟨fuel, rfl⟩ : ∃ n, fuel = n + 1 := ⟨fuel - 1, by omega⟩
      have hnul : m.get p = 0#8 := h
      exact if_neg (not_not_intro hnul)
  | cons b bs ih =>
      obtain ⟨fuel, rfl⟩ : ∃ n, fuel = n + 1 := ⟨fuel - 1, by omega⟩
      obtain ⟨hb, hne, hrest⟩ := h
      rw [atoiLoop, hb, if_pos hne, atoiStep_ofInt]
      exact ih hrest (Nat.lt_of_succ_lt_succ hfuel) _

theorem atoi_of_spells {m : Mem} {p : ℕ} {bs : List Byte} (h : Spells m p bs) :
    atoi m p = some (BitVec.ofInt 32 (atoiValue 0 bs)) :=
  atoiLoop_of_spells h h.length_lt 0

theorem ofInt_eq_iff (z : ℤ) (n : BitVec 32) :
    BitVec.ofInt 32 z = n ↔ (z - n.toInt) % 2 ^ 32 = 0 := by
  have hlt : n.toInt < 2 ^ 31 := BitVec.toInt_lt
  have hle : -2 ^ 31 ≤ n.toInt := n.le_toInt
  rw [← BitVec.toInt_inj, BitVec.toInt_ofInt, Int.bmod_def]
  split
  · omega
  · omega

theorem atoiValue_append (z : ℤ) (bs cs : List Byte) :
    atoiValue z (bs ++ cs) = atoiValue (atoiValue z bs) cs := List.foldl_append

theorem atoiValue_numeral (z : ℤ) (n : ℕ) :
    atoiValue z (numeral 10 n) = z * 10 ^ (numeral 10 n).length + n := by
  have hdigit : ∀ d : ℕ, d < 10 →
      (BitVec.ofNat 8 d.digitChar.toNat).toInt = d + 0x30 := by decide
  have hsingle (z : ℤ) {d : ℕ} (hd : d < 10) : atoiValue z (numeral 10 d) = 10 * z + d := by
    rw [numeral_of_lt hd]
    change 10 * z + ((BitVec.ofNat 8 d.digitChar.toNat).toInt - 0x30) = _
    rw [hdigit d hd, add_sub_cancel_right]
  induction n using Nat.strong_induction_on with
  | _ n ih =>
      rcases Nat.lt_or_ge n 10 with h | h
      · rw [hsingle z h, numeral_of_lt h, List.length_singleton]
        ring
      · have hlt := Nat.mod_lt n (show 0 < 10 by decide)
        have hdiv : (n : ℤ) = 10 * (n / 10 : ℕ) + (n % 10 : ℕ) := by omega
        rw [numeral_of_le (by decide) h, atoiValue_append, ih (n / 10) (by omega), hsingle _ hlt,
          List.length_append, numeral_of_lt hlt, List.length_singleton]
        rw [hdiv]
        ring

theorem atoiValue_intNumeral (i : ℤ) :
    atoiValue 0 (intNumeral i) =
      if i < 0 then -3 * 10 ^ (numeral 10 i.natAbs).length + (i.natAbs : ℤ) else i := by
  rw [intNumeral]
  split
  · exact atoiValue_numeral (-3) i.natAbs
  · rw [atoiValue_numeral, zero_mul, zero_add]
    omega

theorem minus_wraps_iff {v : ℕ} (hpos : 0 < v) (hle : v ≤ 2 ^ 31) :
    (-3 * 10 ^ (numeral 10 v).length + v - -v : ℤ) % 2 ^ 32 = 0 ↔ v = 2115098112 := by
  have hlen : (numeral 10 v).length ≤ 10 :=
    (length_numeral_le_iff (by decide) (by decide)).mpr (by omega)
  have hlt : v < 10 ^ (numeral 10 v).length := by
    refine (length_numeral_le_iff (by decide) ?_).mp (Nat.le_refl _)
    rw [length_numeral (by decide)]
    exact Nat.succ_pos _
  have hge : 10 ^ ((numeral 10 v).length - 1) ≤ v := by
    rw [length_numeral (by decide), Nat.add_sub_cancel]
    exact Nat.pow_log_le_self 10 hpos.ne'
  generalize (numeral 10 v).length = l at hlen hlt hge
  interval_cases l <;> omega

/-- `atoi` reads back what `%d` prints, for the numbers that are not negative and for one that
is. -/
theorem atoi_printfInt_iff {m : Mem} {p : ℕ} {n : BitVec 32} {bs : List Byte}
    (hout : printfInt n = some bs) (h : Spells m p bs) :
    atoi m p = some n ↔ 0 ≤ n.toInt ∨ n.toInt = -2115098112 := by
  obtain rfl : intNumeral n.toInt = bs := Option.some_inj.mp ((printfInt_eq n).symm.trans hout)
  rw [atoi_of_spells h, Option.some_inj, ofInt_eq_iff, atoiValue_intNumeral]
  have hle : -2 ^ 31 ≤ n.toInt := n.le_toInt
  by_cases hneg : n.toInt < 0
  · have habs : n.toInt = -(n.toInt.natAbs : ℤ) := by omega
    have hwraps := minus_wraps_iff (v := n.toInt.natAbs) (by omega) (by omega)
    rw [← habs] at hwraps
    rw [if_pos hneg, hwraps]
    omega
  · rw [if_neg hneg]
    omega

theorem fortyTwo_read : atoi (formatMem [0x34#8, 0x32#8]) 0 = some 42#32 :=
  (atoi_printfInt_iff (n := 42#32) (by decide) (spells_formatMem (by decide) (by decide))).mpr
    (Or.inl (by decide))

/-- What is printed for -1 is read as -29. -/
theorem minusOne_misread :
    printfInt (-1#32) = some [0x2D#8, 0x31#8] ∧
      Spells (formatMem [0x2D#8, 0x31#8]) 0 [0x2D#8, 0x31#8] ∧
      atoi (formatMem [0x2D#8, 0x31#8]) 0 ≠ some (-1#32) := by
  have hstring : Spells (formatMem [0x2D#8, 0x31#8]) 0 [0x2D#8, 0x31#8] :=
    spells_formatMem (by decide) (by decide)
  refine ⟨by decide, hstring, ?_⟩
  rw [atoi_of_spells hstring]
  decide

end System44
