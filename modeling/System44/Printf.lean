import Mathlib.Data.List.TakeWhile
import System44.Digits
import System44.Strtok

/-!
# Formatted output

`printf` walks its format with the pointer `p` and its arguments with a pointer into the caller's
stack, where each one lies behind the other, and stores through `out`. A specifier and its argument
together ask for a piece of the output.
-/

namespace System44

/-- The operations on doubles that `%f` uses. -/
structure Fpu (D : Type) where
  load : BitVec 64 → D
  isNeg : D → Bool
  neg : D → D
  toInt : D → BitVec 32
  ofInt : BitVec 32 → D
  sub : D → D → D
  mul : D → D → D
  ten : D

/-- `va_arg(args, double)` -/
def vaDouble (m : Mem) (args : ℕ) : BitVec 64 := m.load32 (args + 4) ++ m.load32 args

def escaped (c : Byte) : List Byte :=
  if c = 0x6E#8 then [0x0A#8]
  else if c = 0x74#8 then [0x09#8]
  else if c = 0x5C#8 then [0x5C#8]
  else [0x5C#8, c]

def printfString (m : Mem) : ℕ → ℕ → Option (List Byte)
  | 0, _ => none
  | fuel + 1, str =>
    if m.get str = 0#8 then some []
    else if m.get str = 0x5C#8 ∧ m.get (str + 1) ≠ 0#8 then
      (printfString m fuel (str + 2)).map (escaped (m.get (str + 1)) ++ ·)
    else (printfString m fuel (str + 1)).map (m.get str :: ·)

def printfInt (num : BitVec 32) : Option (List Byte) := do
  let sign := if num.slt 0#32 then [0x2D#8] else []
  let num := if num.slt 0#32 then -(num + 1#32) + 1#32 else num
  let tmp ← digitsOf decChar (· / 10#32) 12 num
  some (sign ++ tmp.reverse)

def printfHex (num : BitVec 32) : Option (List Byte) := do
  let tmp ← digitsOf hexChar (· >>> 4) 9 num
  some tmp.reverse

def fracDigits {D : Type} (fpu : Fpu D) : ℕ → D → List Byte
  | 0, _ => []
  | n + 1, fracPart =>
    let fracPart := fpu.mul fracPart fpu.ten
    let digit := fpu.toInt fracPart
    (0x30#32 + digit).setWidth 8 :: fracDigits fpu n (fpu.sub fracPart (fpu.ofInt digit))

def printfDouble {D : Type} (fpu : Fpu D) (num : D) : Option (List Byte) := do
  let sign := if fpu.isNeg num then [0x2D#8] else []
  let num := if fpu.isNeg num then fpu.neg num else num
  let intPart := fpu.toInt num
  let fracPart := fpu.sub num (fpu.ofInt intPart)
  let tmp ← digitsOf decChar (· / 10#32) 20 intPart
  some (sign ++ tmp.reverse ++ [0x2E#8] ++ fracDigits fpu 6 fracPart)

/-- What is stored for the specifier `c`, and where the arguments go on: the cases are `%s`, `%c`,
`%d`, `%f`, `%x`, `%%` and any other character. -/
def directive {D : Type} (fpu : Fpu D) (m : Mem) (c : Byte) (args : ℕ) :
    Option (List Byte × ℕ) :=
  if c = 0x73#8 then
    (printfString m addressSpace (m.load32 args).toNat).map (·, args + 4)
  else if c = 0x63#8 then some ([(m.load32 args).setWidth 8], args + 4)
  else if c = 0x64#8 then (printfInt (m.load32 args)).map (·, args + 4)
  else if c = 0x66#8 then (printfDouble fpu (fpu.load (vaDouble m args))).map (·, args + 8)
  else if c = 0x78#8 then (printfHex (m.load32 args)).map (·, args + 4)
  else if c = 0x25#8 then some ([0x25#8], args)
  else some ([0x25#8, c], args)

/-- The variables of the loop, with the addresses at which the format has been read. -/
structure Scan where
  p : ℕ
  args : ℕ
  out : List Byte
  reads : List ℕ

/-- `while (*p)`. The result is `.error` where the loop has not ended after `fuel` rounds, or where
a string has no end. -/
def printfLoop {D : Type} (fpu : Fpu D) (m : Mem) : ℕ → Scan → Except Scan Scan
  | 0, s => .error s
  | fuel + 1, s =>
    let s := { s with reads := s.p :: s.reads }
    if m.get s.p = 0#8 then .ok s
    else if m.get s.p = 0x25#8 then
      -- the pointer moves on to the specifier, whatever stands there
      let s := { s with p := s.p + 1, reads := (s.p + 1) :: s.reads }
      match directive fpu m (m.get s.p) s.args with
      | none => .error s
      | some (bytes, args) =>
        printfLoop fpu m fuel { s with p := s.p + 1, args := args, out := s.out ++ bytes }
    else printfLoop fpu m fuel { s with p := s.p + 1, out := s.out ++ [m.get s.p] }

/-- The first rounds of `printf(format, ...)`, whose arguments lie at `args`. -/
def printfRounds {D : Type} (fpu : Fpu D) (m : Mem) (format args fuel : ℕ) : Except Scan Scan :=
  printfLoop fpu m fuel ⟨format, args, [], []⟩

def printf {D : Type} (fpu : Fpu D) (m : Mem) (format args : ℕ) : Option (List Byte) :=
  match printfRounds fpu m format args addressSpace with
  | .error _ => none
  | .ok s => some (s.out ++ [0#8])

def formatReads : Except Scan Scan → List ℕ
  | .error s => s.reads
  | .ok s => s.reads

/-- What has been stored through `out` so far. -/
def stored : Except Scan Scan → List Byte
  | .error s => s.out
  | .ok s => s.out ++ [0#8]

/-- An ordinary character of the format, or a specifier with its argument. -/
inductive Piece where
  | lit (b : Byte)
  | text (bs : List Byte)
  | char (n : BitVec 32)
  | int (n : BitVec 32)
  | double (bits : BitVec 64)
  | hex (n : BitVec 32)
  | percent
  | unknown (c : Byte)

/-- The specifier `c`, with its argument at `args`, asks for a piece; the arguments go on at
`args'`. -/
inductive Asks (m : Mem) : Byte → ℕ → Piece → ℕ → Prop
  | text {args : ℕ} {bs : List Byte} (h : Spells m (m.load32 args).toNat bs) :
      Asks m 0x73#8 args (.text bs) (args + 4)
  | char (args : ℕ) : Asks m 0x63#8 args (.char (m.load32 args)) (args + 4)
  | int (args : ℕ) : Asks m 0x64#8 args (.int (m.load32 args)) (args + 4)
  | double (args : ℕ) : Asks m 0x66#8 args (.double (vaDouble m args)) (args + 8)
  | hex (args : ℕ) : Asks m 0x78#8 args (.hex (m.load32 args)) (args + 4)
  | percent (args : ℕ) : Asks m 0x25#8 args .percent args
  | unknown {c : Byte} (hc : c ∉ [0x73#8, 0x63#8, 0x64#8, 0x66#8, 0x78#8, 0x25#8]) (args : ℕ) :
      Asks m c args (.unknown c) args

/-- The characters of a format, with the arguments at `args`, ask for the pieces. A `%` that no
specifier follows asks for nothing. -/
inductive Matches (m : Mem) : List Byte → ℕ → List Piece → Prop
  | nil (args : ℕ) : Matches m [] args []
  | lit {b : Byte} {bs : List Byte} {args : ℕ} {ps : List Piece} (hb : b ≠ 0x25#8)
      (h : Matches m bs args ps) : Matches m (b :: bs) args (.lit b :: ps)
  | lone (args : ℕ) : Matches m [0x25#8] args []
  | directive {c : Byte} {bs : List Byte} {args args' : ℕ} {p : Piece} {ps : List Piece}
      (hp : Asks m c args p args') (h : Matches m bs args' ps) :
      Matches m (0x25#8 :: c :: bs) args (p :: ps)

/-- The format as `printf` takes it from memory: it ends at the first NUL that stands where an
ordinary character or a `%` could. That NUL is at `q`. -/
inductive Scanned (m : Mem) : ℕ → ℕ → List Piece → ℕ → Prop
  | stop {p : ℕ} (hp : m.get p = 0#8) (args : ℕ) : Scanned m p args [] p
  | lit {p args q : ℕ} {ps : List Piece} (hp : m.get p ≠ 0#8) (hb : m.get p ≠ 0x25#8)
      (h : Scanned m (p + 1) args ps q) : Scanned m p args (.lit (m.get p) :: ps) q
  | directive {p args args' q : ℕ} {a : Piece} {ps : List Piece} (hp : m.get p = 0x25#8)
      (ha : Asks m (m.get (p + 1)) args a args') (h : Scanned m (p + 2) args' ps q) :
      Scanned m p args (a :: ps) q

def expand : List Byte → List Byte
  | [] => []
  | [b] => [b]
  | b :: c :: bs => if b = 0x5C#8 then escaped c ++ expand bs else b :: expand (c :: bs)

def doubleText {D : Type} (fpu : Fpu D) (num : D) : List Byte :=
  let abs := if fpu.isNeg num then fpu.neg num else num
  (if fpu.isNeg num then [0x2D#8] else []) ++ numeral 10 (fpu.toInt abs).toNat ++
    0x2E#8 :: fracDigits fpu 6 (fpu.sub abs (fpu.ofInt (fpu.toInt abs)))

def Piece.render {D : Type} (fpu : Fpu D) : Piece → List Byte
  | lit b => [b]
  | text bs => expand bs
  | char n => [n.setWidth 8]
  | int n => intNumeral n.toInt
  | double bits => doubleText fpu (fpu.load bits)
  | hex n => numeral 16 n.toNat
  | percent => [0x25#8]
  | unknown c => [0x25#8, c]

/-- The number of characters of a piece. -/
def Piece.width {D : Type} (fpu : Fpu D) : Piece → ℕ
  | lit _ => 1
  | text bs => (expand bs).length
  | char _ => 1
  | int n => Nat.log 10 n.toInt.natAbs + if n.toInt < 0 then 2 else 1
  | double bits =>
    let num := fpu.load bits
    if fpu.isNeg num then Nat.log 10 (fpu.toInt (fpu.neg num)).toNat + 9
    else Nat.log 10 (fpu.toInt num).toNat + 8
  | hex n => Nat.log 16 n.toNat + 1
  | percent => 1
  | unknown _ => 2

theorem printfString_of_spells {m : Mem} {str fuel : ℕ} {bs : List Byte} (h : Spells m str bs)
    (hfuel : bs.length < fuel) : printfString m fuel str = some (expand bs) := by
  induction bs using expand.induct generalizing str fuel with
  | case1 =>
      obtain ⟨fuel, rfl⟩ : ∃ n, fuel = n + 1 := ⟨fuel - 1, by omega⟩
      have hnul : m.get str = 0#8 := h
      rw [printfString, if_pos hnul, expand]
  | case2 b =>
      obtain ⟨fuel, rfl⟩ : ∃ n, fuel = n + 2 := ⟨fuel - 2, by simp at hfuel; omega⟩
      obtain ⟨hb, hne, hnul⟩ := h
      have hnul : m.get (str + 1) = 0#8 := hnul
      rw [printfString, hb, if_neg hne, if_neg fun hc => hc.2 hnul, printfString, if_pos hnul,
        expand]
      rfl
  | case3 c bs ih =>
      obtain ⟨fuel, rfl⟩ : ∃ n, fuel = n + 1 := ⟨fuel - 1, by omega⟩
      obtain ⟨hb, hne, hc, hcne, hrest⟩ := h
      rw [List.length_cons, List.length_cons] at hfuel
      rw [printfString, hb, if_neg hne, hc, if_pos ⟨rfl, hcne⟩, ih hrest (by omega), expand,
        if_pos rfl]
      rfl
  | case4 b c bs hesc ih =>
      obtain ⟨fuel, rfl⟩ : ∃ n, fuel = n + 1 := ⟨fuel - 1, by omega⟩
      obtain ⟨hb, hne, hrest⟩ := h
      rw [List.length_cons] at hfuel
      rw [printfString, hb, if_neg hne, if_neg fun hc => hesc hc.1, ih hrest (by omega), expand,
        if_neg hesc]
      rfl

theorem toNat_printfInt_abs (num : BitVec 32) :
    (if num.slt 0#32 then -(num + 1#32) + 1#32 else num).toNat = num.toInt.natAbs := by
  have hlt := num.isLt
  have hneg : -(num + 1#32) + 1#32 = -num := by
    rw [BitVec.neg_add, BitVec.sub_add_cancel]
  rw [hneg]
  by_cases h : num.slt 0#32 = true
  · rw [if_pos h]
    rw [BitVec.slt_iff_toInt_lt, BitVec.toInt_zero] at h
    rw [BitVec.toNat_neg]
    rw [BitVec.toInt_eq_toNat_cond] at h ⊢
    split at h
    · omega
    · rw [if_neg (by assumption)]
      omega
  · rw [if_neg h]
    rw [BitVec.slt_iff_toInt_lt, BitVec.toInt_zero] at h
    rw [BitVec.toInt_eq_toNat_cond] at h ⊢
    split at h
    · rw [if_pos (by assumption), Int.natAbs_natCast]
    · omega

theorem printfInt_eq (num : BitVec 32) : printfInt num = some (intNumeral num.toInt) := by
  have hsign : num.slt 0#32 = true ↔ num.toInt < 0 := BitVec.slt_iff_toInt_lt
  rw [printfInt, decDigits_eq (by decide), toNat_printfInt_abs]
  simp only [hsign, Option.bind_eq_bind, Option.bind_some, List.reverse_reverse, intNumeral]
  split <;> rfl

theorem printfHex_eq (num : BitVec 32) : printfHex num = some (numeral 16 num.toNat) := by
  rw [printfHex, hexDigits_eq (by decide), Option.bind_eq_bind, Option.bind_some,
    List.reverse_reverse]

theorem printfDouble_eq {D : Type} (fpu : Fpu D) (num : D) :
    printfDouble fpu num = some (doubleText fpu num) := by
  rw [printfDouble, decDigits_eq (by decide), Option.bind_eq_bind, Option.bind_some,
    List.reverse_reverse, List.append_assoc]
  rfl

theorem directive_of_asks {D : Type} (fpu : Fpu D) {m : Mem} {c : Byte} {args args' : ℕ} {p : Piece}
    (h : Asks m c args p args') : directive fpu m c args = some (p.render fpu, args') := by
  cases h with
  | text h =>
      rw [directive, if_pos rfl, printfString_of_spells h h.length_lt]
      rfl
  | char => rfl
  | int =>
      rw [directive, printfInt_eq]
      rfl
  | double =>
      rw [directive, printfDouble_eq]
      rfl
  | hex =>
      rw [directive, printfHex_eq]
      rfl
  | percent => rfl
  | unknown hc =>
      simp only [List.mem_cons, List.not_mem_nil, or_false, not_or] at hc
      obtain ⟨hs, hchar, hd, hf, hx, hpercent⟩ := hc
      rw [directive, if_neg hs, if_neg hchar, if_neg hd, if_neg hf, if_neg hx, if_neg hpercent]
      rfl

theorem length_fracDigits {D : Type} (fpu : Fpu D) (n : ℕ) (num : D) :
    (fracDigits fpu n num).length = n := by
  induction n generalizing num with
  | zero => rfl
  | succ n ih => rw [fracDigits, List.length_cons, ih]

theorem length_intNumeral (n : ℤ) :
    (intNumeral n).length = Nat.log 10 n.natAbs + if n < 0 then 2 else 1 := by
  rw [intNumeral]
  split
  · rw [List.length_cons, length_numeral (by decide)]
  · rw [length_numeral (by decide)]

theorem Piece.length_render {D : Type} (fpu : Fpu D) (p : Piece) :
    (p.render fpu).length = p.width fpu := by
  cases p with
  | lit => rfl
  | text => rfl
  | char => rfl
  | int n => exact length_intNumeral n.toInt
  | double bits =>
      rw [render, width, doubleText]
      simp only [List.length_append, List.length_cons, length_fracDigits,
        length_numeral (show 1 < 10 by decide)]
      split
      · rw [List.length_singleton]
        omega
      · rw [List.length_nil]
        omega
  | hex n => exact length_numeral (by decide) n.toNat
  | percent => rfl
  | unknown => rfl

end System44
