import System44.Printf
import System44.Tty

/-!
# Time stamps of the log

`klog` puts the number of ticks before each message, as seconds with three decimals. The stamp is
built in an array of 33 characters.
-/

namespace System44

/-- `buf[pos++] = c` for one character after the other; no element lies outside the array. -/
def storeAll : List Byte → ℕ → List Byte → Option (List Byte × ℕ)
  | buf, pos, [] => some (buf, pos)
  | buf, pos, c :: cs => if pos < buf.length then storeAll (buf.set pos c) (pos + 1) cs else none

/-- `utoa(v, &buf[pos])`, with the array that it leaves and the number of digits. -/
def utoa (v : BitVec 32) (buf : List Byte) (pos : ℕ) : Option (List Byte × ℕ) :=
  if v = 0#32 then do
    let (buf, _) ← storeAll buf pos [0x30#8, 0#8]
    some (buf, 1)
  else do
    let tmp ← digitLoop decChar (· / 10#32) 12 v []
    let (buf, _) ← storeAll buf pos (tmp.reverse ++ [0#8])
    some (buf, tmp.length)

/-- The array that `ts` passes to `tty_puts`; `buf` is what it held before. -/
def ts (ticks : BitVec 32) (buf : List Byte) : Option (List Byte) := do
  let sec := ticks / 1000#32
  let ms := ticks % 1000#32
  let (buf, pos) ← storeAll buf 0 [0x20#8, 0x5B#8, 0x20#8, 0x09#8]
  let (buf, len) ← utoa sec buf pos
  let (buf, _) ← storeAll buf (pos + len)
    [0x2E#8, (0x30#32 + ms / 100#32).setWidth 8, (0x30#32 + ms / 10#32 % 10#32).setWidth 8,
      (0x30#32 + ms % 10#32).setWidth 8, 0x5D#8, 0x20#8, 0#8]
  some buf

def klog (font : Font) (t : Tty) (ticks : BitVec 32) (buf msg : List Byte) : Option Tty := do
  let buf ← ts ticks buf
  let t := ttyPuts font t (buf.takeWhile (· ≠ 0#8))
  some (ttyPuts font t msg)

/-- Three digits, with leading zeros. -/
def threeDigits (n : ℕ) : List Byte := (numeral 10 n).leftpad 3 0x30#8

def stampHead : List Byte := [0x20#8, 0x5B#8, 0x20#8, 0x09#8]

def stampTail (ms : ℕ) : List Byte := 0x2E#8 :: (threeDigits ms ++ [0x5D#8, 0x20#8])

/-- The stamp for a number of ticks: seconds, a point and milliseconds. -/
def stamp (ticks : ℕ) : List Byte :=
  stampHead ++ numeral 10 (ticks / 1000) ++ stampTail (ticks % 1000)

/-- The ticks of a stamp. -/
def readStamp (bs : List Byte) : ℕ :=
  let number := bs.drop 4
  let sec := number.takeWhile (· ≠ 0x2E#8)
  let ms := (number.drop (sec.length + 1)).take 3
  1000 * readDecimal sec + readDecimal ms

theorem readDecimal_zeros (k : ℕ) (bs : List Byte) :
    readDecimal (List.replicate k 0x30#8 ++ bs) = readDecimal bs := by
  induction k with
  | zero => rfl
  | succ k ih => exact ih

theorem length_threeDigits {n : ℕ} (hn : n < 1000) : (threeDigits n).length = 3 := by
  have hle : (numeral 10 n).length ≤ 3 :=
    (length_numeral_le_iff (by decide) (by decide)).mpr hn
  rw [threeDigits, List.length_leftpad]
  exact Nat.max_eq_left hle

theorem length_stampTail {ms : ℕ} (hms : ms < 1000) : (stampTail ms).length = 6 := by
  rw [stampTail, List.length_cons, List.length_append, length_threeDigits hms]
  rfl

theorem readStamp_stamp (ticks : ℕ) : readStamp (stamp ticks) = ticks := by
  have hpoint : ∀ b ∈ numeral 10 (ticks / 1000), decide (b ≠ 0x2E#8) = true := by
    intro b hb
    rw [decide_eq_true_eq]
    rintro rfl
    exact not_mem_numeral (by decide) (by decide) (by decide) _ hb
  have hdrop : (stamp ticks).drop 4 =
      numeral 10 (ticks / 1000) ++ stampTail (ticks % 1000) := rfl
  have hsec : ((stamp ticks).drop 4).takeWhile (· ≠ 0x2E#8) = numeral 10 (ticks / 1000) := by
    rw [hdrop, List.takeWhile_append_of_pos hpoint]
    exact List.append_nil _
  have hms : (((stamp ticks).drop 4).drop ((numeral 10 (ticks / 1000)).length + 1)).take 3 =
      threeDigits (ticks % 1000) := by
    rw [hdrop, List.drop_length_add_append]
    have hlen := length_threeDigits (Nat.mod_lt ticks (show 0 < 1000 by decide))
    exact List.take_left' hlen
  rw [readStamp, hsec, hms, readDecimal_numeral, threeDigits, List.leftpad, readDecimal_zeros,
    readDecimal_numeral]
  exact Nat.div_add_mod ticks 1000

theorem storeAll_eq (pre : List Byte) {junk bs : List Byte} (h : bs.length ≤ junk.length) :
    storeAll (pre ++ junk) pre.length bs =
      some (pre ++ bs ++ junk.drop bs.length, pre.length + bs.length) := by
  induction bs generalizing pre junk with
  | nil => rw [storeAll, List.append_nil, List.length_nil, List.drop_zero, Nat.add_zero]
  | cons b bs ih =>
      cases junk with
      | nil => exact absurd h (Nat.not_succ_le_zero _)
      | cons j junk =>
          have hlt : pre.length < (pre ++ j :: junk).length := by
            rw [List.length_append, List.length_cons]
            omega
          have hset : (pre ++ j :: junk).set pre.length b = pre ++ [b] ++ junk := by
            rw [List.set_append_right _ _ (Nat.le_refl _), Nat.sub_self, List.append_assoc]
            rfl
          have hrest := ih (pre ++ [b]) (Nat.le_of_succ_le_succ h)
          rw [List.length_append, List.length_singleton] at hrest
          rw [storeAll, if_pos hlt, hset, hrest, List.append_assoc pre, List.length_cons,
            List.drop_succ_cons, Nat.add_right_comm, Nat.add_assoc]
          rfl

theorem utoa_eq (v : BitVec 32) (pre : List Byte) {junk : List Byte} (h : 11 ≤ junk.length) :
    utoa v (pre ++ junk) pre.length =
      some (pre ++ numeral 10 v.toNat ++ 0#8 :: junk.drop ((numeral 10 v.toNat).length + 1),
        (numeral 10 v.toNat).length) := by
  have hlen : (numeral 10 v.toNat).length ≤ 10 :=
    (length_numeral_le_iff (by decide) (by decide)).mpr (v.isLt.trans (by decide))
  have hfit : (numeral 10 v.toNat ++ [0#8]).length ≤ junk.length := by
    rw [List.length_append, List.length_singleton]
    omega
  have hstore := storeAll_eq pre hfit
  rw [List.length_append, List.length_singleton, ← List.append_assoc pre, List.append_assoc _ [0#8],
    List.singleton_append] at hstore
  have hdigits := decDigits_eq (show 10 ≤ 12 by decide) v
  rw [digitsOf] at hdigits
  rw [utoa]
  by_cases hv : v = 0#32
  · rw [if_pos hv, Option.some_inj] at hdigits
    have hzero : numeral 10 v.toNat = [0x30#8] := by
      rw [← List.reverse_inj, ← hdigits]
      rfl
    rw [hzero] at hstore ⊢
    rw [if_pos hv]
    exact congrArg (fun r => r >>= fun p => some (p.1, 1)) hstore
  · rw [if_neg hv] at hdigits ⊢
    rw [hdigits, Option.bind_eq_bind, Option.bind_some, List.reverse_reverse, hstore,
      List.length_reverse]
    rfl

theorem threeDigits_eq {n : ℕ} (hn : n < 1000) :
    threeDigits n = numeral 10 (n / 100) ++ numeral 10 (n / 10 % 10) ++ numeral 10 (n % 10) := by
  have hlast : n % 10 < 10 := Nat.mod_lt n (by decide)
  have hmiddle : n / 10 % 10 < 10 := Nat.mod_lt _ (by decide)
  have hzero : numeral 10 0 = [0x30#8] := numeral_of_lt (by decide)
  rcases Nat.lt_or_ge n 10 with h | h
  · rw [threeDigits, Nat.div_eq_of_lt h, Nat.div_eq_of_lt (h.trans (by decide)),
      Nat.mod_eq_of_lt h, hzero, numeral_of_lt h]
    rfl
  · rw [threeDigits, numeral_of_le (by decide) h, numeral_of_lt hlast]
    rcases Nat.lt_or_ge n 100 with h' | h'
    · have hlt : n / 10 < 10 := by omega
      rw [Nat.div_eq_of_lt h', Nat.mod_eq_of_lt hlt, hzero, numeral_of_lt hlt]
      rfl
    · have hfirst : n / 10 / 10 = n / 100 := Nat.div_div_eq_div_mul n 10 10
      have hlt : n / 100 < 10 := by omega
      rw [numeral_of_le (by decide) (show 10 ≤ n / 10 by omega), hfirst, numeral_of_lt hmiddle,
        numeral_of_lt hlt]
      rfl

theorem stampTail_toNat {ms : BitVec 32} (hms : ms.toNat < 1000) :
    [0x2E#8, (0x30#32 + ms / 100#32).setWidth 8, (0x30#32 + ms / 10#32 % 10#32).setWidth 8,
      (0x30#32 + ms % 10#32).setWidth 8, 0x5D#8, 0x20#8, 0#8] = stampTail ms.toNat ++ [0#8] := by
  have hfirst : (ms / 100#32).toNat = ms.toNat / 100 := BitVec.toNat_udiv
  have hmiddle : (ms / 10#32 % 10#32).toNat = ms.toNat / 10 % 10 := by
    rw [BitVec.toNat_umod, BitVec.toNat_udiv]
    rfl
  have hlast : (ms % 10#32).toNat = ms.toNat % 10 := BitVec.toNat_umod
  rw [stampTail, threeDigits_eq hms, ← hfirst, ← hmiddle, ← hlast, ← digitChar_eq (by omega),
    ← digitChar_eq (by omega), ← digitChar_eq (by omega)]
  rfl

theorem ts_eq (ticks : BitVec 32) {buf : List Byte} (hbuf : buf.length = 33) :
    ∃ rest, ts ticks buf = some (stamp ticks.toNat ++ 0#8 :: rest) := by
  have hsec : (ticks / 1000#32).toNat = ticks.toNat / 1000 := BitVec.toNat_udiv
  have hms : (ticks % 1000#32).toNat = ticks.toNat % 1000 := BitVec.toNat_umod
  have hlt : ticks.toNat % 1000 < 1000 := Nat.mod_lt _ (by decide)
  have hlen : (numeral 10 (ticks.toNat / 1000)).length ≤ 10 := by
    rw [length_numeral_le_iff (by decide) (by decide)]
    have hticks := ticks.isLt
    omega
  have hfront : storeAll buf 0 stampHead = some (stampHead ++ buf.drop 4, 4) :=
    storeAll_eq [] (show 4 ≤ buf.length by omega)
  have hutoa := utoa_eq (ticks / 1000#32) stampHead (show 11 ≤ (buf.drop 4).length by
    rw [List.length_drop]
    omega)
  rw [hsec] at hutoa
  -- the NUL behind the seconds is overwritten by the point
  have hfit : (stampTail (ticks.toNat % 1000) ++ [0#8]).length ≤
      (0#8 :: (buf.drop 4).drop ((numeral 10 (ticks.toNat / 1000)).length + 1)).length := by
    rw [List.length_append, length_stampTail hlt, List.length_singleton, List.length_cons,
      List.length_drop, List.length_drop]
    omega
  have hback := storeAll_eq (stampHead ++ numeral 10 (ticks.toNat / 1000)) hfit
  rw [List.length_append, ← List.append_assoc _ (stampTail _), List.append_assoc _ [0#8]] at hback
  have hstored := stampTail_toNat (show (ticks % 1000#32).toNat < 1000 by rwa [hms])
  rw [hms] at hstored
  refine ⟨(0#8 :: (buf.drop 4).drop ((numeral 10 (ticks.toNat / 1000)).length + 1)).drop
    (stampTail (ticks.toNat % 1000) ++ [0#8]).length, ?_⟩
  rw [ts, hstored]
  change (storeAll buf 0 stampHead >>= _) = _
  rw [hfront]
  change (utoa (ticks / 1000#32) (stampHead ++ buf.drop 4) stampHead.length >>= _) = _
  rw [hutoa]
  change (storeAll _ (stampHead.length + _) _ >>= _) = _
  rw [hback]
  rfl

theorem stamp_ne_zero (ticks : ℕ) : ∀ b ∈ stamp ticks, b ≠ 0#8 := by
  have hnumeral : ∀ n, ∀ b ∈ numeral 10 n, b ≠ 0#8 := by
    rintro n _ hb rfl
    exact not_mem_numeral (by decide) (by decide) (by decide) n hb
  intro b hb
  rw [stamp, stampTail, threeDigits, List.leftpad] at hb
  simp only [List.mem_append, List.mem_cons, List.mem_replicate] at hb
  rcases hb with (hb | hb) | rfl | ((⟨-, rfl⟩ | hb) | hb)
  · revert b
    decide
  · exact hnumeral _ b hb
  · decide
  · decide
  · exact hnumeral _ b hb
  · revert b
    decide

theorem klog_eq (font : Font) (t : Tty) (ticks : BitVec 32) {buf : List Byte}
    (hbuf : buf.length = 33) (msg : List Byte) :
    klog font t ticks buf msg =
      some (ttyPuts font (ttyPuts font t (stamp ticks.toNat)) msg) := by
  obtain ⟨rest, hts⟩ := ts_eq ticks hbuf
  have hshown : (stamp ticks.toNat ++ 0#8 :: rest).takeWhile (· ≠ 0#8) = stamp ticks.toNat := by
    rw [List.takeWhile_append_of_pos fun b hb => decide_eq_true (stamp_ne_zero _ b hb)]
    exact List.append_nil _
  rw [klog, hts, Option.bind_eq_bind, Option.bind_some, hshown]

/-- `%d` stores the decimal numeral of its argument and `%x` the hexadecimal one, `klog` shows the
stamp of the ticks, and the ticks can be read from it. No digit, of `%f` either, is stored outside
its array. -/
theorem numbers_exact {D : Type} (fpu : Fpu D) (m : Mem) (args : ℕ) (font : Font) (t : Tty)
    (ticks : BitVec 32) (buf : Vector Byte 33) (msg : List Byte) :
    directive fpu m 0x64#8 args = some (intNumeral (m.load32 args).toInt, args + 4) ∧
      directive fpu m 0x78#8 args = some (numeral 16 (m.load32 args).toNat, args + 4) ∧
      (directive fpu m 0x66#8 args).isSome ∧
      klog font t ticks buf.toList msg =
        some (ttyPuts font (ttyPuts font t (stamp ticks.toNat)) msg) ∧
      readStamp (stamp ticks.toNat) = ticks.toNat :=
  ⟨directive_of_asks fpu (.int args), directive_of_asks fpu (.hex args),
    Option.isSome_of_eq_some (directive_of_asks fpu (.double args)),
    klog_eq font t ticks buf.length_toList msg, readStamp_stamp ticks.toNat⟩

end System44
