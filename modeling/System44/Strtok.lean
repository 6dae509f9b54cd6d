import Mathlib.Data.List.GetD
import Mathlib.Data.List.TakeWhile
import System44.CString

/-!
# Tokens

`strtok` cuts a string where a delimiter stands by storing a NUL there, and remembers in a static
variable where the rest begins. A string is described by the characters it spells.
-/

namespace System44

/-- The string at `a` has the characters `bs`. -/
def Spells (m : Mem) : ℕ → List Byte → Prop
  | a, [] => m.get a = 0#8
  | a, b :: bs => m.get a = b ∧ b ≠ 0#8 ∧ Spells m (a + 1) bs

def cStringLoop (m : Mem) : ℕ → ℕ → Option (List Byte)
  | 0, _ => none
  | fuel + 1, s =>
    if m.get s = 0#8 then some [] else (cStringLoop m fuel (s + 1)).map (m.get s :: ·)

def cString (m : Mem) (s : ℕ) : Option (List Byte) := cStringLoop m addressSpace s

def strchrLit (s : List Byte) (c : Byte) : Option ℕ := s.idxOf? c

/-- The loop of `strtok`, which ends at a NUL or at a delimiter. -/
def strtokLoop (m : Mem) (delim : List Byte) : ℕ → ℕ → Option ℕ
  | 0, _ => none
  | fuel + 1, next =>
    if m.get next ≠ 0#8 ∧ strchrLit delim (m.get next) = none then
      strtokLoop m delim fuel (next + 1)
    else some next

/-- The result is the memory, the static `next` and the token; null pointers are `none`. -/
def strtok (m : Mem) (next str : Option ℕ) (delim : List Byte) :
    Option (Mem × Option ℕ × Option ℕ) := do
  let next := if str.isSome then str else next
  match next with
  | none => some (m, none, none)
  | some start =>
    let next ← strtokLoop m delim addressSpace start
    if m.get next ≠ 0#8 then some (m.set next 0#8, some (next + 1), some start)
    else some (m, none, some start)

theorem Spells.congr {m m' : Mem} {a a' : ℕ} {bs : List Byte} (h : Spells m a bs)
    (heq : ∀ t ≤ bs.length, m'.get (a' + t) = m.get (a + t)) : Spells m' a' bs := by
  induction bs generalizing a a' with
  | nil => exact (heq 0 (Nat.zero_le _)).trans h
  | cons b bs ih =>
      obtain ⟨hb, hne, hrest⟩ := h
      refine ⟨(heq 0 (Nat.zero_le _)).trans hb, hne, ih hrest fun t ht => ?_⟩
      rw [Nat.add_right_comm, Nat.add_right_comm a]
      exact heq (t + 1) (Nat.succ_le_succ ht)

/-- A string that is stored character by character. -/
theorem spells_of_get {m : Mem} {a : ℕ} {bs : List Byte} (hne : ∀ b ∈ bs, b ≠ 0#8)
    (h : ∀ t ≤ bs.length, m.get (a + t) = bs.getD t 0#8) : Spells m a bs := by
  induction bs generalizing a with
  | nil => exact h 0 (Nat.le_refl 0)
  | cons b bs ih =>
      refine ⟨h 0 (Nat.zero_le _), hne b List.mem_cons_self, ih (fun x hx => ?_) fun t ht => ?_⟩
      · exact hne x (List.mem_cons_of_mem b hx)
      · rw [Nat.add_right_comm]
        exact h (t + 1) (Nat.succ_le_succ ht)

theorem Spells.get_eq {m : Mem} {a : ℕ} {bs : List Byte} (h : Spells m a bs) {t : ℕ}
    (ht : t ≤ bs.length) : m.get (a + t) = bs.getD t 0#8 := by
  induction bs generalizing a t with
  | nil =>
      obtain rfl : t = 0 := Nat.le_zero.mp ht
      exact h
  | cons b bs ih =>
      cases t with
      | zero => exact h.1
      | succ t =>
          rw [← Nat.add_assoc, Nat.add_right_comm]
          exact ih h.2.2 (Nat.le_of_succ_le_succ ht)

theorem Spells.drop {m : Mem} {a n : ℕ} {bs : List Byte} (h : Spells m a bs)
    (hn : n ≤ bs.length) : Spells m (a + n) (bs.drop n) := by
  induction n generalizing a bs with
  | zero => exact h
  | succ n ih =>
      cases bs with
      | nil => exact absurd hn (Nat.not_succ_le_zero n)
      | cons b bs =>
          rw [Nat.add_comm n 1, ← Nat.add_assoc, Nat.add_comm 1 n, List.drop_succ_cons]
          exact ih h.2.2 (Nat.le_of_succ_le_succ hn)

theorem Spells.ne_zero {m : Mem} {a : ℕ} {bs : List Byte} (h : Spells m a bs) :
    ∀ b ∈ bs, b ≠ 0#8 := by
  induction bs generalizing a with
  | nil => simp
  | cons b bs ih =>
      intro x hx
      rcases List.mem_cons.mp hx with rfl | hx
      · exact h.2.1
      · exact ih h.2.2 x hx

theorem Spells.stringAt {m : Mem} {a : ℕ} {bs : List Byte} (h : Spells m a bs) :
    StringAt m a bs.length := by
  constructor
  · intro i hi
    rw [h.get_eq hi.le, List.getD_eq_getElem _ _ hi]
    exact h.ne_zero _ (List.getElem_mem hi)
  · rw [h.get_eq (Nat.le_refl _), List.getD_eq_default _ _ (Nat.le_refl _)]

/-- A string ends before it has gone round the address space. -/
theorem Spells.length_lt {m : Mem} {a : ℕ} {bs : List Byte} (h : Spells m a bs) :
    bs.length < addressSpace := by
  have hspace : addressSpace = 2 ^ 32 := rfl
  by_contra hge
  -- the byte of the NUL is a character, one round earlier
  have hsame : m.get (a + (bs.length - 2 ^ 32)) = m.get (a + bs.length) := m.get_congr (by omega)
  exact h.stringAt.1 (bs.length - 2 ^ 32) (by omega) (hsame.trans h.stringAt.2)

theorem cStringLoop_of_spells {m : Mem} {a fuel : ℕ} {bs : List Byte} (h : Spells m a bs)
    (hfuel : bs.length < fuel) : cStringLoop m fuel a = some bs := by
  induction bs generalizing a fuel with
  | nil =>
      obtain ⟨fuel, rfl⟩ : ∃ n, fuel = n + 1 := ⟨fuel - 1, by omega⟩
      have hnul : m.get a = 0#8 := h
      rw [cStringLoop, if_pos hnul]
  | cons b bs ih =>
      obtain ⟨fuel, rfl⟩ : ∃ n, fuel = n + 1 := ⟨fuel - 1, by omega⟩
      obtain ⟨hb, hne, hrest⟩ := h
      rw [List.length_cons] at hfuel
      rw [cStringLoop, hb, if_neg hne, ih hrest (by omega), Option.map_some]

theorem cString_of_spells {m : Mem} {a : ℕ} {bs : List Byte} (h : Spells m a bs) :
    cString m a = some bs :=
  cStringLoop_of_spells h h.length_lt

theorem strcmpLit_eq_zero_iff {m : Mem} {a : ℕ} {bs lit : List Byte} (h : Spells m a bs)
    (hlit : 0#8 ∉ lit) : strcmpLit m a lit = 0 ↔ bs = lit := by
  induction lit generalizing a bs with
  | nil =>
      rw [strcmpLit]
      cases bs with
      | nil =>
          rw [show m.get a = 0#8 from h]
          exact iff_of_true rfl rfl
      | cons b bs =>
          have hne : (m.get a).toNat ≠ 0 := fun h0 =>
            h.2.1 (h.1.symm.trans (BitVec.eq_of_toNat_eq h0))
          exact iff_of_false (by exact_mod_cast hne) (List.cons_ne_nil b bs)
  | cons c lit ih =>
      rw [strcmpLit]
      have hc : 0#8 ≠ c := List.ne_of_not_mem_cons hlit
      replace hlit := List.not_mem_of_not_mem_cons hlit
      by_cases hgo : m.get a ≠ 0#8 ∧ m.get a = c
      · rw [if_pos hgo]
        cases bs with
        | nil => exact absurd h hgo.1
        | cons b bs =>
            obtain rfl : b = c := h.1.symm.trans hgo.2
            rw [ih h.2.2 hlit, List.cons_inj_right]
      · rw [if_neg hgo, sub_eq_zero, Int.ofNat_inj, BitVec.toNat_inj]
        have hne : m.get a ≠ c := by
          intro heq
          exact hgo ⟨fun h0 => hc (h0.symm.trans heq), heq⟩
        refine iff_of_false hne ?_
        rintro rfl
        exact hne h.1

/-- The first token of a string that does not begin with a delimiter; otherwise it is empty. -/
def firstToken (delim bs : List Byte) : List Byte := bs.takeWhile fun b => b ∉ delim

theorem firstToken_cons_of_mem {delim : List Byte} {b : Byte} (h : b ∈ delim) (bs : List Byte) :
    firstToken delim (b :: bs) = [] :=
  List.takeWhile_cons_of_neg (by simpa using h)

theorem firstToken_cons_of_not_mem {delim : List Byte} {b : Byte} (h : b ∉ delim)
    (bs : List Byte) : firstToken delim (b :: bs) = b :: firstToken delim bs :=
  List.takeWhile_cons_of_pos (by simpa using h)

theorem firstToken_length_le (delim bs : List Byte) : (firstToken delim bs).length ≤ bs.length :=
  (List.takeWhile_prefix _).length_le

theorem strchrLit_eq_none_iff {s : List Byte} {c : Byte} : strchrLit s c = none ↔ c ∉ s :=
  List.idxOf?_eq_none_iff

theorem strtokLoop_of_spells (delim : List Byte) {m : Mem} {a fuel : ℕ} {bs : List Byte}
    (h : Spells m a bs) (hfuel : bs.length < fuel) :
    strtokLoop m delim fuel a = some (a + (firstToken delim bs).length) := by
  induction bs generalizing a fuel with
  | nil =>
      obtain ⟨fuel, rfl⟩ : ∃ n, fuel = n + 1 := ⟨fuel - 1, by omega⟩
      have hnul : m.get a = 0#8 := h
      rw [strtokLoop, if_neg fun hgo => hgo.1 hnul]
      rfl
  | cons b bs ih =>
      obtain ⟨fuel, rfl⟩ : ∃ n, fuel = n + 1 := ⟨fuel - 1, by omega⟩
      obtain ⟨hb, hne, hrest⟩ := h
      rw [List.length_cons] at hfuel
      rw [strtokLoop, hb]
      by_cases hmem : b ∈ delim
      · rw [if_neg fun hgo => strchrLit_eq_none_iff.mp hgo.2 hmem, firstToken_cons_of_mem hmem]
        rfl
      · rw [if_pos ⟨hne, strchrLit_eq_none_iff.mpr hmem⟩, ih hrest (by omega),
          firstToken_cons_of_not_mem hmem, List.length_cons]
        congr 1
        omega

theorem spells_firstToken {m m' : Mem} {a : ℕ} {delim bs : List Byte} (h : Spells m a bs)
    (hcut : m'.get (a + (firstToken delim bs).length) = 0#8)
    (hkeep : ∀ t < (firstToken delim bs).length, m'.get (a + t) = m.get (a + t)) :
    Spells m' a (firstToken delim bs) := by
  obtain ⟨rest, hrest⟩ : firstToken delim bs <+: bs := List.takeWhile_prefix _
  have hle := firstToken_length_le delim bs
  refine spells_of_get (fun b hb => h.ne_zero b ?_) fun t ht => ?_
  · rw [← hrest]
    exact List.mem_append_left _ hb
  · rcases Nat.lt_or_eq_of_le ht with hlt | rfl
    · rw [hkeep t hlt, h.get_eq (by omega), ← List.getD_append _ rest _ _ hlt, hrest]
    · rw [hcut, List.getD_eq_default _ _ (Nat.le_refl _)]

theorem strtok_of_spells (delim : List Byte) {m : Mem} {a : ℕ} {bs : List Byte}
    (h : Spells m a bs) (next : Option ℕ) :
    ∃ m' next', strtok m next (some a) delim = some (m', next', some a) ∧
      Spells m' a (firstToken delim bs) ∧
      ∀ t < addressSpace, t ≠ (firstToken delim bs).length → m'.get (a + t) = m.get (a + t) := by
  have hspace : addressSpace = 2 ^ 32 := rfl
  have hlen := h.length_lt
  have hle := firstToken_length_le delim bs
  have hloop := strtokLoop_of_spells delim h hlen
  have hcall : strtok m next (some a) delim =
      if m.get (a + (firstToken delim bs).length) ≠ 0#8 then
        some (m.set (a + (firstToken delim bs).length) 0#8,
          some (a + (firstToken delim bs).length + 1), some a)
      else some (m, none, some a) := by
    rw [strtok, Option.isSome_some, if_pos rfl]
    dsimp only
    rw [hloop, Option.bind_eq_bind, Option.bind_some]
  by_cases hend : m.get (a + (firstToken delim bs).length) ≠ 0#8
  · have hkeep : ∀ t < addressSpace, t ≠ (firstToken delim bs).length →
        (m.set (a + (firstToken delim bs).length) 0#8).get (a + t) = m.get (a + t) := by
      intro t ht hne
      exact Mem.get_set_of_ne _ _ (by omega)
    refine ⟨_, _, hcall.trans (if_pos hend), ?_, hkeep⟩
    exact spells_firstToken h (Mem.get_set_self ..) fun t ht => hkeep t (by omega) (by omega)
  · refine ⟨m, none, hcall.trans (if_neg hend), ?_, fun _ _ _ => rfl⟩
    exact spells_firstToken h (not_not.mp hend) fun _ _ => rfl

theorem firstToken_firstToken (delim bs : List Byte) :
    firstToken delim (firstToken delim bs) = firstToken delim bs := List.takeWhile_idem

end System44
