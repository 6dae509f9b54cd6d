import Mathlib.Data.List.Chain
import System44.Strtok

/-!
# All tokens of a string

`strtok` is called with a string and then with null until it returns null. The pieces that it finds
lie between one delimiter and the next, so that some of them are empty; the tokens of the C library
are the maximal runs of other characters, none of which is.
-/

namespace System44

def strchrLoop (m : Mem) (c : Byte) : ℕ → ℕ → Option (Option ℕ)
  | 0, _ => none
  | fuel + 1, s =>
    if m.get s ≠ 0#8 then
      if m.get s = c then some (some s) else strchrLoop m c fuel (s + 1)
    else some none

def strchr (m : Mem) (s : ℕ) (c : Byte) : Option (Option ℕ) := strchrLoop m c addressSpace s

def strtokInLoop (m : Mem) (delim : ℕ) : ℕ → ℕ → Option ℕ
  | 0, _ => none
  | fuel + 1, next =>
    if m.get next ≠ 0#8 then do
      let found ← strchr m delim (m.get next)
      if found.isNone then strtokInLoop m delim fuel (next + 1) else some next
    else some next

def strtokIn (m : Mem) (next str : Option ℕ) (delim : ℕ) : Option (Mem × Option ℕ × Option ℕ) := do
  let next := if str.isSome then str else next
  match next with
  | none => some (m, none, none)
  | some start =>
    let next ← strtokInLoop m delim addressSpace start
    if m.get next ≠ 0#8 then some (m.set next 0#8, some (next + 1), some start)
    else some (m, none, some start)

/-- The strings that the calls return, the first one with `str` and the others with null, up to the
first null pointer. -/
def strtokAll (delim : ℕ) : ℕ → Mem → Option ℕ → Option ℕ → Option (List (List Byte))
  | 0, _, _, _ => none
  | calls + 1, m, next, str => do
    let (m, next, token) ← strtokIn m next str delim
    match token with
    | none => some []
    | some token =>
      let bs ← cString m token
      let rest ← strtokAll delim calls m next none
      some (bs :: rest)

/-- The maximal runs of characters that are no delimiters, of which one has begun already or not. -/
def runs (delim : List Byte) : Bool → List Byte → List (List Byte)
  | _, [] => []
  | begun, b :: bs =>
    if b ∈ delim then runs delim false bs
    else if begun then runs delim true bs
    else firstToken delim (b :: bs) :: runs delim true bs

theorem strchrLoop_of_spells {m : Mem} {s fuel : ℕ} {ds : List Byte} (h : Spells m s ds)
    (hfuel : ds.length < fuel) (c : Byte) :
    ∃ found, strchrLoop m c fuel s = some found ∧ (found = none ↔ c ∉ ds) := by
  induction ds generalizing s fuel with
  | nil =>
      obtain ⟨fuel, rfl⟩ : ∃ n, fuel = n + 1 := ⟨fuel - 1, by omega⟩
      have hnul : m.get s = 0#8 := h
      exact ⟨none, by rw [strchrLoop, if_neg (not_not_intro hnul)], by simp⟩
  | cons d ds ih =>
      obtain ⟨fuel, rfl⟩ : ∃ n, fuel = n + 1 := ⟨fuel - 1, by omega⟩
      obtain ⟨hd, hne, hrest⟩ := h
      rw [List.length_cons] at hfuel
      rw [strchrLoop, hd, if_pos hne]
      by_cases hc : d = c
      · exact ⟨some s, if_pos hc, by simp [hc]⟩
      · obtain ⟨found, hfound, hiff⟩ := ih hrest (Nat.lt_of_succ_lt_succ hfuel)
        refine ⟨found, (if_neg hc).trans hfound, hiff.trans ?_⟩
        rw [List.mem_cons, not_or]
        exact (and_iff_right (Ne.symm hc)).symm

theorem strtokInLoop_eq {m : Mem} {delim : ℕ} {ds : List Byte} (h : Spells m delim ds)
    (fuel start : ℕ) : strtokInLoop m delim fuel start = strtokLoop m ds fuel start := by
  induction fuel generalizing start with
  | zero => rfl
  | succ fuel ih =>
      obtain ⟨found, hfound, hiff⟩ := strchrLoop_of_spells h h.length_lt (m.get start)
      rw [← Option.isNone_iff_eq_none] at hiff
      rw [strtokInLoop, strtokLoop, strchr, hfound, Option.bind_eq_bind, Option.bind_some, ih]
      by_cases hne : m.get start ≠ 0#8
      · by_cases hmem : m.get start ∈ ds
        · rw [if_pos hne, if_neg fun hnone => hiff.mp hnone hmem,
            if_neg fun hgo => strchrLit_eq_none_iff.mp hgo.2 hmem]
        · rw [if_pos hne, if_pos (hiff.mpr hmem), if_pos ⟨hne, strchrLit_eq_none_iff.mpr hmem⟩]
      · rw [if_neg hne, if_neg fun hgo => hne hgo.1]

theorem strtokIn_eq {m : Mem} {delim : ℕ} {ds : List Byte} (h : Spells m delim ds)
    (next str : Option ℕ) : strtokIn m next str delim = strtok m next str ds := by
  rw [strtokIn, strtok]
  cases (if str.isSome = true then str else next) with
  | none => rfl
  | some start => simp only [strtokInLoop_eq h]

/-- The bytes of two objects, of `n` and of `k` bytes, are different ones. -/
def Apart (a n b k : ℕ) : Prop := ∀ i < n, ∀ j < k, (a + i) % 2 ^ 32 ≠ (b + j) % 2 ^ 32

/-- A call leaves the first piece and goes on behind the delimiter, if there is one. -/
theorem strtok_step {m : Mem} {a : ℕ} {ds bs : List Byte} (h : Spells m a bs) {next str : Option ℕ}
    (hstart : (if str.isSome then str else next) = some a) :
    strtok m next str ds =
      if (firstToken ds bs).length < bs.length then
        some (m.set (a + (firstToken ds bs).length) 0#8,
          some (a + (firstToken ds bs).length + 1), some a)
      else some (m, none, some a) := by
  have hle := firstToken_length_le ds bs
  have hget := h.get_eq hle
  have hend : m.get (a + (firstToken ds bs).length) ≠ 0#8 ↔
      (firstToken ds bs).length < bs.length := by
    rw [hget]
    constructor
    · intro hne
      by_contra hge
      exact hne (List.getD_eq_default _ _ (Nat.le_of_not_lt hge))
    · intro hlt
      rw [List.getD_eq_getElem _ _ hlt]
      exact h.ne_zero _ (List.getElem_mem hlt)
  rw [strtok, hstart]
  dsimp only
  rw [strtokLoop_of_spells ds h h.length_lt, Option.bind_eq_bind, Option.bind_some]
  simp only [hend]

theorem splitOnP_eq (ds bs : List Byte) : bs.splitOnP (· ∈ ds) =
    firstToken ds bs :: if (firstToken ds bs).length < bs.length then
      (bs.drop ((firstToken ds bs).length + 1)).splitOnP (· ∈ ds) else [] := by
  induction bs with
  | nil => rfl
  | cons b bs ih =>
      rw [List.splitOnP_cons_eq_if_modifyHead]
      by_cases hb : b ∈ ds
      · simp [firstToken_cons_of_mem hb, hb]
      · rw [ih]
        simp [firstToken_cons_of_not_mem hb, hb]

theorem strtokAll_pieces {delim : ℕ} {ds : List Byte} {calls : ℕ} {m : Mem} {a : ℕ}
    {bs : List Byte} {next str : Option ℕ} (hcalls : bs.length + 1 < calls) (h : Spells m a bs)
    (hdelim : Spells m delim ds) (hapart : Apart a (bs.length + 1) delim (ds.length + 1))
    (hstart : (if str.isSome then str else next) = some a) :
    strtokAll delim calls m next str = some (bs.splitOnP (· ∈ ds)) := by
  induction calls generalizing m a bs next str with
  | zero => exact absurd hcalls (Nat.not_lt_zero _)
  | succ calls ih =>
      have hspace : addressSpace = 2 ^ 32 := rfl
      have hle := firstToken_length_le ds bs
      have hlen := h.length_lt
      rw [strtokAll, strtokIn_eq hdelim, strtok_step h hstart, splitOnP_eq]
      by_cases hlt : (firstToken ds bs).length < bs.length
      · rw [if_pos hlt, if_pos hlt]
        set cut := m.set (a + (firstToken ds bs).length) 0#8 with hcut
        have hkeep : ∀ t < addressSpace, t ≠ (firstToken ds bs).length →
            cut.get (a + t) = m.get (a + t) := fun t ht hne => Mem.get_set_of_ne _ _ (by omega)
        have htoken : Spells cut a (firstToken ds bs) :=
          spells_firstToken h (Mem.get_set_self ..) fun t ht => hkeep t (by omega) (by omega)
        have hrest : Spells cut (a + (firstToken ds bs).length + 1)
            (bs.drop ((firstToken ds bs).length + 1)) := by
          refine (h.drop hlt).congr fun t ht => ?_
          rw [List.length_drop] at ht
          rw [Nat.add_assoc a, Nat.add_assoc a]
          exact hkeep _ (by omega) (by omega)
        have hdelim' : Spells cut delim ds := hdelim.congr fun t ht =>
          Mem.get_set_of_ne _ _ (hapart _ (by omega) t (by omega)).symm
        have hapart' : Apart (a + (firstToken ds bs).length + 1)
            ((bs.drop ((firstToken ds bs).length + 1)).length + 1) delim (ds.length + 1) := by
          intro i hi j hj
          rw [List.length_drop] at hi
          rw [Nat.add_assoc a, Nat.add_assoc a]
          exact hapart _ (by omega) j hj
        have hothers : strtokAll delim calls cut (some (a + (firstToken ds bs).length + 1)) none =
            some ((bs.drop ((firstToken ds bs).length + 1)).splitOnP (· ∈ ds)) :=
          ih (by rw [List.length_drop]; omega) hrest hdelim' hapart' rfl
        rw [Option.bind_eq_bind, Option.bind_some]
        dsimp only
        rw [cString_of_spells htoken, Option.bind_eq_bind, Option.bind_some, hothers]
        rfl
      · rw [if_neg hlt, if_neg hlt]
        have htoken : Spells m a (firstToken ds bs) := by
          refine spells_firstToken h ?_ fun _ _ => rfl
          rw [h.get_eq hle, List.getD_eq_default _ _ (Nat.le_of_not_lt hlt)]
        have hnull : strtokAll delim calls m none none = some [] := by
          obtain ⟨calls, rfl⟩ : ∃ n, calls = n + 1 := ⟨calls - 1, by omega⟩
          rfl
        rw [Option.bind_eq_bind, Option.bind_some]
        dsimp only
        rw [cString_of_spells htoken, Option.bind_eq_bind, Option.bind_some, hnull]
        rfl

theorem strtokAll_mono {delim : ℕ} {calls : ℕ} {m : Mem} {next str : Option ℕ}
    {tokens : List (List Byte)} (h : strtokAll delim calls m next str = some tokens) (k : ℕ) :
    strtokAll delim (calls + k) m next str = some tokens := by
  induction calls generalizing m next str tokens with
  | zero => cases h
  | succ calls ih =>
      rw [strtokAll] at h
      rw [Nat.add_right_comm, strtokAll]
      obtain ⟨⟨m', next', token⟩, hcall, h⟩ := Option.bind_eq_some_iff.mp h
      rw [hcall, Option.bind_eq_bind, Option.bind_some]
      cases token with
      | none => exact h
      | some token =>
          obtain ⟨bs, hbs, h⟩ := Option.bind_eq_some_iff.mp h
          obtain ⟨rest, hrest, h⟩ := Option.bind_eq_some_iff.mp h
          dsimp only
          rw [hbs, Option.bind_eq_bind, Option.bind_some, ih hrest, Option.bind_eq_bind,
            Option.bind_some]
          exact h

theorem strtokAll_unique {delim calls calls' : ℕ} {m : Mem} {next str : Option ℕ}
    {tokens tokens' : List (List Byte)} (h : strtokAll delim calls m next str = some tokens)
    (h' : strtokAll delim calls' m next str = some tokens') : tokens = tokens' := by
  have hmore := strtokAll_mono h calls'
  rw [Nat.add_comm, strtokAll_mono h'] at hmore
  exact (Option.some.inj hmore).symm

section

variable {ds bs : List Byte} {b : Byte}

theorem splitOnP_cons_of_mem (hb : b ∈ ds) :
    (b :: bs).splitOnP (· ∈ ds) = [] :: bs.splitOnP (· ∈ ds) := by
  rw [List.splitOnP_cons_eq_if_modifyHead, if_pos (decide_eq_true hb)]

theorem splitOnP_cons_of_notMem (hb : b ∉ ds) : (b :: bs).splitOnP (· ∈ ds) =
    firstToken ds (b :: bs) :: (bs.splitOnP (· ∈ ds)).tail := by
  have hhead : bs.splitOnP (· ∈ ds) = firstToken ds bs :: (bs.splitOnP (· ∈ ds)).tail := by
    rw [splitOnP_eq, List.tail_cons]
  rw [List.splitOnP_cons_eq_if_modifyHead, if_neg (by simpa using hb), hhead,
    firstToken_cons_of_not_mem hb]
  rfl

/-- The runs are the pieces that are not empty; when one has begun already the first piece is the
rest of it. -/
theorem runs_eq_filter (ds bs : List Byte) :
    runs ds false bs = (bs.splitOnP (· ∈ ds)).filter (· ≠ []) ∧
      runs ds true bs = (bs.splitOnP (· ∈ ds)).tail.filter (· ≠ []) := by
  induction bs with
  | nil => exact ⟨rfl, rfl⟩
  | cons b bs ih =>
      by_cases hb : b ∈ ds
      · have hruns (begun : Bool) : runs ds begun (b :: bs) = runs ds false bs := if_pos hb
        rw [splitOnP_cons_of_mem hb, hruns, hruns]
        exact ⟨ih.1, ih.1⟩
      · have hne : firstToken ds (b :: bs) ≠ [] := by
          rw [firstToken_cons_of_not_mem hb]
          exact List.cons_ne_nil _ _
        have hstart : runs ds false (b :: bs) = firstToken ds (b :: bs) :: runs ds true bs :=
          if_neg hb
        have hgo : runs ds true (b :: bs) = runs ds true bs := if_neg hb
        rw [splitOnP_cons_of_notMem hb, hstart, hgo, List.tail_cons, ih.2]
        refine ⟨(List.filter_cons_of_pos ?_).symm, rfl⟩
        exact decide_eq_true hne

/-- Every piece is a run: there is a character, and a delimiter stands neither first nor last nor
behind another one. -/
structure Separated (ds bs : List Byte) : Prop where
  nonempty : bs ≠ []
  first : ∀ b ∈ bs.head?, b ∉ ds
  last : ∀ b ∈ bs.getLast?, b ∉ ds
  between : bs.IsChain fun b c => b ∉ ds ∨ c ∉ ds

theorem separated_singleton (hb : b ∉ ds) : Separated ds [b] where
  nonempty := List.cons_ne_nil _ _
  first := by simpa using hb
  last := by simpa using hb
  between := List.isChain_singleton b

theorem separated_cons_of_notMem {c : Byte} {cs : List Byte} (hb : b ∉ ds) (hc : c ∉ ds) :
    Separated ds (b :: c :: cs) ↔ Separated ds (c :: cs) := by
  constructor
  · intro h
    exact ⟨List.cons_ne_nil _ _, by simpa using hc, by simpa using h.last,
      (List.isChain_cons_cons.mp h.between).2⟩
  · intro h
    exact ⟨List.cons_ne_nil _ _, by simpa using hb, by simpa using h.last,
      List.isChain_cons_cons.mpr ⟨Or.inl hb, h.between⟩⟩

theorem separated_cons_of_mem {c : Byte} {cs : List Byte} (hb : b ∉ ds) (hc : c ∈ ds) :
    Separated ds (b :: c :: cs) ↔ Separated ds cs := by
  cases cs with
  | nil =>
      refine iff_of_false (fun h => ?_) fun h => h.nonempty rfl
      exact h.last c (by simp) hc
  | cons d cs =>
      constructor
      · intro h
        obtain ⟨-, hchain⟩ := List.isChain_cons_cons.mp h.between
        obtain ⟨hnext, hrest⟩ := List.isChain_cons_cons.mp hchain
        exact ⟨List.cons_ne_nil _ _, by simpa [hc] using hnext, by simpa using h.last, hrest⟩
      · intro h
        have hd : d ∉ ds := h.first d rfl
        exact ⟨List.cons_ne_nil _ _, by simpa using hb, by simpa using h.last,
          List.isChain_cons_cons.mpr ⟨Or.inl hb,
            List.isChain_cons_cons.mpr ⟨Or.inr hd, h.between⟩⟩⟩

/-- No piece is empty exactly when the delimiters separate; for the second half a character that is
none stands before. -/
theorem nil_notMem_splitOnP (ds bs : List Byte) :
    ([] ∉ bs.splitOnP (· ∈ ds) ↔ Separated ds bs) ∧
      ∀ b ∉ ds, [] ∉ (bs.splitOnP (· ∈ ds)).tail ↔ Separated ds (b :: bs) := by
  induction bs with
  | nil =>
      refine ⟨iff_of_false (not_not_intro ?_) fun h => h.nonempty rfl, fun b hb => ?_⟩
      · exact List.mem_singleton_self []
      · exact iff_of_true List.not_mem_nil (separated_singleton hb)
  | cons c cs ih =>
      by_cases hc : c ∈ ds
      · rw [splitOnP_cons_of_mem hc]
        refine ⟨iff_of_false (not_not_intro List.mem_cons_self) fun h => h.first c rfl hc, ?_⟩
        intro b hb
        rw [separated_cons_of_mem hb hc]
        exact ih.1
      · have hne : firstToken ds (c :: cs) ≠ [] := by
          rw [firstToken_cons_of_not_mem hc]
          exact List.cons_ne_nil _ _
        rw [splitOnP_cons_of_notMem hc, List.mem_cons, not_or, List.tail_cons]
        refine ⟨(and_iff_right hne.symm).trans (ih.2 c hc), fun b hb => ?_⟩
        rw [separated_cons_of_notMem hb hc]
        exact ih.2 c hc

end

/-- The results of `strtok` are the runs of other characters than delimiters exactly when every
delimiter stands between two of them. -/
theorem strtok_runs_iff {m : Mem} {a delim : ℕ} {bs ds : List Byte} (h : Spells m a bs)
    (hdelim : Spells m delim ds) (hapart : Apart a (bs.length + 1) delim (ds.length + 1))
    (next : Option ℕ) :
    (∃ calls, strtokAll delim calls m next (some a) = some (runs ds false bs)) ↔
      Separated ds bs := by
  have hpieces : strtokAll delim (bs.length + 2) m next (some a) =
      some (bs.splitOnP (· ∈ ds)) :=
    strtokAll_pieces (Nat.lt_succ_self _) h hdelim hapart rfl
  rw [← (nil_notMem_splitOnP ds bs).1, (runs_eq_filter ds bs).1]
  constructor
  · rintro ⟨calls, hruns⟩
    intro hmem
    rw [strtokAll_unique hpieces hruns, List.mem_filter] at hmem
    exact absurd rfl (of_decide_eq_true hmem.2)
  · intro hne
    refine ⟨_, hpieces.trans (congrArg some ?_)⟩
    refine (List.filter_eq_self.mpr fun piece hmem => ?_).symm
    exact decide_eq_true fun heq => hne (heq ▸ hmem)

/-- A line at 0x100, and the string of a blank at 0x200. -/
def lineMem (line : List Byte) : Mem where
  bytes a :=
    if 0x200 ≤ a then if a = 0x200 then 0x20#8 else 0#8
    else if 0x100 ≤ a then line.getD (a - 0x100) 0#8 else 0#8
  writes := []

theorem lineMem_delim (line : List Byte) : Spells (lineMem line) 0x200 [0x20#8] :=
  ⟨rfl, by decide, rfl⟩

/-- The line "ls a". -/
theorem words_separated :
    ∃ calls, strtokAll 0x200 calls (lineMem [0x6C#8, 0x73#8, 0x20#8, 0x61#8]) none (some 0x100) =
      some (runs [0x20#8] false [0x6C#8, 0x73#8, 0x20#8, 0x61#8]) := by
  have hline : Spells (lineMem [0x6C#8, 0x73#8, 0x20#8, 0x61#8]) 0x100
      [0x6C#8, 0x73#8, 0x20#8, 0x61#8] :=
    ⟨rfl, by decide, rfl, by decide, rfl, by decide, rfl, by decide, rfl⟩
  exact (strtok_runs_iff hline (lineMem_delim _) (by unfold Apart; decide) none).mpr
    ⟨by decide, by decide, by decide, by decide⟩

/-- The line " ls", whose first token is empty. -/
theorem blank_not_separated :
    (∃ calls, strtokAll 0x200 calls (lineMem [0x20#8, 0x6C#8, 0x73#8]) none (some 0x100) =
      some [[], [0x6C#8, 0x73#8]]) ∧
    runs [0x20#8] false [0x20#8, 0x6C#8, 0x73#8] = [[0x6C#8, 0x73#8]] ∧
    ¬ ∃ calls, strtokAll 0x200 calls (lineMem [0x20#8, 0x6C#8, 0x73#8]) none (some 0x100) =
      some (runs [0x20#8] false [0x20#8, 0x6C#8, 0x73#8]) := by
  have hline : Spells (lineMem [0x20#8, 0x6C#8, 0x73#8]) 0x100 [0x20#8, 0x6C#8, 0x73#8] :=
    ⟨rfl, by decide, rfl, by decide, rfl, by decide, rfl⟩
  have hcalls : strtokAll 0x200 5 (lineMem [0x20#8, 0x6C#8, 0x73#8]) none (some 0x100) =
      some [[], [0x6C#8, 0x73#8]] :=
    strtokAll_pieces (by decide) hline (lineMem_delim _) (by unfold Apart; decide) rfl
  refine ⟨⟨5, hcalls⟩, by decide, ?_⟩
  rintro ⟨calls, hruns⟩
  exact absurd (strtokAll_unique hcalls hruns) (by decide)

end System44
