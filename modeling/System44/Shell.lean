import Mathlib.Data.List.Infix
import System44.Strtok

/-!
# The command line

The shell edits the line in place: a backspace moves the cursor back and leaves the character where
it is. The first comparison with a command cuts the line at its first space, and the arguments are
taken at fixed places behind the commands' names.
-/

namespace System44

/-- The commands, in the order in which the shell tries them. -/
inductive Builtin
  | version
  | ls
  | clear
  | touch
  | cat
  | reboot
  | shutdown
  | exec
  | help
  deriving DecidableEq

def Builtin.name : Builtin → List Byte
  | version => asciiBytes ['v', 'e', 'r', 's', 'i', 'o', 'n']
  | ls => asciiBytes ['l', 's']
  | clear => asciiBytes ['c', 'l', 'e', 'a', 'r']
  | touch => asciiBytes ['t', 'o', 'u', 'c', 'h']
  | cat => asciiBytes ['c', 'a', 't']
  | reboot => asciiBytes ['r', 'e', 'b', 'o', 'o', 't']
  | shutdown => asciiBytes ['s', 'h', 'u', 't', 'd', 'o', 'w', 'n']
  | exec => asciiBytes ['e', 'x', 'e', 'c']
  | help => asciiBytes ['h', 'e', 'l', 'p']

def builtins : List Builtin :=
  [.version, .ls, .clear, .touch, .cat, .reboot, .shutdown, .exec, .help]

/-- Where in the line the argument of the command is taken from. -/
def Builtin.argument : Builtin → Option ℕ
  | touch => some 6
  | cat => some 4
  | exec => some 5
  | _ => none

inductive Branch
  | builtin (b : Builtin)
  | notFound
  | nothing
  deriving DecidableEq

/-- The inner loop of `sh`: the keys that `get_key` delivers, `m` with the line at `chars`, `i`. -/
def editLine (chars : ℕ) : List Byte → Mem → ℕ → Option Mem
  | [], _, _ => none
  | c :: keys, m, i =>
    if c = 8#8 then editLine chars keys m (if 0 < i then i - 1 else i)
    else if 127 ≤ i then some (m.set (chars + i) 0#8)
    else
      let m := m.set (chars + i) c
      if c = 10#8 then some (m.set (chars + i) 0#8) else editLine chars keys m (i + 1)

/-- The chain of `CMD_COMP`, each of which calls `strtok` again. -/
def dispatch (chars : ℕ) : List Builtin → Mem → Option ℕ → Option (Branch × Mem)
  | [], m, _ => some (if m.get chars ≠ 0#8 then .notFound else .nothing, m)
  | b :: bs, m, next => do
    let (m, next, token) ← strtok m next (some chars) [0x20#8]
    let s ← token
    if strcmpLit m s b.name = 0 then some (.builtin b, m) else dispatch chars bs m next

/-- One round of `sh`: the branch it takes and the string it passes to `touch`, `cat` or `exec`. -/
def shLine (m : Mem) (next : Option ℕ) (chars : ℕ) (keys : List Byte) :
    Option (Branch × Option (List Byte)) := do
  let m ← editLine chars keys (m.blit chars 128 fun _ => 0#8) 0
  let (branch, m) ← dispatch chars builtins m next
  match branch with
  | .builtin b =>
    match b.argument with
    | some offset => do
      let arg ← cString m (chars + offset)
      some (branch, some arg)
    | none => some (branch, none)
  | _ => some (branch, none)

/-- The pending line, its last character first, and the erased characters that still stand behind
it, from the cursor on. -/
structure Pending where
  line : List Byte
  erased : List Byte

/-- A backspace takes the last character. -/
def Pending.back (p : Pending) : Pending :=
  match p.line with
  | [] => p
  | x :: line => ⟨line, x :: p.erased⟩

/-- Any other key puts a character in the place of an erased one. -/
def Pending.type (p : Pending) (c : Byte) : Pending := ⟨c :: p.line, p.erased.tail⟩

def Pending.key (p : Pending) (c : Byte) : Pending := if c = 8#8 then p.back else p.type c

/-- The text that is left after every backspace has been applied. -/
def Pending.text (p : Pending) : List Byte := p.line.reverse

def pending (keys : List Byte) : Pending := keys.foldl Pending.key ⟨[], []⟩

/-- Keys without Enter, and without NUL, which the keyboard does not deliver, that keep the pending
line within 126 characters. -/
structure Typed (p : Pending) (keys : List Byte) : Prop where
  plain : ∀ c ∈ keys, c ≠ 0#8 ∧ c ≠ 10#8
  fits : ∀ typed, typed <+: keys → (typed.foldl Pending.key p).line.length ≤ 126

/-- The line in memory is what is pending, with what was erased behind it. -/
structure Edited (m : Mem) (chars : ℕ) (p : Pending) : Prop where
  bytes : ∀ t < 128, m.get (chars + t) = (p.text ++ p.erased).getD t 0#8
  length_le : (p.text ++ p.erased).length ≤ 126
  ne_zero : ∀ b ∈ p.text ++ p.erased, b ≠ 0#8

theorem getD_overtype (l e : List Byte) (c : Byte) (t : ℕ) :
    (l ++ c :: e.tail).getD t 0#8 = if t = l.length then c else (l ++ e).getD t 0#8 := by
  rcases Nat.lt_trichotomy t l.length with hlt | rfl | hgt
  · rw [if_neg hlt.ne, List.getD_append _ _ _ _ hlt, List.getD_append _ _ _ _ hlt]
  · rw [if_pos rfl, List.getD_append_right _ _ _ _ (Nat.le_refl _), Nat.sub_self]
    rfl
  · obtain ⟨d, rfl⟩ : ∃ d, t = l.length + (d + 1) := ⟨t - l.length - 1, by omega⟩
    rw [if_neg hgt.ne', List.getD_append_right _ _ _ _ hgt.le,
      List.getD_append_right _ _ _ _ hgt.le, Nat.add_sub_cancel_left]
    cases e with
    | nil => simp
    | cons x e => rfl

section

variable {m : Mem} {chars : ℕ} {p : Pending}

theorem edited_nil (m : Mem) (chars : ℕ) :
    Edited (m.blit chars 128 fun _ => 0#8) chars ⟨[], []⟩ where
  bytes t ht := by
    rw [Mem.get_blit_add _ _ _ (by decide) ht]
    rfl
  length_le := Nat.zero_le _
  ne_zero := by
    intro b hb
    cases hb

theorem Edited.set (h : Edited m chars p) (c : Byte) {t : ℕ} (ht : t < 128)
    (hlen : p.line.length < 128) :
    (m.set (chars + p.line.length) c).get (chars + t) =
      (p.text ++ c :: p.erased.tail).getD t 0#8 := by
  have hl : p.text.length = p.line.length := List.length_reverse
  rw [getD_overtype, hl]
  split
  · rename_i heq
    rw [heq, Mem.get_set_self]
  · rename_i hne
    rw [Mem.get_set_of_ne _ _ (by omega), h.bytes t ht]

theorem edited_back (h : Edited m chars p) : Edited m chars p.back := by
  rw [Pending.back]
  split
  · exact h
  · rename_i x line hline
    have hsame : (⟨line, x :: p.erased⟩ : Pending).text ++ x :: p.erased = p.text ++ p.erased := by
      rw [Pending.text, Pending.text, hline, List.reverse_cons, List.append_assoc]
      rfl
    refine ⟨?_, ?_, ?_⟩
    · rw [hsame]
      exact h.bytes
    · rw [hsame]
      exact h.length_le
    · rw [hsame]
      exact h.ne_zero

theorem length_back (p : Pending) : p.back.line.length = p.line.length - 1 := by
  obtain ⟨line, erased⟩ := p
  cases line <;> rfl

theorem edited_type (h : Edited m chars p) {c : Byte} (hc : c ≠ 0#8)
    (hfits : p.line.length + 1 ≤ 126) :
    Edited (m.set (chars + p.line.length) c) chars (p.type c) := by
  have hsame : (p.type c).text ++ (p.type c).erased = p.text ++ c :: p.erased.tail := by
    rw [Pending.text, Pending.type, List.reverse_cons, List.append_assoc]
    rfl
  have hlen := h.length_le
  have hl : p.text.length = p.line.length := List.length_reverse
  refine ⟨?_, ?_, ?_⟩
  · rw [hsame]
    exact fun t ht => h.set c ht (by omega)
  · rw [List.length_append] at hlen
    rw [hsame, List.length_append, List.length_cons, List.length_tail]
    omega
  · rw [hsame]
    intro b hb
    rcases List.mem_append.mp hb with hb | hb
    · exact h.ne_zero b (List.mem_append_left _ hb)
    · rcases List.mem_cons.mp hb with rfl | hb
      · exact hc
      · exact h.ne_zero b (List.mem_append_right _ (List.mem_of_mem_tail hb))

theorem Typed.tail {c : Byte} {keys : List Byte} (h : Typed p (c :: keys)) :
    Typed (p.key c) keys where
  plain x hx := h.plain x (List.mem_cons_of_mem c hx)
  fits typed ht := h.fits (c :: typed) (List.cons_prefix_cons.mpr ⟨rfl, ht⟩)

/-- What the line has when Enter has ended it: the text, a NUL and what was erased behind it. -/
structure LineEnded (m : Mem) (chars : ℕ) (p : Pending) : Prop where
  text : Spells m chars p.text
  rest : Spells m (chars + (p.text.length + 1)) p.erased.tail
  length_le : (p.text ++ p.erased).length ≤ 126

theorem lineEnded_enter (h : Edited m chars p) (hfits : p.line.length ≤ 126) :
    LineEnded ((m.set (chars + p.line.length) 10#8).set (chars + p.line.length) 0#8) chars p := by
  have hlen := h.length_le
  have hl : p.text.length = p.line.length := List.length_reverse
  have hget : ∀ t < 128, ((m.set (chars + p.line.length) 10#8).set (chars + p.line.length)
      0#8).get (chars + t) = (p.text ++ 0#8 :: p.erased.tail).getD t 0#8 := by
    intro t ht
    rw [← h.set 0#8 ht (by omega), Mem.get_set, Mem.get_set, Mem.get_set]
    split
    · rfl
    · rfl
  rw [List.length_append] at hlen
  refine ⟨spells_of_get (fun b hb => h.ne_zero b (List.mem_append_left _ hb)) fun t ht => ?_,
    spells_of_get (fun b hb => h.ne_zero b
      (List.mem_append_right _ (List.mem_of_mem_tail hb))) fun t ht => ?_, h.length_le⟩
  · rw [hget t (by omega)]
    rcases Nat.lt_or_eq_of_le ht with hlt | rfl
    · exact List.getD_append _ _ _ _ hlt
    · rw [List.getD_append_right _ _ _ _ (Nat.le_refl _), Nat.sub_self,
        List.getD_eq_default _ _ (Nat.le_refl _)]
      rfl
  · rw [List.length_tail] at ht
    rw [Nat.add_assoc, hget _ (by omega), Nat.add_assoc,
      List.getD_append_right _ _ _ _ (Nat.le_add_right ..), Nat.add_sub_cancel_left,
      Nat.add_comm 1 t, List.getD_cons_succ]

theorem editLine_typed {keys : List Byte} (h : Edited m chars p) (hkeys : Typed p keys) :
    ∃ m', editLine chars (keys ++ [10#8]) m p.line.length = some m' ∧
      LineEnded m' chars (keys.foldl Pending.key p) := by
  induction keys generalizing m p with
  | nil =>
      have hfits : p.line.length ≤ 126 := hkeys.fits [] (List.nil_prefix)
      refine ⟨_, ?_, lineEnded_enter h hfits⟩
      rw [List.nil_append, editLine, if_neg (by decide), if_neg (by omega)]
      rfl
  | cons c keys ih =>
      obtain ⟨hc, henter⟩ := hkeys.plain c List.mem_cons_self
      have hfits : (p.key c).line.length ≤ 126 := hkeys.fits [c] (by simp)
      rw [List.cons_append, editLine, List.foldl_cons]
      by_cases hback : c = 8#8
      · have hkey : p.key c = p.back := if_pos hback
        have hi : (if 0 < p.line.length then p.line.length - 1 else p.line.length) =
            p.back.line.length := by
          rw [length_back]
          split <;> omega
        rw [if_pos hback, hi, ← hkey]
        exact ih (hkey ▸ edited_back h) hkeys.tail
      · have hkey : p.key c = p.type c := if_neg hback
        have hlen : p.line.length + 1 ≤ 126 := by
          rw [hkey] at hfits
          exact hfits
        rw [if_neg hback, if_neg (by omega)]
        dsimp only
        rw [if_neg henter, hkey]
        exact ih (edited_type h hc hlen) (hkey ▸ hkeys.tail)

def branchOf (bs : List Builtin) (token : List Byte) : Branch :=
  match bs.find? fun b => b.name = token with
  | some b => .builtin b
  | none => if token = [] then .nothing else .notFound

theorem zero_not_mem_name (b : Builtin) : 0#8 ∉ b.name := by
  cases b <;> decide

theorem argument_eq {b : Builtin} {offset : ℕ} (h : b.argument = some offset) :
    offset = b.name.length + 1 := by
  cases b <;> first | cases h; rfl | cases h

theorem dispatch_of_spells (bs : List Builtin) {text : List Byte} (h : Spells m chars text)
    (hcut : bs = [] → firstToken [0x20#8] text = text) (next : Option ℕ) :
    ∃ m', dispatch chars bs m next = some (branchOf bs (firstToken [0x20#8] text), m') ∧
      ∀ t < addressSpace, t ≠ (firstToken [0x20#8] text).length →
        m'.get (chars + t) = m.get (chars + t) := by
  induction bs generalizing m text next with
  | nil =>
      refine ⟨m, ?_, fun _ _ _ => rfl⟩
      rw [dispatch, hcut rfl, branchOf, List.find?_nil]
      cases text with
      | nil =>
          have hnul : m.get chars = 0#8 := h
          rw [if_neg (not_not_intro hnul)]
          rfl
      | cons b text =>
          have hne : m.get chars ≠ 0#8 := h.1 ▸ h.2.1
          rw [if_pos hne]
          rfl
  | cons b bs ih =>
      obtain ⟨m₁, next₁, hstrtok, htoken, hkeep⟩ := strtok_of_spells [0x20#8] h next
      have hcmp := strcmpLit_eq_zero_iff htoken (zero_not_mem_name b)
      rw [dispatch, hstrtok, Option.bind_eq_bind, Option.bind_some]
      dsimp only
      rw [Option.bind_eq_bind, Option.bind_some]
      by_cases hname : firstToken [0x20#8] text = b.name
      · refine ⟨m₁, ?_, hkeep⟩
        rw [if_pos (hcmp.mpr hname), branchOf, List.find?_cons_of_pos (by simp [hname])]
      · obtain ⟨m', hm', hkeep'⟩ := ih htoken (fun _ => firstToken_firstToken ..) next₁
        rw [firstToken_firstToken] at hm' hkeep'
        refine ⟨m', ?_, fun t ht hne => (hkeep' t ht hne).trans (hkeep t ht hne)⟩
        rw [if_neg fun h0 => hname (hcmp.mp h0), hm', branchOf, branchOf,
          List.find?_cons_of_neg (by simpa using fun heq => hname heq.symm)]

/-- The string behind the first token: what follows the space, or, when there is none, what was
erased. -/
def argumentOf (text rest : List Byte) : List Byte :=
  if firstToken [0x20#8] text = text then rest
  else text.drop ((firstToken [0x20#8] text).length + 1)

theorem argumentOf_length_le (text rest : List Byte) :
    (argumentOf text rest).length ≤ text.length + rest.length := by
  rw [argumentOf]
  split
  · exact Nat.le_add_left ..
  · rw [List.length_drop]
    omega

theorem spells_argumentOf {m' m₂ : Mem} (h : LineEnded m' chars p)
    (hkeep : ∀ t < addressSpace, t ≠ (firstToken [0x20#8] p.text).length →
      m₂.get (chars + t) = m'.get (chars + t)) :
    Spells m₂ (chars + ((firstToken [0x20#8] p.text).length + 1))
      (argumentOf p.text p.erased.tail) := by
  have hspace : addressSpace = 2 ^ 32 := rfl
  have hlen := h.length_le
  rw [List.length_append] at hlen
  have hsame : ∀ bs : List Byte, bs.length ≤ 126 →
      Spells m' (chars + ((firstToken [0x20#8] p.text).length + 1)) bs →
      Spells m₂ (chars + ((firstToken [0x20#8] p.text).length + 1)) bs := by
    intro bs hbs hspells
    have hle := firstToken_length_le [0x20#8] p.text
    refine hspells.congr fun t ht => ?_
    rw [Nat.add_assoc]
    exact hkeep _ (by omega) (by omega)
  have hshort := argumentOf_length_le p.text p.erased.tail
  rw [List.length_tail] at hshort
  refine hsame _ (by omega) ?_
  rw [argumentOf]
  split
  · rename_i hwhole
    rw [hwhole]
    exact h.rest
  · rename_i hcut
    have hpre : firstToken [0x20#8] p.text <+: p.text := List.takeWhile_prefix _
    have hlt : (firstToken [0x20#8] p.text).length < p.text.length :=
      Nat.lt_of_le_of_ne hpre.length_le fun heq => hcut (hpre.eq_of_length heq)
    exact h.text.drop hlt

theorem name_of_branchOf {bs : List Builtin} {token : List Byte} {b : Builtin}
    (h : branchOf bs token = .builtin b) : token = b.name := by
  unfold branchOf at h
  split at h
  · rename_i b' hfind
    obtain rfl : b' = b := by simpa using h
    have hname := List.find?_some hfind
    simpa using (of_decide_eq_true hname).symm
  · split at h
    · cases h
    · cases h

theorem shLine_ended {m' : Mem} {keys : List Byte} (next : Option ℕ)
    (hedit : editLine chars keys (m.blit chars 128 fun _ => 0#8) 0 = some m')
    (h : LineEnded m' chars p) :
    shLine m next chars keys = some (branchOf builtins (firstToken [0x20#8] p.text),
      match branchOf builtins (firstToken [0x20#8] p.text) with
      | .builtin b => b.argument.map fun _ => argumentOf p.text p.erased.tail
      | _ => none) := by
  obtain ⟨m₂, hm₂, hkeep⟩ := dispatch_of_spells builtins h.text
    (fun hnil => absurd hnil (by decide)) next
  have hargument := cString_of_spells (spells_argumentOf h hkeep)
  rw [shLine, hedit, Option.bind_eq_bind, Option.bind_some, hm₂, Option.bind_eq_bind,
    Option.bind_some]
  dsimp only
  cases hbranch : branchOf builtins (firstToken [0x20#8] p.text) with
  | builtin b =>
      dsimp only
      cases hoffset : b.argument with
      | none => rfl
      | some offset =>
          dsimp only
          rw [argument_eq hoffset, ← name_of_branchOf hbranch, hargument]
          rfl
  | notFound => rfl
  | nothing => rfl

theorem shLine_typed {keys : List Byte} (hkeys : Typed ⟨[], []⟩ keys) (m : Mem)
    (next : Option ℕ) (chars : ℕ) :
    shLine m next chars (keys ++ [10#8]) =
      some (branchOf builtins (firstToken [0x20#8] (pending keys).text),
        match branchOf builtins (firstToken [0x20#8] (pending keys).text) with
        | .builtin b => b.argument.map fun _ =>
            argumentOf (pending keys).text (pending keys).erased.tail
        | _ => none) := by
  obtain ⟨m', hedit, hended⟩ := editLine_typed (edited_nil m chars) hkeys
  exact shLine_ended next hedit hended

end

/-- Two ways to type a line make the shell do the same, unless the line is the bare name of a
command that takes an argument: that argument is then what was erased behind the line. -/
theorem shLine_same_iff {keys₁ keys₂ : List Byte} (h₁ : Typed ⟨[], []⟩ keys₁)
    (h₂ : Typed ⟨[], []⟩ keys₂) (htext : (pending keys₁).text = (pending keys₂).text)
    (m₁ m₂ : Mem) (next₁ next₂ : Option ℕ) (chars₁ chars₂ : ℕ) :
    ∃ x₁ x₂, shLine m₁ next₁ chars₁ (keys₁ ++ [10#8]) = some x₁ ∧
      shLine m₂ next₂ chars₂ (keys₂ ++ [10#8]) = some x₂ ∧
      (x₁ = x₂ ↔ (∃ b : Builtin, b.argument.isSome ∧ (pending keys₁).text = b.name) →
        (pending keys₁).erased.tail = (pending keys₂).erased.tail) := by
  refine ⟨_, _, shLine_typed h₁ m₁ next₁ chars₁, shLine_typed h₂ m₂ next₂ chars₂, ?_⟩
  rw [← htext, Prod.mk.injEq, eq_self_iff_true, true_and]
  generalize (pending keys₁).text = text
  generalize (pending keys₁).erased.tail = rest₁
  generalize (pending keys₂).erased.tail = rest₂
  -- the bare name of a command is its own first token
  have hbare : ∀ b : Builtin, text = b.name →
      branchOf builtins (firstToken [0x20#8] text) = .builtin b ∧
        firstToken [0x20#8] text = text := by
    rintro b rfl
    cases b <;> decide
  cases hbranch : branchOf builtins (firstToken [0x20#8] text) with
  | builtin b =>
      dsimp only
      cases hoffset : b.argument with
      | none =>
          refine iff_of_true rfl ?_
          rintro ⟨b', hb', hname⟩
          obtain rfl : b = b' := by simpa [hbranch] using (hbare b' hname).1
          rw [hoffset] at hb'
          cases hb'
      | some offset =>
          rw [Option.map_some, Option.map_some, Option.some_inj]
          by_cases hwhole : firstToken [0x20#8] text = text
          · have hname : text = b.name := hwhole.symm.trans (name_of_branchOf hbranch)
            rw [argumentOf, argumentOf, if_pos hwhole, if_pos hwhole]
            exact ⟨fun heq _ => heq, fun heq => heq ⟨b, by rw [hoffset]; rfl, hname⟩⟩
          · rw [argumentOf, argumentOf, if_neg hwhole, if_neg hwhole]
            refine iff_of_true rfl ?_
            rintro ⟨b', -, hname⟩
            exact absurd (hbare b' hname).2 hwhole
  | notFound =>
      refine iff_of_true rfl ?_
      rintro ⟨b', -, hname⟩
      rw [(hbare b' hname).1] at hbranch
      cases hbranch
  | nothing =>
      refine iff_of_true rfl ?_
      rintro ⟨b', -, hname⟩
      rw [(hbare b' hname).1] at hbranch
      cases hbranch

theorem typed_of_inits {p : Pending} {keys : List Byte} (hplain : ∀ c ∈ keys, c ≠ 0#8 ∧ c ≠ 10#8)
    (hfits : ∀ typed ∈ keys.inits, (typed.foldl Pending.key p).line.length ≤ 126) :
    Typed p keys :=
  ⟨hplain, fun typed ht => hfits typed ((List.mem_inits _ _).mpr ht)⟩

def catKeys : List Byte := asciiBytes ['c', 'a', 't']

/-- `cat foo`, and the last four characters erased again. -/
def catErasedKeys : List Byte :=
  asciiBytes ['c', 'a', 't', ' ', 'f', 'o', 'o'] ++ [8#8, 8#8, 8#8, 8#8]

theorem catKeys_typed : Typed ⟨[], []⟩ catKeys := typed_of_inits (by decide) (by decide)

theorem catErasedKeys_typed : Typed ⟨[], []⟩ catErasedKeys :=
  typed_of_inits (by decide) (by decide)

def catNameKeys : List Byte := asciiBytes ['c', 'a', 't', ' ', 'f', 'o', 'o']

def catFoolKeys : List Byte := asciiBytes ['c', 'a', 't', ' ', 'f', 'o', 'o', 'l'] ++ [8#8]

theorem catNameKeys_typed : Typed ⟨[], []⟩ catNameKeys := typed_of_inits (by decide) (by decide)

theorem catFoolKeys_typed : Typed ⟨[], []⟩ catFoolKeys := typed_of_inits (by decide) (by decide)

theorem catFool_same :
    ∃ x, shLine ⟨fun _ => 0#8, []⟩ none 0x1000 (catFoolKeys ++ [10#8]) = some x ∧
      shLine ⟨fun _ => 0#8, []⟩ none 0x1000 (catNameKeys ++ [10#8]) = some x := by
  obtain ⟨x₁, x₂, h₁, h₂, hiff⟩ := shLine_same_iff catFoolKeys_typed catNameKeys_typed (by decide)
    ⟨fun _ => 0#8, []⟩ ⟨fun _ => 0#8, []⟩ none none 0x1000 0x1000
  obtain rfl : x₁ = x₂ := hiff.mpr (by
    rintro ⟨b, -, hname⟩
    cases b <;> exact absurd hname (by decide))
  exact ⟨x₁, h₁, h₂⟩

/-- `cat foo` with the last four characters erased reads `cat`, and passes `foo` to `cat`. -/
theorem catErased_differs :
    Typed ⟨[], []⟩ catErasedKeys ∧ Typed ⟨[], []⟩ catKeys ∧
      (pending catErasedKeys).text = (pending catKeys).text ∧
      shLine ⟨fun _ => 0#8, []⟩ none 0x1000 (catErasedKeys ++ [10#8]) =
        some (.builtin .cat, some (asciiBytes ['f', 'o', 'o'])) ∧
      shLine ⟨fun _ => 0#8, []⟩ none 0x1000 (catKeys ++ [10#8]) =
        some (.builtin .cat, some []) := by
  refine ⟨catErasedKeys_typed, catKeys_typed, by decide, ?_, ?_⟩
  · decide +kernel
  · decide +kernel

end System44
