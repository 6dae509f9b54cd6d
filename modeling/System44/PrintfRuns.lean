import Mathlib.Algebra.Group.Nat.Even
import Mathlib.Data.List.DropRight
import System44.Printf

/-!
# Runs of printf

The `%` branch moves `p` on to the specifier without looking whether there is one, and the end of
the loop moves it on once more. A `%` at the end of the format that is no specifier itself therefore
takes the NUL for its specifier, and the scan goes on behind it.
-/

namespace System44

variable {D : Type} {fpu : Fpu D} {m : Mem}

theorem printfLoop_stop {s : Scan} (hp : m.get s.p = 0#8) (fuel : ℕ) :
    printfLoop fpu m (fuel + 1) s = .ok { s with reads := s.p :: s.reads } := by
  rw [printfLoop, if_pos hp]

theorem printfLoop_lit {s : Scan} (hp : m.get s.p ≠ 0#8) (hb : m.get s.p ≠ 0x25#8) (fuel : ℕ) :
    printfLoop fpu m (fuel + 1) s =
      printfLoop fpu m fuel ⟨s.p + 1, s.args, s.out ++ [m.get s.p], s.p :: s.reads⟩ := by
  rw [printfLoop, if_neg hp, if_neg hb]

theorem printfLoop_directive {s : Scan} {a : Piece} {args' : ℕ} (hp : m.get s.p = 0x25#8)
    (ha : Asks m (m.get (s.p + 1)) s.args a args') (fuel : ℕ) :
    printfLoop fpu m (fuel + 1) s =
      printfLoop fpu m fuel
        ⟨s.p + 2, args', s.out ++ a.render fpu, (s.p + 1) :: s.p :: s.reads⟩ := by
  have hne : m.get s.p ≠ 0#8 := by
    rw [hp]
    decide
  rw [printfLoop, if_neg hne, if_pos hp]
  simp only [directive_of_asks fpu ha]

theorem Scanned.le {p args q : ℕ} {ps : List Piece} (h : Scanned m p args ps q) : p ≤ q := by
  induction h with
  | stop => exact Nat.le_refl _
  | lit _ _ _ ih => exact (Nat.le_succ _).trans ih
  | directive _ _ _ ih => exact (Nat.le_add_right _ 2).trans ih

/-- The loop stores the pieces one behind the other and stops at the NUL. -/
theorem Scanned.run (fpu : Fpu D) {p args q fuel : ℕ} {ps : List Piece}
    (h : Scanned m p args ps q) (hfuel : ps.length < fuel) (out : List Byte) (reads : List ℕ) :
    ∃ args' reads', printfLoop fpu m fuel ⟨p, args, out, reads⟩ =
      .ok ⟨q, args', out ++ ps.flatMap (Piece.render fpu), reads'⟩ := by
  induction h generalizing fuel out reads with
  | @stop p hp args =>
      obtain ⟨fuel, rfl⟩ : ∃ n, fuel = n + 1 := ⟨fuel - 1, by omega⟩
      refine ⟨args, p :: reads, ?_⟩
      rw [printfLoop_stop hp, List.flatMap_nil, List.append_nil]
  | lit hp hb _ ih =>
      obtain ⟨fuel, rfl⟩ : ∃ n, fuel = n + 1 := ⟨fuel - 1, by omega⟩
      rw [printfLoop_lit hp hb, List.flatMap_cons, ← List.append_assoc]
      exact ih (Nat.lt_of_succ_lt_succ hfuel) _ _
  | directive hp ha _ ih =>
      obtain ⟨fuel, rfl⟩ : ∃ n, fuel = n + 1 := ⟨fuel - 1, by omega⟩
      rw [printfLoop_directive hp ha, List.flatMap_cons, ← List.append_assoc]
      exact ih (Nat.lt_of_succ_lt_succ hfuel) _ _

theorem Scanned.reads_le {p args q : ℕ} {ps : List Piece} (h : Scanned m p args ps q)
    {reads : List ℕ} (hreads : ∀ a ∈ reads, a ≤ q) (fuel : ℕ) (out : List Byte) :
    ∀ a ∈ formatReads (printfLoop fpu m fuel ⟨p, args, out, reads⟩), a ≤ q := by
  induction h generalizing fuel out reads with
  | stop hp =>
      cases fuel with
      | zero => exact hreads
      | succ fuel =>
          rw [printfLoop_stop hp]
          exact List.forall_mem_cons.mpr ⟨Nat.le_refl _, hreads⟩
  | lit hp hb h ih =>
      cases fuel with
      | zero => exact hreads
      | succ fuel =>
          rw [printfLoop_lit hp hb]
          exact ih (List.forall_mem_cons.mpr ⟨(Nat.le_succ _).trans h.le, hreads⟩) fuel _
  | @directive p args args' q a ps hp ha h ih =>
      cases fuel with
      | zero => exact hreads
      | succ fuel =>
          have hspecifier : p + 1 ≤ q := (Nat.le_succ _).trans h.le
          have hpercent : p ≤ q := (Nat.le_succ p).trans hspecifier
          rw [printfLoop_directive hp ha]
          refine ih (List.forall_mem_cons.mpr ⟨hspecifier, ?_⟩) fuel _
          exact List.forall_mem_cons.mpr ⟨hpercent, hreads⟩

/-- How many `%` a format ends with. -/
def trailingPercents (bs : List Byte) : ℕ := (bs.rtakeWhile (· = 0x25#8)).length

theorem trailingPercents_append (as bs : List Byte) :
    trailingPercents (as ++ bs) =
      if trailingPercents bs = bs.length then trailingPercents as + bs.length
      else trailingPercents bs := by
  simp only [trailingPercents, List.rtakeWhile, List.length_reverse, List.reverse_append,
    List.takeWhile_append]
  split
  · rw [List.length_append, List.length_reverse, Nat.add_comm]
  · rfl

theorem trailingPercents_lit {b : Byte} (hb : b ≠ 0x25#8) (bs : List Byte) :
    trailingPercents (b :: bs) = trailingPercents bs := by
  have hnone : trailingPercents [b] = 0 := by
    simp [trailingPercents, List.rtakeWhile, hb]
  rw [← List.singleton_append, trailingPercents_append, hnone]
  split
  · rename_i hall
    rw [hall, Nat.zero_add]
  · rfl

theorem even_trailingPercents_directive (c : Byte) (bs : List Byte) :
    Even (trailingPercents (0x25#8 :: c :: bs)) ↔ Even (trailingPercents bs) := by
  have htwo : Even (trailingPercents [0x25#8, c]) := by
    by_cases hc : c = 0x25#8
    · rw [hc]
      decide
    · simp [trailingPercents, List.rtakeWhile, hc]
  have happend : 0x25#8 :: c :: bs = [0x25#8, c] ++ bs := rfl
  rw [happend, trailingPercents_append]
  split
  · rename_i hall
    rw [hall, Nat.even_add]
    exact iff_true_left htwo
  · rfl

theorem Matches.scanned {bs : List Byte} {args p : ℕ} {ps : List Piece} (h : Matches m bs args ps)
    (hp : Spells m p bs) (heven : Even (trailingPercents bs)) :
    Scanned m p args ps (p + bs.length) := by
  induction h generalizing p with
  | nil args => exact .stop hp args
  | @lit b bs args ps hb h ih =>
      obtain ⟨rfl, hne, hrest⟩ := hp
      rw [trailingPercents_lit hb] at heven
      rw [List.length_cons, ← Nat.add_assoc, Nat.add_right_comm]
      exact .lit hne hb (ih hrest heven)
  | lone => exact absurd heven (by decide)
  | @directive c bs args args' a ps ha h ih =>
      obtain ⟨hpercent, -, rfl, -, hrest⟩ := hp
      rw [even_trailingPercents_directive] at heven
      rw [List.length_cons, List.length_cons, Nat.add_assoc, ← Nat.add_assoc p, Nat.add_right_comm]
      exact .directive hpercent ha (ih hrest heven)

theorem Matches.length_le {bs : List Byte} {args : ℕ} {ps : List Piece}
    (h : Matches m bs args ps) : ps.length ≤ bs.length := by
  induction h with
  | nil => exact Nat.le_refl 0
  | lit _ _ ih => exact Nat.succ_le_succ ih
  | lone => exact Nat.zero_le 1
  | directive _ _ ih => exact Nat.succ_le_succ (ih.trans (Nat.le_succ _))

/-- What `printf` puts in its buffer for a format whose last `%` is paired. -/
theorem Matches.printf_eq {format args : ℕ} {bs : List Byte} {ps : List Piece}
    (hargs : Matches m bs args ps) (h : Spells m format bs) (heven : Even (trailingPercents bs)) :
    printf fpu m format args = some (ps.flatMap (Piece.render fpu) ++ [0#8]) := by
  have hfuel : ps.length < addressSpace := hargs.length_le.trans_lt h.length_lt
  obtain ⟨args', reads', hrun⟩ := (hargs.scanned h heven).run fpu hfuel [] []
  rw [printf, printfRounds, hrun, List.nil_append]

theorem mem_formatReads_round (s : Scan) : s.p ∈ formatReads (printfLoop fpu m 1 s) := by
  rw [printfLoop]
  split
  · exact List.mem_cons_self
  · split
    · dsimp only
      split
      · exact List.mem_cons_of_mem _ List.mem_cons_self
      · exact List.mem_cons_of_mem _ List.mem_cons_self
    · exact List.mem_cons_self

theorem Matches.reads_past (fpu : Fpu D) {bs : List Byte} {args p : ℕ} {ps : List Piece}
    (h : Matches m bs args ps) (hp : Spells m p bs) (hodd : ¬ Even (trailingPercents bs))
    (out : List Byte) (reads : List ℕ) :
    ∃ fuel, p + bs.length + 1 ∈ formatReads (printfLoop fpu m fuel ⟨p, args, out, reads⟩) := by
  induction h generalizing p out reads with
  | nil => exact absurd (by decide) hodd
  | @lit b bs args ps hb h ih =>
      obtain ⟨rfl, hne, hrest⟩ := hp
      rw [trailingPercents_lit hb] at hodd
      obtain ⟨fuel, hmem⟩ := ih hrest hodd (out ++ [m.get p]) (p :: reads)
      refine ⟨fuel + 1, ?_⟩
      rw [printfLoop_lit hne hb, List.length_cons, ← Nat.add_assoc, Nat.add_right_comm p]
      exact hmem
  | lone args =>
      obtain ⟨hpercent, -, hnul⟩ := hp
      have hnul : m.get (p + 1) = 0#8 := hnul
      have hasks : Asks m (m.get (p + 1)) args (.unknown 0#8) args := by
        rw [hnul]
        exact .unknown (by decide) args
      refine ⟨2, ?_⟩
      rw [printfLoop_directive hpercent hasks]
      exact mem_formatReads_round _
  | @directive c bs args args' a ps ha h ih =>
      obtain ⟨hpercent, -, rfl, -, hrest⟩ := hp
      rw [even_trailingPercents_directive] at hodd
      obtain ⟨fuel, hmem⟩ := ih hrest hodd (out ++ a.render fpu) ((p + 1) :: p :: reads)
      refine ⟨fuel + 1, ?_⟩
      have hlen : p + (0x25#8 :: m.get (p + 1) :: bs).length + 1 = p + 1 + 1 + bs.length + 1 := by
        rw [List.length_cons, List.length_cons]
        omega
      rw [printfLoop_directive hpercent ha, hlen]
      exact hmem

/-- The call reads its format up to the NUL at most, and every call with the same format and the
same arguments fills its buffer alike. -/
structure ScansOnly (fpu : Fpu D) (m : Mem) (format args : ℕ) (bs : List Byte)
    (ps : List Piece) : Prop where
  reads : ∀ fuel, ∀ a ∈ formatReads (printfRounds fpu m format args fuel), a ≤ format + bs.length
  output : ∃ out, ∀ m' format' args', Spells m' format' bs → Matches m' bs args' ps →
    printf fpu m' format' args' = some out

/-- `printf` scans only its format exactly when the number of `%` at its end is even. -/
theorem printf_scansOnly_iff (fpu : Fpu D) {format args : ℕ} {bs : List Byte} {ps : List Piece}
    (h : Spells m format bs) (hargs : Matches m bs args ps) :
    ScansOnly fpu m format args bs ps ↔ Even (trailingPercents bs) := by
  constructor
  · intro honly
    by_contra hodd
    obtain ⟨fuel, hmem⟩ := hargs.reads_past fpu h hodd [] []
    exact Nat.not_succ_le_self _ (honly.reads fuel _ hmem)
  · intro heven
    constructor
    · exact fun fuel => (hargs.scanned h heven).reads_le (List.forall_mem_nil _) fuel []
    · exact ⟨_, fun m' format' args' h' hargs' => hargs'.printf_eq h' heven⟩

/-- Doubles that are whole numbers. -/
def wholeFpu : Fpu ℤ where
  load bits := bits.toInt
  isNeg n := decide (n < 0)
  neg n := -n
  toInt n := BitVec.ofInt 32 n
  ofInt n := n.toInt
  sub a b := a - b
  mul a b := a * b
  ten := 10

/-- The format `bs` at 0, with NULs behind it. -/
def formatMem (bs : List Byte) : Mem := ⟨fun a => bs.getD a 0#8, []⟩

theorem spells_formatMem {bs : List Byte} (hne : ∀ b ∈ bs, b ≠ 0#8) (hlen : bs.length < 2 ^ 32) :
    Spells (formatMem bs) 0 bs := by
  refine spells_of_get hne fun t ht => ?_
  rw [Nat.zero_add, Mem.get, Nat.mod_eq_of_lt (ht.trans_lt hlen)]
  rfl

theorem intFormat_matches :
    Matches (formatMem [0x25#8, 0x64#8]) [0x25#8, 0x64#8] 0x100 [.int 0#32] :=
  .directive (.int 0x100) (.nil _)

theorem intFormat_scansOnly :
    ScansOnly wholeFpu (formatMem [0x25#8, 0x64#8]) 0 0x100 [0x25#8, 0x64#8] [.int 0#32] :=
  (printf_scansOnly_iff wholeFpu (spells_formatMem (by decide) (by decide)) intFormat_matches).mpr
    (by decide)

/-- `printf("%")` -/
theorem lonePercent_not_scansOnly :
    Spells (formatMem [0x25#8]) 0 [0x25#8] ∧ Matches (formatMem [0x25#8]) [0x25#8] 0x100 [] ∧
      ¬ ScansOnly wholeFpu (formatMem [0x25#8]) 0 0x100 [0x25#8] [] := by
  have hformat : Spells (formatMem [0x25#8]) 0 [0x25#8] := spells_formatMem (by decide) (by decide)
  refine ⟨hformat, .lone _, fun honly => ?_⟩
  obtain ⟨fuel, hmem⟩ := (Matches.lone 0x100).reads_past wholeFpu hformat (by decide) [] []
  exact absurd (honly.reads fuel _ hmem) (by decide)

end System44
