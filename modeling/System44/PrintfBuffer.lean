import System44.PrintfRuns

/-!
# The buffer of printf

`printf` stores in a buffer of 1024 bytes and never looks how much of it is left. How much it stores
is the sum over the pieces that the format asks for.
-/

namespace System44

def printfBufferSize : ℕ := 1024

variable {D : Type} {fpu : Fpu D} {m : Mem}

/-- All that `printf` stores lies in its buffer, at whatever time it is looked at. -/
def Fits (fpu : Fpu D) (m : Mem) (format args : ℕ) : Prop :=
  ∀ fuel, (stored (printfRounds fpu m format args fuel)).length ≤ printfBufferSize

def totalWidth (fpu : Fpu D) (ps : List Piece) : ℕ := (ps.map (Piece.width fpu)).sum

theorem length_flatMap_render (fpu : Fpu D) (ps : List Piece) :
    (ps.flatMap (Piece.render fpu)).length = totalWidth fpu ps := by
  rw [List.length_flatMap]
  exact congrArg List.sum (List.map_congr_left fun p _ => p.length_render fpu)

theorem Scanned.length_stored_le (fpu : Fpu D) {p args q : ℕ} {ps : List Piece}
    (h : Scanned m p args ps q) (fuel : ℕ) (out : List Byte) (reads : List ℕ) :
    (stored (printfLoop fpu m fuel ⟨p, args, out, reads⟩)).length ≤
      out.length + totalWidth fpu ps + 1 := by
  induction h generalizing fuel out reads with
  | stop hp =>
      cases fuel with
      | zero => exact Nat.le_add_right _ 1
      | succ fuel =>
          rw [printfLoop_stop hp]
          exact List.length_append.le
  | @lit p args q ps hp hb h ih =>
      cases fuel with
      | zero => exact (Nat.le_add_right _ _).trans (Nat.le_succ _)
      | succ fuel =>
          rw [printfLoop_lit hp hb]
          refine (ih fuel _ _).trans_eq ?_
          rw [List.length_append, List.length_singleton, totalWidth, totalWidth, List.map_cons,
            List.sum_cons, Piece.width, Nat.add_assoc out.length]
  | @directive p args args' q a ps hp ha h ih =>
      cases fuel with
      | zero => exact (Nat.le_add_right _ _).trans (Nat.le_succ _)
      | succ fuel =>
          rw [printfLoop_directive hp ha]
          refine (ih fuel _ _).trans_eq ?_
          rw [List.length_append, Piece.length_render, totalWidth, totalWidth, List.map_cons,
            List.sum_cons, Nat.add_assoc out.length]

theorem exists_nul_ahead {z : ℕ} (hz : m.get z = 0#8) (p : ℕ) : ∃ d, m.get (p + d) = 0#8 :=
  ⟨Mem.offset p z, (m.get_congr (Mem.mod_add_offset p z)).trans hz⟩

theorem exists_spells {d a : ℕ} (h : m.get (a + d) = 0#8) : ∃ bs, Spells m a bs := by
  induction d generalizing a with
  | zero => exact ⟨[], h⟩
  | succ d ih =>
      by_cases ha : m.get a = 0#8
      · exact ⟨[], ha⟩
      · rw [← Nat.add_assoc, Nat.add_right_comm] at h
        obtain ⟨bs, hbs⟩ := ih h
        exact ⟨m.get a :: bs, rfl, ha, hbs⟩

theorem exists_asks {z : ℕ} (hz : m.get z = 0#8) (c : Byte) (args : ℕ) :
    ∃ a args', Asks m c args a args' := by
  by_cases hc : c ∈ [0x73#8, 0x63#8, 0x64#8, 0x66#8, 0x78#8, 0x25#8]
  · simp only [List.mem_cons, List.not_mem_nil, or_false] at hc
    rcases hc with rfl | rfl | rfl | rfl | rfl | rfl
    · obtain ⟨d, hd⟩ := exists_nul_ahead hz (m.load32 args).toNat
      obtain ⟨bs, hbs⟩ := exists_spells hd
      exact ⟨_, _, .text hbs⟩
    · exact ⟨_, _, .char args⟩
    · exact ⟨_, _, .int args⟩
    · exact ⟨_, _, .double args⟩
    · exact ⟨_, _, .hex args⟩
    · exact ⟨_, _, .percent args⟩
  · exact ⟨_, _, .unknown hc args⟩

theorem Asks.eq_of_width {c : Byte} {args args' : ℕ} {a : Piece} (h : Asks m c args a args')
    (hwidth : a.width fpu = 0) : c = 0x73#8 := by
  cases h with
  | text => rfl
  | char => cases hwidth
  | int =>
      rw [Piece.width] at hwidth
      split at hwidth
      · omega
      · omega
  | double =>
      rw [Piece.width] at hwidth
      split at hwidth
      · omega
      · omega
  | hex => cases hwidth
  | percent => cases hwidth
  | unknown => cases hwidth

/-- A format that does not end makes `printf` store more and more: at the latest at the next NUL a
round stores something. -/
theorem scanned_or_stored (fpu : Fpu D) {z : ℕ} (hz : m.get z = 0#8) (n : ℕ) {d p : ℕ}
    (hd : m.get (p + d) = 0#8) (args : ℕ) (out : List Byte) (reads : List ℕ) :
    (∃ ps q, Scanned m p args ps q) ∨
      ∃ fuel, out.length + n ≤ (stored (printfLoop fpu m fuel ⟨p, args, out, reads⟩)).length := by
  induction n generalizing d p args out reads with
  | zero => exact .inr ⟨0, Nat.le_refl _⟩
  | succ n ihn =>
      induction d using Nat.strong_induction_on generalizing p args out reads with
      | _ d ihd =>
          by_cases hp : m.get p = 0#8
          · exact .inl ⟨_, _, .stop hp args⟩
          by_cases hb : m.get p = 0x25#8
          · obtain ⟨a, args', ha⟩ := exists_asks hz (m.get (p + 1)) args
            have hnext : (∃ ps q, Scanned m (p + 2) args' ps q) ∨
                ∃ fuel, out.length + (n + 1) ≤ (stored (printfLoop fpu m fuel
                  ⟨p + 2, args', out ++ a.render fpu, (p + 1) :: p :: reads⟩)).length := by
              by_cases hwidth : a.width fpu = 0
              · -- two more bytes that are no NULs
                have hspecifier : m.get (p + 1) ≠ 0#8 := by
                  rw [ha.eq_of_width hwidth]
                  decide
                obtain ⟨d, rfl⟩ : ∃ k, d = k + 2 := by
                  refine ⟨d - 2, ?_⟩
                  have hzero : d ≠ 0 := fun h0 => hp (by rwa [h0, Nat.add_zero] at hd)
                  have hone : d ≠ 1 := fun h1 => hspecifier (by rwa [h1] at hd)
                  omega
                rw [Nat.add_comm d, ← Nat.add_assoc] at hd
                have hsame : out ++ a.render fpu = out := by
                  rw [List.append_right_eq_self, ← List.length_eq_zero_iff, a.length_render, hwidth]
                rw [hsame]
                exact ihd d (by omega) hd args' out _
              · obtain ⟨d', hd'⟩ := exists_nul_ahead hz (p + 2)
                refine (ihn hd' args' (out ++ a.render fpu) ((p + 1) :: p :: reads)).imp_right ?_
                rintro ⟨fuel, hlen⟩
                rw [List.length_append, a.length_render] at hlen
                exact ⟨fuel, by omega⟩
            rcases hnext with ⟨ps, q, hscan⟩ | ⟨fuel, hlen⟩
            · exact .inl ⟨_, _, .directive hb ha hscan⟩
            · refine .inr ⟨fuel + 1, ?_⟩
              rwa [printfLoop_directive hb ha]
          · obtain ⟨d', hd'⟩ := exists_nul_ahead hz (p + 1)
            rcases ihn hd' args (out ++ [m.get p]) (p :: reads) with ⟨ps, q, hscan⟩ | ⟨fuel, hlen⟩
            · exact .inl ⟨_, _, .lit hp hb hscan⟩
            · refine .inr ⟨fuel + 1, ?_⟩
              rw [List.length_append, List.length_singleton, Nat.add_right_comm] at hlen
              rw [printfLoop_lit hp hb]
              exact hlen

theorem Scanned.length_stored (fpu : Fpu D) {format args q : ℕ} {ps : List Piece}
    (h : Scanned m format args ps q) :
    (stored (printfRounds fpu m format args (ps.length + 1))).length = totalWidth fpu ps + 1 := by
  obtain ⟨args', reads', hrun⟩ := h.run fpu (Nat.lt_succ_self _) [] []
  rw [printfRounds, hrun, stored, List.nil_append, List.length_append, length_flatMap_render]
  rfl

/-- The output of `printf` fits in its buffer exactly when the format ends and what it asks for,
until it ends, is less than 1024 bytes wide. -/
theorem printf_fits_iff (fpu : Fpu D) {format args : ℕ} {bs : List Byte} (h : Spells m format bs) :
    Fits fpu m format args ↔
      ∃ ps q, Scanned m format args ps q ∧ totalWidth fpu ps < printfBufferSize := by
  constructor
  · intro hfits
    have hnul : m.get (format + bs.length) = 0#8 := h.stringAt.2
    rcases scanned_or_stored fpu hnul (printfBufferSize + 1) hnul args [] [] with
      ⟨ps, q, hscan⟩ | ⟨fuel, hlen⟩
    · have hall := hfits (ps.length + 1)
      rw [hscan.length_stored fpu] at hall
      exact ⟨ps, q, hscan, hall⟩
    · have hall := hfits fuel
      rw [printfRounds] at hall
      rw [List.length_nil] at hlen
      omega
  · rintro ⟨ps, q, hscan, hwidth⟩ fuel
    have hle := hscan.length_stored_le fpu fuel [] []
    rw [List.length_nil, Nat.zero_add] at hle
    exact hle.trans hwidth

theorem intFormat_fits : Fits wholeFpu (formatMem [0x25#8, 0x64#8]) 0 0x100 := by
  have hformat : Spells (formatMem [0x25#8, 0x64#8]) 0 [0x25#8, 0x64#8] :=
    spells_formatMem (by decide) (by decide)
  refine (printf_fits_iff wholeFpu hformat).mpr ⟨_, _, intFormat_matches.scanned hformat ?_, ?_⟩
  · decide
  · decide

theorem expand_of_not_mem {bs : List Byte} (h : 0x5C#8 ∉ bs) : expand bs = bs := by
  induction bs using expand.induct with
  | case1 => rfl
  | case2 b => rfl
  | case3 c bs ih => exact absurd List.mem_cons_self h
  | case4 b c bs hesc ih =>
      rw [expand, if_neg hesc, ih fun hmem => h (List.mem_cons_of_mem b hmem)]

/-- `printf("%s", str)`, where `str` is 1024 times the letter `a`: the format is at 0, the argument
at 4 and the string at 0x100. -/
def longMem : Mem where
  bytes a :=
    if 0x100 ≤ a ∧ a < 0x500 then 0x61#8
    else [0x25#8, 0x73#8, 0#8, 0#8, 0x00#8, 0x01#8, 0#8, 0#8].getD a 0#8
  writes := []

theorem longMem_string : Spells longMem (longMem.load32 4).toNat (List.replicate 1024 0x61#8) := by
  have hptr : (longMem.load32 4).toNat = 0x100 := by decide
  rw [hptr]
  refine spells_of_get (fun b hb => ?_) fun t ht => ?_
  · rw [List.eq_of_mem_replicate hb]
    decide
  · rw [List.length_replicate] at ht
    rw [Mem.get, Nat.mod_eq_of_lt (by omega), longMem]
    dsimp only
    rcases Nat.lt_or_eq_of_le ht with hlt | rfl
    · rw [if_pos ⟨by omega, by omega⟩, List.getD_eq_getElem _ _ (by rwa [List.length_replicate]),
        List.getElem_replicate]
    · have hend : (List.replicate 1024 0x61#8).getD 1024 0#8 = 0#8 :=
        List.getD_eq_default _ _ List.length_replicate.le
      rw [if_neg (by omega), hend]
      rfl

theorem longString_not_fits :
    Spells longMem 0 [0x25#8, 0x73#8] ∧
      Matches longMem [0x25#8, 0x73#8] 4 [.text (List.replicate 1024 0x61#8)] ∧
      ¬ Fits wholeFpu longMem 0 4 := by
  have hformat : Spells longMem 0 [0x25#8, 0x73#8] := ⟨rfl, by decide, rfl, by decide, rfl⟩
  have hargs : Matches longMem [0x25#8, 0x73#8] 4 [.text (List.replicate 1024 0x61#8)] :=
    .directive (.text longMem_string) (.nil _)
  refine ⟨hformat, hargs, fun hfits => ?_⟩
  have hall := hfits 2
  have hlong : 0x5C#8 ∉ List.replicate 1024 0x61#8 := fun hmem =>
    absurd (List.eq_of_mem_replicate hmem) (by decide)
  have hlen := (hargs.scanned hformat (by decide)).length_stored wholeFpu
  rw [totalWidth, List.map_singleton, List.sum_singleton, Piece.width, expand_of_not_mem hlong,
    List.length_replicate] at hlen
  exact absurd (hlen.symm.trans_le hall) (by decide)

end System44
