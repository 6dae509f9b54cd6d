import Mathlib.Data.BitVec
import Mathlib.Data.List.Basic

/-!
# The 8259A interrupt controller

Eight lines, of which line 0 comes first, with one bit each in the request, the in-service and the
mask register. A line that goes high is remembered in the request register until the processor
acknowledges it; from then on it is in service, and holds back itself and the lines behind it, until
a command ends it. The automatic rotations, the special mask and the poll command are not part of
this, nor are lines that are level triggered.
-/

/-- What the controller takes the next byte at its data port for. -/
inductive Pic8259.Stage
  | ready
  | vector
  | cascade
  | mode
  deriving DecidableEq

structure Pic8259 where
  irr : BitVec 8
  isr : BitVec 8
  imr : BitVec 8
  base : BitVec 8
  stage : Pic8259.Stage
  /-- A byte for the mode will come, and one for the cascade will not. -/
  needsMode : Bool
  single : Bool
  autoEoi : Bool

namespace Pic8259

def raise (p : Pic8259) (i : ℕ) : Pic8259 := { p with irr := p.irr ||| BitVec.twoPow 8 i }

/-- The line is high and not masked. -/
def wants (p : Pic8259) (i : ℕ) : Bool := p.irr.getLsbD i && !p.imr.getLsbD i

/-- The line that the processor is asked to serve: the first one that wants it, unless that one or
one before it is in service. -/
def request (p : Pic8259) : Option ℕ :=
  match (List.range 8).find? fun i => p.isr.getLsbD i || p.wants i with
  | none => none
  | some i => if p.isr.getLsbD i then none else some i

def acknowledge (p : Pic8259) (i : ℕ) : Pic8259 :=
  { p with
    irr := p.irr &&& ~~~BitVec.twoPow 8 i
    isr := if p.autoEoi then p.isr else p.isr ||| BitVec.twoPow 8 i }

def endOfInterrupt (p : Pic8259) : Pic8259 :=
  match (List.range 8).find? p.isr.getLsbD with
  | none => p
  | some i => { p with isr := p.isr &&& ~~~BitVec.twoPow 8 i }

def writeCommand (p : Pic8259) (v : BitVec 8) : Pic8259 :=
  if v.getLsbD 4 then
    ⟨0#8, 0#8, 0#8, p.base, .vector, v.getLsbD 0, v.getLsbD 1, false⟩
  else if v &&& 0xF8#8 = 0x20#8 then p.endOfInterrupt
  else if v &&& 0xF8#8 = 0x60#8 then
    { p with isr := p.isr &&& ~~~BitVec.twoPow 8 (v &&& 7#8).toNat }
  else p

def writeData (p : Pic8259) (v : BitVec 8) : Pic8259 :=
  match p.stage with
  | .ready => { p with imr := v }
  | .vector =>
    { p with
      base := v &&& 0xF8#8
      stage := if !p.single then .cascade else if p.needsMode then .mode else .ready }
  | .cascade => { p with stage := if p.needsMode then .mode else .ready }
  | .mode => { p with stage := .ready, autoEoi := v.getLsbD 1 }

def readData (p : Pic8259) : BitVec 8 := p.imr

section

variable {p : Pic8259} {i j : ℕ}

theorem getLsbD_set (v : BitVec 8) (hi : i < 8) :
    (v ||| BitVec.twoPow 8 i).getLsbD j = (decide (j = i) || v.getLsbD j) := by
  rw [BitVec.getLsbD_or, BitVec.getLsbD_twoPow, decide_eq_true hi, Bool.true_and, Bool.or_comm]
  simp [eq_comm]

theorem getLsbD_clear (v : BitVec 8) (i j : ℕ) :
    (v &&& ~~~BitVec.twoPow 8 i).getLsbD j = (!decide (j = i) && v.getLsbD j) := by
  by_cases hj : j < 8
  · rw [BitVec.getLsbD_and, BitVec.getLsbD_not, BitVec.getLsbD_twoPow]
    by_cases h : j = i
    · simp [h, h ▸ hj]
    · simp [hj, h, Ne.symm h]
  · simp [BitVec.getLsbD_of_ge _ j (not_lt.mp hj)]

@[simp] theorem irr_raise (hi : i < 8) :
    (p.raise i).irr.getLsbD j = (decide (j = i) || p.irr.getLsbD j) := getLsbD_set p.irr hi

@[simp] theorem irr_acknowledge :
    (p.acknowledge i).irr.getLsbD j = (!decide (j = i) && p.irr.getLsbD j) :=
  getLsbD_clear p.irr i j

theorem isr_acknowledge (hauto : p.autoEoi = false) (hi : i < 8) :
    (p.acknowledge i).isr.getLsbD j = (decide (j = i) || p.isr.getLsbD j) := by
  simp only [acknowledge, hauto, Bool.false_eq_true, if_false]
  exact getLsbD_set p.isr hi

/-- The first of eight lines with a property. -/
theorem find?_range_eq_some_iff {f : ℕ → Bool} :
    (List.range 8).find? f = some i ↔ i < 8 ∧ f i = true ∧ ∀ j < i, f j = false := by
  rw [List.find?_range_eq_some]
  simp only [List.mem_range]
  constructor
  · rintro ⟨hf, hi, hfirst⟩
    exact ⟨hi, hf, fun j hj => by simpa using hfirst j hj⟩
  · rintro ⟨hi, hf, hfirst⟩
    exact ⟨hf, hi, fun j hj => by simpa using hfirst j hj⟩

/-- The line asks for the processor when it is wanted, no line before it is, and none up to it is in
service. -/
theorem request_eq_some_iff : p.request = some i ↔
    i < 8 ∧ p.wants i = true ∧ (∀ j < i, p.wants j = false) ∧ ∀ j ≤ i, p.isr.getLsbD j = false := by
  rw [request]
  constructor
  · intro h
    split at h
    · cases h
    · rename_i k hfind
      split at h
      · cases h
      · rename_i hk
        obtain rfl := Option.some_inj.mp h
        obtain ⟨hlt, hthis, hfirst⟩ := find?_range_eq_some_iff.mp hfind
        have hk' : p.isr.getLsbD k = false := by simpa using hk
        refine ⟨hlt, ?_, fun j hj => ?_, fun j hj => ?_⟩
        · simpa [hk'] using hthis
        · have := hfirst j hj
          simp at this
          exact this.2
        · rcases Nat.lt_or_eq_of_le hj with hlt' | rfl
          · have := hfirst j hlt'
            simp at this
            exact this.1
          · exact hk'
  · rintro ⟨hi, hwants, hfirst, hfree⟩
    have hfind : (List.range 8).find? (fun i => p.isr.getLsbD i || p.wants i) = some i := by
      refine find?_range_eq_some_iff.mpr ⟨hi, ?_, fun j hj => ?_⟩
      · simp [hwants]
      · simp [hfirst j hj, hfree j hj.le]
    simp [hfind, hfree i (Nat.le_refl i)]

theorem isr_endOfInterrupt (hi : i < 8) (hin : p.isr.getLsbD i = true)
    (hfirst : ∀ j < i, p.isr.getLsbD j = false) :
    p.endOfInterrupt = { p with isr := p.isr &&& ~~~BitVec.twoPow 8 i } := by
  have hfind : (List.range 8).find? p.isr.getLsbD = some i :=
    find?_range_eq_some_iff.mpr ⟨hi, hin, hfirst⟩
  simp only [endOfInterrupt, hfind]

theorem endOfInterrupt_acknowledge (hrequest : p.request = some i) (hauto : p.autoEoi = false) :
    (p.acknowledge i).endOfInterrupt = { p with irr := p.irr &&& ~~~BitVec.twoPow 8 i } := by
  obtain ⟨hi, -, -, hfree⟩ := request_eq_some_iff.mp hrequest
  have hisr := fun j => isr_acknowledge (j := j) hauto hi
  rw [isr_endOfInterrupt hi]
  · have hsame : (p.acknowledge i).isr &&& ~~~BitVec.twoPow 8 i = p.isr := by
      apply BitVec.eq_of_getLsbD_eq
      intro j _
      rw [getLsbD_clear, hisr]
      by_cases heq : j = i
      · simp [heq, hfree]
      · simp [heq]
    rw [hsame]
    rfl
  · simp [hisr]
  · intro j hj
    have hne : j ≠ i := by omega
    simp [hisr, hne, hfree j hj.le]

end

end Pic8259
