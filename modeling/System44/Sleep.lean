import Mathlib.Data.BitVec
import Mathlib.Logic.Function.Iterate

/-!
# Waiting for ticks

The timer interrupt counts in `ticks`, which has 32 bits, and `usleep` and `sleep` read it until the
difference to what it was at the call is large enough. Interrupts come between the readings.
-/

namespace System44

def irq0h (ticks : BitVec 32) : BitVec 32 := ticks + 1#32

/-- `while (ticks - init < time)`. Before each reading there are some timer interrupts, of which
`passed` counts all; the result is how many there have been when the loop ends, if it does. -/
def waitLoop (init time : BitVec 32) : List ℕ → BitVec 32 → ℕ → Option ℕ
  | [], _, _ => none
  | irqs :: rest, ticks, passed =>
    let ticks := irq0h^[irqs] ticks
    if ticks - init < time then waitLoop init time rest ticks (passed + irqs)
    else some (passed + irqs)

def usleep (ticks time : BitVec 32) (irqs : List ℕ) : Option ℕ := waitLoop ticks time irqs ticks 0

def sleep (ticks time : BitVec 32) (irqs : List ℕ) : Option ℕ :=
  waitLoop ticks (time * 1000#32) irqs ticks 0

/-- A call does not return before `n` ticks have passed, whatever the counter was and however the
readings fall between the ticks. -/
def NeverEarly (call : BitVec 32 → List ℕ → Option ℕ) (n : ℕ) : Prop :=
  ∀ ticks irqs passed, call ticks irqs = some passed → n ≤ passed

theorem irq0h_iterate (n passed : ℕ) (init : BitVec 32) :
    irq0h^[n] (init + BitVec.ofNat 32 passed) = init + BitVec.ofNat 32 (passed + n) := by
  induction n with
  | zero => rfl
  | succ n ih =>
      rw [Function.iterate_succ_apply', ih, irq0h, BitVec.add_assoc, ← Nat.add_assoc,
        BitVec.ofNat_add (passed + n) 1]

theorem toNat_ticks_sub (init : BitVec 32) (passed : ℕ) :
    (init + BitVec.ofNat 32 passed - init).toNat = passed % 2 ^ 32 := by
  rw [BitVec.add_comm, BitVec.add_sub_cancel, BitVec.toNat_ofNat]

theorem waitLoop_le {init time : BitVec 32} {irqs : List ℕ} {passed n : ℕ}
    (h : waitLoop init time irqs (init + BitVec.ofNat 32 passed) passed = some n) :
    time.toNat ≤ n % 2 ^ 32 := by
  induction irqs generalizing passed with
  | nil => cases h
  | cons k irqs ih =>
      rw [waitLoop, irq0h_iterate] at h
      split at h
      · exact ih h
      · rename_i hge
        rw [← Option.some.inj h, ← toNat_ticks_sub init]
        exact Nat.le_of_not_lt hge

theorem waitLoop_ones {init time : BitVec 32} {k passed : ℕ}
    (h : passed + (k + 1) = time.toNat) :
    waitLoop init time (List.replicate (k + 1) 1) (init + BitVec.ofNat 32 passed) passed =
      some time.toNat := by
  have hlt := time.isLt
  induction k generalizing passed with
  | zero =>
      rw [List.replicate_one, waitLoop, irq0h_iterate]
      have hge : ¬ init + BitVec.ofNat 32 (passed + 1) - init < time := by
        rw [BitVec.lt_def, toNat_ticks_sub]
        omega
      exact (if_neg hge).trans (congrArg some h)
  | succ k ih =>
      rw [List.replicate_succ, waitLoop, irq0h_iterate]
      have hgo : init + BitVec.ofNat 32 (passed + 1) - init < time := by
        rw [BitVec.lt_def, toNat_ticks_sub]
        omega
      rw [if_pos hgo]
      exact ih (by omega)

theorem exists_waitLoop (init time : BitVec 32) :
    ∃ irqs, waitLoop init time irqs init 0 = some time.toNat := by
  rcases Nat.eq_zero_or_pos time.toNat with hzero | hpos
  · refine ⟨[0], ?_⟩
    rw [waitLoop, hzero]
    refine if_neg ?_
    rw [BitVec.lt_def, hzero]
    exact Nat.not_lt_zero _
  · obtain ⟨k, hk⟩ := Nat.exists_eq_succ_of_ne_zero hpos.ne'
    have hones : waitLoop init time (List.replicate (k + 1) 1) (init + BitVec.ofNat 32 0) 0 =
        some time.toNat := waitLoop_ones ((Nat.zero_add _).trans hk.symm)
    rw [BitVec.add_zero] at hones
    exact ⟨_, hones⟩

theorem waitLoop_neverEarly (time : BitVec 32) :
    NeverEarly (fun ticks irqs => waitLoop ticks time irqs ticks 0) time.toNat := by
  intro ticks irqs n h
  rw [← BitVec.add_zero ticks] at h
  have hle : time.toNat ≤ n % 2 ^ 32 := waitLoop_le (by rwa [BitVec.add_zero] at h ⊢)
  exact hle.trans (Nat.mod_le n _)

theorem usleep_neverEarly (time : BitVec 32) :
    NeverEarly (fun ticks => usleep ticks time) time.toNat := waitLoop_neverEarly time

theorem toNat_milliseconds (time : BitVec 32) :
    (time * 1000#32).toNat = 1000 * time.toNat % 2 ^ 32 := by
  rw [BitVec.toNat_mul, Nat.mul_comm]
  rfl

/-- `usleep` never returns early, and `sleep` does not exactly when its product does not wrap. -/
theorem sleep_neverEarly_iff (time : BitVec 32) :
    (NeverEarly (fun ticks => usleep ticks time) time.toNat ∧
      NeverEarly (fun ticks => sleep ticks time) (1000 * time.toNat)) ↔
        1000 * time.toNat < 2 ^ 32 := by
  constructor
  · rintro ⟨-, hsleep⟩
    obtain ⟨irqs, hwait⟩ := exists_waitLoop 0#32 (time * 1000#32)
    have hle := hsleep 0#32 irqs _ hwait
    rw [toNat_milliseconds] at hle
    omega
  · intro hlt
    refine ⟨usleep_neverEarly time, fun ticks irqs n h => ?_⟩
    have hle := waitLoop_neverEarly (time * 1000#32) ticks irqs n h
    rwa [toNat_milliseconds, Nat.mod_eq_of_lt hlt] at hle

/-- The first argument for which the product wraps: less than a second instead of 49 days. -/
theorem longSleep_early :
    sleep 0#32 4294968#32 (List.replicate 704 1) = some 704 ∧
    ¬ NeverEarly (fun ticks => sleep ticks 4294968#32) (1000 * (4294968#32).toNat) := by
  have hproduct : 0 + (703 + 1) = (4294968#32 * 1000#32).toNat := by decide
  have hones : waitLoop 0#32 (4294968#32 * 1000#32) (List.replicate (703 + 1) 1)
      (0#32 + BitVec.ofNat 32 0) 0 = some (4294968#32 * 1000#32).toNat := waitLoop_ones hproduct
  rw [BitVec.add_zero, ← hproduct] at hones
  have hwait : sleep 0#32 4294968#32 (List.replicate 704 1) = some 704 := hones
  refine ⟨hwait, fun h => ?_⟩
  have hle : 1000 * (4294968#32).toNat ≤ 704 := h 0#32 _ 704 hwait
  exact absurd hle (by decide)

end System44
