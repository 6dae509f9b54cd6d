import Mathlib.Data.Nat.Init

/-!
# Counting loops

`forUp n body` runs `body 0`, ..., `body (n - 1)` one after the other.
-/

variable {σ : Type*}

/-- `for (i = 0; i < n; i++) body`. -/
def forUp : ℕ → (ℕ → σ → σ) → σ → σ
  | 0, _, s => s
  | n + 1, body, s => body n (forUp n body s)

theorem forUp_succ (n : ℕ) (body : ℕ → σ → σ) (s : σ) :
    forUp (n + 1) body s = body n (forUp n body s) := rfl

theorem forUp_congr {n : ℕ} {body body' : ℕ → σ → σ} (h : ∀ i < n, ∀ s, body i s = body' i s)
    (s : σ) : forUp n body s = forUp n body' s := by
  induction n with
  | zero => rfl
  | succ n ih =>
      rw [forUp_succ, forUp_succ, ih fun i hi => h i (Nat.lt_succ_of_lt hi), h n n.lt_succ_self]

theorem forUp_id {n : ℕ} {body : ℕ → σ → σ} (h : ∀ i < n, ∀ s, body i s = s) (s : σ) :
    forUp n body s = s := by
  induction n with
  | zero => rfl
  | succ n ih => rw [forUp_succ, ih fun i hi => h i (Nat.lt_succ_of_lt hi), h n n.lt_succ_self]

/-- What every round keeps holds behind the loop, with the number of rounds. -/
theorem forUp_induct {P : ℕ → σ → Prop} {n : ℕ} {body : ℕ → σ → σ} {s : σ} (hstart : P 0 s)
    (hround : ∀ i < n, ∀ s, P i s → P (i + 1) (body i s)) : P n (forUp n body s) := by
  induction n with
  | zero => exact hstart
  | succ n ih => exact hround n n.lt_succ_self _ (ih fun i hi => hround i (Nat.lt_succ_of_lt hi))

theorem forUp_rel {τ : Type*} {R : σ → τ → Prop} {n : ℕ} {body : ℕ → σ → σ} {body' : ℕ → τ → τ}
    {s : σ} {t : τ} (hstart : R s t)
    (hround : ∀ i < n, ∀ s t, R s t → R (body i s) (body' i t)) :
    R (forUp n body s) (forUp n body' t) := by
  induction n with
  | zero => exact hstart
  | succ n ih => exact hround n n.lt_succ_self _ _ (ih fun i hi => hround i (Nat.lt_succ_of_lt hi))
