import Mathlib.Data.List.Basic
import Mathlib.Logic.Function.Basic

/-!
# Logs of stores

A store that takes values under keys is a function, and a log lists what has been stored, the newest
entry first. When the log is cut off, what it has kept is some of its oldest entries.
-/

namespace WriteLog

variable {κ ν : Type*} [DecidableEq κ]

def replay (start : κ → ν) : List (κ × ν) → κ → ν
  | [] => start
  | (k, v) :: log => Function.update (replay start log) k v

variable {start full : κ → ν} {log : List (κ × ν)} {k : κ}

theorem replay_append (start : κ → ν) (log log' : List (κ × ν)) :
    replay start (log' ++ log) = replay (replay start log) log' := by
  induction log' with
  | nil => rfl
  | cons x log' ih => rw [List.cons_append, replay, ih, replay]

theorem replay_of_not_mem (h : ∀ x ∈ log, x.1 ≠ k) : replay start log k = start k := by
  induction log with
  | nil => rfl
  | cons x log ih =>
      rw [replay, Function.update_of_ne (h x List.mem_cons_self).symm]
      exact ih fun y hy => h y (List.mem_cons_of_mem x hy)

theorem replay_of_mem {v : ν} (hmem : k ∈ log.map Prod.fst) (hsame : ∀ x ∈ log, x.1 = k → x.2 = v) :
    replay start log k = v := by
  induction log with
  | nil => cases hmem
  | cons x log ih =>
      rw [replay]
      by_cases hx : k = x.1
      · rw [hx, Function.update_self]
        exact hsame x List.mem_cons_self hx.symm
      · rw [Function.update_of_ne hx]
        refine ih ?_ fun y hy => hsame y (List.mem_cons_of_mem x hy)
        rw [List.map_cons, List.mem_cons] at hmem
        exact hmem.resolve_left hx

theorem eq_replay (hsame : ∀ x ∈ log, full x.1 = x.2)
    (hframe : ∀ k, (∀ x ∈ log, x.1 ≠ k) → full k = start k) : full = replay start log := by
  funext k
  by_cases hmem : k ∈ log.map Prod.fst
  · exact (replay_of_mem hmem fun x hx hk => by rw [← hk, hsame x hx]).symm
  · have hne : ∀ x ∈ log, x.1 ≠ k := by
      rintro x hx rfl
      exact hmem (List.mem_map_of_mem hx)
    rw [replay_of_not_mem hne, hframe k hne]

end WriteLog
