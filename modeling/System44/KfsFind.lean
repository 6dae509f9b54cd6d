import System44.Kfs

/-!
# Looking a file up

`kfs_find` returns the first entry whose name is the one it is given, and `NULL` if there is none.
-/

namespace System44

def SameName (m : Mem) (sb name len i : ℕ) : Prop :=
  ∀ t ≤ len, m.get (kfsFile sb i + t) = m.get (name + t)

theorem stringAt_of_kfsFindFrom {m : Mem} {sb name n i k : ℕ}
    (h : kfsFindFrom m sb name n i = some (some k)) :
    ∃ len < addressSpace, StringAt m name len := by
  induction n generalizing i with
  | zero => cases h
  | succ n ih =>
      obtain ⟨r, hr, h⟩ := Option.bind_eq_some_iff.mp h
      split at h
      · rename_i h0
        rw [h0] at hr
        obtain ⟨len, hlen, hstring, -⟩ := strcmpLoop_zero hr
        exact ⟨len, hlen, hstring⟩
      · exact ih h

section

variable {m : Mem} {sb name len : ℕ} (h : StringAt m name len) (hlen : len < addressSpace)

include h hlen

theorem kfsFindFrom_succ (n i : ℕ) :
    (SameName m sb name len i ∧ kfsFindFrom m sb name (n + 1) i = some (some i)) ∨
      (¬ SameName m sb name len i ∧
        kfsFindFrom m sb name (n + 1) i = kfsFindFrom m sb name n (i + 1)) := by
  obtain ⟨c, hc, hzero⟩ := strcmp_of_string (kfsFile sb i) h hlen
  rw [kfsFindFrom, hc, Option.bind_eq_bind, Option.bind_some]
  by_cases h0 : c = 0
  · exact Or.inl ⟨hzero.mp h0, if_pos h0⟩
  · exact Or.inr ⟨fun hs => h0 (hzero.mpr hs), if_neg h0⟩

theorem kfsFindFrom_none {n i : ℕ} :
    kfsFindFrom m sb name n i = some none ↔
      ∀ j, i ≤ j → j < i + n → ¬ SameName m sb name len j := by
  induction n generalizing i with
  | zero => exact iff_of_true rfl fun j hij hj => by omega
  | succ n ih =>
      rcases kfsFindFrom_succ h hlen n i with ⟨hs, heq⟩ | ⟨hs, heq⟩
      · rw [heq]
        exact iff_of_false (by simp) fun hall => hall i (Nat.le_refl i) (by omega) hs
      · rw [heq, ih]
        constructor
        · intro hall j hij hj
          rcases Nat.eq_or_lt_of_le hij with rfl | hlt
          · exact hs
          · exact hall j hlt (by omega)
        · intro hall j hij hj
          exact hall j (by omega) (by omega)

theorem kfsFindFrom_some {n i k : ℕ} :
    kfsFindFrom m sb name n i = some (some k) ↔
      i ≤ k ∧ k < i + n ∧ SameName m sb name len k ∧
        ∀ j, i ≤ j → j < k → ¬ SameName m sb name len j := by
  induction n generalizing i with
  | zero => exact iff_of_false (by simp [kfsFindFrom]) fun hk => by omega
  | succ n ih =>
      rcases kfsFindFrom_succ h hlen n i with ⟨hs, heq⟩ | ⟨hs, heq⟩
      · rw [heq]
        constructor
        · intro hk
          obtain rfl : i = k := by simpa using hk
          exact ⟨Nat.le_refl i, by omega, hs, fun j hij hj => by omega⟩
        · rintro ⟨hik, -, -, hall⟩
          rcases Nat.eq_or_lt_of_le hik with rfl | hlt
          · rfl
          · exact absurd hs (hall i (Nat.le_refl i) hlt)
      · rw [heq, ih]
        constructor
        · rintro ⟨hik, hkn, hk, hall⟩
          refine ⟨by omega, by omega, hk, fun j hij hj => ?_⟩
          rcases Nat.eq_or_lt_of_le hij with rfl | hlt
          · exact hs
          · exact hall j hlt hj
        · rintro ⟨hik, hkn, hk, hall⟩
          have hne : i ≠ k := by
            rintro rfl
            exact hs hk
          exact ⟨by omega, by omega, hk, fun j hij hj => hall j (by omega) hj⟩

theorem kfsFind_none : kfsFind m sb name = some none ↔
    ∀ j < fileCount m sb, ¬ SameName m sb name len j := by
  rw [kfsFind, kfsFindFrom_none h hlen]
  constructor
  · intro hall j hj
    exact hall j (Nat.zero_le j) (by omega)
  · intro hall j _ hj
    exact hall j (by omega)

theorem kfsFind_some {k : ℕ} : kfsFind m sb name = some (some k) ↔
    k < fileCount m sb ∧ SameName m sb name len k ∧ ∀ j < k, ¬ SameName m sb name len j := by
  rw [kfsFind, kfsFindFrom_some h hlen]
  constructor
  · rintro ⟨-, hk, hs, hall⟩
    exact ⟨by omega, hs, fun j hj => hall j (Nat.zero_le j) hj⟩
  · rintro ⟨hk, hs, hall⟩
    exact ⟨Nat.zero_le k, by omega, hs, fun j _ hj => hall j hj⟩

end

theorem kfsFind_entered {m m' : Mem} {sb name len : ℕ} {size : BitVec 32}
    (hcount : fileCount m sb < kfsMaxFiles) (hname : NameAt m sb (fileCount m sb) name len)
    (hnew : kfsFind m sb name = some none)
    (he : Entered m m' sb (fileCount m sb) name len size) :
    kfsFind m' sb name = some (some (fileCount m sb)) := by
  have hshort := hname.short
  have hlen : len < addressSpace := by
    unfold addressSpace
    omega
  have hbytes : ∀ i ≤ len, m'.get (name + i) = m.get (name + i) := fun i hi =>
    he.frame _ (hname.apart i hi)
  rw [kfsFind_none hname.string hlen] at hnew
  rw [kfsFind_some (hname.string.congr hbytes) hlen]
  refine ⟨by rw [he.fileCount]; omega, ?_, ?_⟩
  · intro t ht
    rw [he.nameBytes t ht, hbytes t ht]
  · intro j hj hs
    apply hnew j hj
    intro t ht
    rw [← hbytes t ht, ← hs t ht]
    exact (he.get_kfsFile (by omega) (by omega) (by unfold sizeofKfsFile; omega)).symm

end System44
