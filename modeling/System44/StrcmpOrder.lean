import System44.KfsFind
import System44.Strtok

/-!
# The order of names

`strcmp` says how the first characters in which two strings differ compare as unsigned bytes, where
the NUL of a string that ends counts as a character. This is the lexicographic order of the strings.
-/

namespace System44

def byteDiff : List Byte → List Byte → ℤ
  | [], [] => 0
  | [], b :: _ => -b.toNat
  | a :: _, [] => a.toNat
  | a :: as, b :: bs => if a = b then byteDiff as bs else a.toNat - b.toNat

theorem byteDiff_self (as : List Byte) : byteDiff as as = 0 := by
  induction as with
  | nil => rfl
  | cons a as ih => rwa [byteDiff, if_pos rfl]

theorem byteDiff_swap (as bs : List Byte) : byteDiff bs as = -byteDiff as bs := by
  induction as generalizing bs with
  | nil =>
      cases bs with
      | nil => rfl
      | cons b bs => exact (Int.neg_neg _).symm
  | cons a as ih =>
      cases bs with
      | nil => rfl
      | cons b bs =>
          rw [byteDiff, byteDiff]
          by_cases hab : a = b
          · rw [if_pos hab, if_pos hab.symm, ih]
          · rw [if_neg hab, if_neg (Ne.symm hab), Int.neg_sub]

theorem byteDiff_neg_iff {as bs : List Byte} (hb : ∀ b ∈ bs, b ≠ 0#8) :
    byteDiff as bs < 0 ↔ as < bs := by
  induction as generalizing bs with
  | nil =>
      cases bs with
      | nil => exact iff_of_false (Int.lt_irrefl 0) (List.not_lt_nil [])
      | cons b bs =>
          have hpos : b.toNat ≠ 0 := fun h0 =>
            hb b List.mem_cons_self (BitVec.eq_of_toNat_eq h0)
          refine iff_of_true ?_ (List.nil_lt_cons b bs)
          rw [byteDiff]
          omega
  | cons a as ih =>
      cases bs with
      | nil =>
          refine iff_of_false ?_ (List.not_lt_nil (a :: as))
          rw [byteDiff]
          omega
      | cons b bs =>
          rw [byteDiff, List.cons_lt_cons_iff, BitVec.lt_def]
          by_cases hab : a = b
          · rw [if_pos hab, ih fun x hx => hb x (List.mem_cons_of_mem b hx), hab]
            exact ⟨fun h => Or.inr ⟨rfl, h⟩, fun h => h.resolve_left (Nat.lt_irrefl _) |>.2⟩
          · rw [if_neg hab]
            constructor
            · intro hlt
              exact Or.inl (by omega)
            · intro hlt
              have := hlt.resolve_right fun heq => hab heq.1
              omega

theorem byteDiff_eq_zero_iff {as bs : List Byte} (ha : ∀ a ∈ as, a ≠ 0#8)
    (hb : ∀ b ∈ bs, b ≠ 0#8) : byteDiff as bs = 0 ↔ as = bs := by
  constructor
  · intro hzero
    have hnlt : ¬ as < bs := fun hlt =>
      absurd ((byteDiff_neg_iff hb).mpr hlt) (by omega)
    have hngt : ¬ bs < as := fun hgt =>
      absurd ((byteDiff_neg_iff ha).mpr hgt) (by rw [byteDiff_swap]; omega)
    exact List.le_antisymm hngt hnlt
  · rintro rfl
    exact byteDiff_self as

theorem byteDiff_nonpos_iff {as bs : List Byte} (ha : ∀ a ∈ as, a ≠ 0#8) :
    byteDiff as bs ≤ 0 ↔ as ≤ bs := by
  rw [← List.not_lt, ← byteDiff_neg_iff ha, byteDiff_swap as bs]
  omega

theorem byteDiff_trans {as bs cs : List Byte} (ha : ∀ a ∈ as, a ≠ 0#8) (hb : ∀ b ∈ bs, b ≠ 0#8)
    (hab : byteDiff as bs ≤ 0) (hbc : byteDiff bs cs ≤ 0) : byteDiff as cs ≤ 0 := by
  rw [byteDiff_nonpos_iff ha] at hab ⊢
  rw [byteDiff_nonpos_iff hb] at hbc
  exact List.le_trans hab hbc

theorem strcmpLoop_of_spells {m : Mem} {s1 s2 fuel : ℕ} {as bs : List Byte} (ha : Spells m s1 as)
    (hb : Spells m s2 bs) (hfuel : as.length < fuel) :
    strcmpLoop m fuel s1 s2 = some (byteDiff as bs) := by
  induction as generalizing s1 s2 fuel bs with
  | nil =>
      obtain ⟨fuel, rfl⟩ : ∃ n, fuel = n + 1 := ⟨fuel - 1, by omega⟩
      have hnul : m.get s1 = 0#8 := ha
      rw [strcmpLoop, if_neg fun hgo => hgo.1 hnul, hnul]
      cases bs with
      | nil =>
          have hnul' : m.get s2 = 0#8 := hb
          rw [hnul']
          rfl
      | cons b bs =>
          rw [hb.1, byteDiff, BitVec.toNat_ofNat, Nat.zero_mod, Int.ofNat_zero, Int.zero_sub]
  | cons a as ih =>
      obtain ⟨fuel, rfl⟩ : ∃ n, fuel = n + 1 := ⟨fuel - 1, by omega⟩
      obtain ⟨hget, hne, hrest⟩ := ha
      rw [strcmpLoop, hget]
      cases bs with
      | nil =>
          have hnul : m.get s2 = 0#8 := hb
          rw [hnul, if_neg fun hgo => hne hgo.2]
          exact congrArg some (Int.sub_zero _)
      | cons b bs =>
          obtain ⟨hget', -, hrest'⟩ := hb
          rw [hget', byteDiff]
          by_cases hab : a = b
          · rw [if_pos ⟨hne, hab⟩, if_pos hab]
            exact ih hrest hrest' (Nat.lt_of_succ_lt_succ hfuel)
          · rw [if_neg fun hgo => hab hgo.2, if_neg hab]

theorem strcmp_of_spells {m : Mem} {s1 s2 : ℕ} {as bs : List Byte} (ha : Spells m s1 as)
    (hb : Spells m s2 bs) : strcmp m s1 s2 = some (byteDiff as bs) :=
  strcmpLoop_of_spells ha hb ha.length_lt

/-- The entries in use have the names `names`, which end within their slots. -/
structure NamedDirectory (m : Mem) (sb : ℕ) (names : ℕ → List Byte) : Prop where
  count_le : fileCount m sb ≤ kfsMaxFiles
  short : ∀ i < fileCount m sb, (names i).length < 32
  spelled : ∀ i < fileCount m sb, Spells m (kfsFile sb i) (names i)

section

variable {m : Mem} {sb name : ℕ} {names : ℕ → List Byte} {bs : List Byte}
  (hdir : NamedDirectory m sb names) (hname : Spells m name bs)

include hdir hname

theorem sameName_iff {i : ℕ} (hi : i < fileCount m sb) :
    SameName m sb name bs.length i ↔ names i = bs := by
  have hstored := hdir.spelled i hi
  obtain ⟨r, hr, hsame⟩ := strcmp_of_string (kfsFile sb i) hname.stringAt hname.length_lt
  obtain rfl : byteDiff (names i) bs = r :=
    Option.some_inj.mp ((strcmp_of_spells hstored hname).symm.trans hr)
  exact hsame.symm.trans (byteDiff_eq_zero_iff hstored.ne_zero hname.ne_zero)

theorem kfsFind_eq_some_iff {k : ℕ} : kfsFind m sb name = some (some k) ↔
    k < fileCount m sb ∧ names k = bs ∧ ∀ j < k, names j ≠ bs := by
  rw [kfsFind_some hname.stringAt hname.length_lt]
  refine and_congr_right fun hk => and_congr (sameName_iff hdir hname hk) ?_
  exact forall₂_congr fun j hj => not_congr (sameName_iff hdir hname (hj.trans hk))

theorem kfsFind_eq_none_iff : kfsFind m sb name = some none ↔
    ∀ j < fileCount m sb, names j ≠ bs := by
  rw [kfsFind_none hname.stringAt hname.length_lt]
  exact forall₂_congr fun j hj => not_congr (sameName_iff hdir hname hj)

end

/-- The result of `strcmp` on three strings orders them as their characters do, and `kfs_find`
returns the first entry with the name. -/
theorem strcmp_orders (m : Mem) :
    (∀ a b as bs, Spells m a as → Spells m b bs → ∃ r,
      strcmp m a b = some r ∧ strcmp m b a = some (-r) ∧ (r = 0 ↔ as = bs) ∧ (r < 0 ↔ as < bs) ∧
        (0 < r ↔ bs < as)) ∧
    (∀ a b c as bs cs, Spells m a as → Spells m b bs → Spells m c cs → ∃ r₁ r₂ r₃,
      strcmp m a b = some r₁ ∧ strcmp m b c = some r₂ ∧ strcmp m a c = some r₃ ∧
        (r₁ ≤ 0 → r₂ ≤ 0 → r₃ ≤ 0)) ∧
    ∀ sb names name bs, NamedDirectory m sb names → Spells m name bs →
      (∀ k, kfsFind m sb name = some (some k) ↔
        k < fileCount m sb ∧ names k = bs ∧ ∀ j < k, names j ≠ bs) ∧
      (kfsFind m sb name = some none ↔ ∀ j < fileCount m sb, names j ≠ bs) := by
  refine ⟨fun a b as bs ha hb => ?_, fun a b c as bs cs ha hb hc => ?_,
    fun sb names name bs hdir hname => ?_⟩
  · refine ⟨byteDiff as bs, strcmp_of_spells ha hb, ?_,
      byteDiff_eq_zero_iff ha.ne_zero hb.ne_zero, byteDiff_neg_iff hb.ne_zero, ?_⟩
    · rw [strcmp_of_spells hb ha, byteDiff_swap]
    · rw [← byteDiff_neg_iff ha.ne_zero, byteDiff_swap as bs, Int.neg_lt_zero_iff]
  · refine ⟨_, _, _, strcmp_of_spells ha hb, strcmp_of_spells hb hc, strcmp_of_spells ha hc,
      byteDiff_trans ha.ne_zero hb.ne_zero⟩
  · exact ⟨fun k => kfsFind_eq_some_iff hdir hname, kfsFind_eq_none_iff hdir hname⟩

def nameMem : Mem where
  bytes a :=
    if a = 0 then 0x61#8 else if a = 2 ∨ a = 0x18 then 0x62#8 else if a = 0x14 then 1#8 else 0#8
  writes := []

theorem nameMem_directory : NamedDirectory nameMem 0x10 fun _ => [0x62#8] := by
  have hcount : fileCount nameMem 0x10 = 1 := by decide
  constructor
  · rw [hcount]
    decide
  · exact fun i _ => show 1 < 32 by decide
  · rw [hcount]
    intro i hi
    obtain rfl : i = 0 := by omega
    exact ⟨rfl, by decide, rfl⟩

theorem nameMem_orders :
    (∃ r, strcmp nameMem 0 2 = some r ∧ r < 0) ∧ kfsFind nameMem 0x10 2 = some (some 0) := by
  obtain ⟨hcmp, -, hfind⟩ := strcmp_orders nameMem
  have hname : Spells nameMem 2 [0x62#8] := ⟨rfl, by decide, rfl⟩
  obtain ⟨r, hr, -, -, hneg, -⟩ := hcmp 0 2 [0x61#8] [0x62#8] ⟨rfl, by decide, rfl⟩ hname
  have hcount : fileCount nameMem 0x10 = 1 := by decide
  refine ⟨⟨r, hr, hneg.mpr (by decide)⟩, ((hfind 0x10 _ 2 _ nameMem_directory hname).1 0).mpr ?_⟩
  rw [hcount]
  exact ⟨Nat.one_pos, rfl, fun j hj => absurd hj (Nat.not_lt_zero j)⟩

end System44
