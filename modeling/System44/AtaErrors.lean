import System44.AtaRoundTrip

/-!
# Errors of the disk

The driver looks at `ERR` only after it has waited for `DRQ`, and not at all once the last sector
has been sent. So an error that comes without `DRQ` leaves it waiting, and the error of the last
sector of a write goes unseen; every other error is reported.
-/

namespace System44

/-- After every command and every sector the disk ends its work with `DRQ`, with `ERR` or both. -/
def Drive.Answers (d : Drive) : Prop := ∀ n, (d.reply n).drq = true ∨ (d.reply n).err = true

namespace Drive

def FailsWithin (d : Drive) (n : ℕ) : Prop := ∃ k < n, (d.reply (d.serial + 1 + k)).err = true

instance (d : Drive) (n : ℕ) : Decidable (d.FailsWithin n) :=
  inferInstanceAs (Decidable (∃ k < n, _))

/-- Every sector that is read is answered for before it is transferred. -/
def readAnswers (count : ℕ) : ℕ := count

/-- A sector that is written is answered for after it has been sent, and the command is answered
before the first one. -/
def writeAnswers (count : ℕ) : ℕ := if count = 0 then 0 else count + 1

/-- The first error among the first `n` answers, if there is one, comes with `DRQ`. -/
def FirstErrorWithDrq (d : Drive) (n : ℕ) : Prop :=
  ∀ k < n, ¬ d.FailsWithin k → (d.reply (d.serial + 1 + k)).err = true →
    (d.reply (d.serial + 1 + k)).drq = true

end Drive

/-- The call returns, with `ERR_FAILED` if the transfer fails and the count otherwise. -/
def Reported (result : Option ℤ) (fails : Prop) (count : ℕ) : Prop :=
  (fails → result = some errFailed) ∧ (¬ fails → result = some (count : ℤ))

section

variable {d : Drive} {count : ℕ}

theorem Drive.Answers.err_of_not_good (hd : d.Answers) {n : ℕ} (h : (d.reply n).good = false) :
    (d.reply n).err = true := by
  rcases hd n with hdrq | herr
  · simpa [Reply.good, hdrq] using h
  · exact herr

theorem Drive.err_of_good {n : ℕ} (h : (d.reply n).good = true) : (d.reply n).err = false := by
  simpa [Reply.good] using (Bool.and_eq_true_iff.mp h).2

theorem Drive.not_failsWithin_streak (d : Drive) {n k : ℕ}
    (hk : k ≤ streak d.reply (d.serial + 1) n) : ¬ d.FailsWithin k := by
  rintro ⟨i, hi, herr⟩
  rw [Drive.err_of_good (good_of_lt_streak (hi.trans_le hk))] at herr
  cases herr

theorem Drive.Answers.failsWithin_iff (hd : d.Answers) {n : ℕ} :
    d.FailsWithin n ↔ streak d.reply (d.serial + 1) n < n := by
  constructor
  · intro hfails
    by_contra hle
    exact d.not_failsWithin_streak (Nat.le_of_not_lt hle) hfails
  · intro hlt
    exact ⟨_, hlt, hd.err_of_not_good (not_good_streak hlt)⟩

theorem Drive.Answers.firstErrorWithDrq_iff (hd : d.Answers) {n : ℕ} :
    d.FirstErrorWithDrq n ↔ streak d.reply (d.serial + 1) n = n ∨
      (d.reply (d.serial + 1 + streak d.reply (d.serial + 1) n)).drq = true := by
  have hle := streak_le d.reply (d.serial + 1) n
  constructor
  · intro hfirst
    rcases Nat.eq_or_lt_of_le hle with heq | hlt
    · exact Or.inl heq
    · exact Or.inr (hfirst _ hlt (d.not_failsWithin_streak (Nat.le_refl _))
        (hd.err_of_not_good (not_good_streak hlt)))
  · intro hpass k hk hnone herr
    have hk' : k = streak d.reply (d.serial + 1) n := by
      rcases Nat.lt_trichotomy k (streak d.reply (d.serial + 1) n) with hlt | heq | hgt
      · rw [Drive.err_of_good (good_of_lt_streak hlt)] at herr
        cases herr
      · exact heq
      · exact absurd ⟨_, hgt, hd.err_of_not_good (not_good_streak (hgt.trans hk))⟩ hnone
    rcases hpass with hall | hdrq
    · omega
    · rwa [hk']

/-- What a call returns, as far as the answers of the disk decide it. -/
structure TransferResult (d : Drive) (count : ℕ) (result : Option ℤ) : Prop where
  refused : count = 0 → result = some errFailed
  done : 0 < count → streak d.reply (d.serial + 1) count = count → result = some (count : ℤ)
  failed : streak d.reply (d.serial + 1) count < count →
    (d.reply (d.serial + 1 + streak d.reply (d.serial + 1) count)).drq = true →
    result = some errFailed
  waiting : streak d.reply (d.serial + 1) count < count →
    (d.reply (d.serial + 1 + streak d.reply (d.serial + 1) count)).drq = false → result = none

theorem transferResult_of_returns {result : Option ℤ} (hlt : count < 2 ^ 8)
    (hsome : result.isSome ↔ d.Returns count)
    (hanswer : ∀ r, result = some r → r = d.answer count) : TransferResult d count result := by
  have hmod : count % 2 ^ 8 = count := Nat.mod_eq_of_lt hlt
  have hpassed : d.passed count = streak d.reply (d.serial + 1) count := by
    rw [passed_eq, hmod]
  have hresult (hreturns : d.Returns count) : result = some (d.answer count) := by
    obtain ⟨r, hr⟩ := Option.isSome_iff_exists.mp (hsome.mpr hreturns)
    rw [hr, hanswer r hr]
  constructor
  · rintro rfl
    exact hresult (Drive.returns_refused rfl)
  · intro hpos hall
    rw [hresult (Or.inl (by rw [hpassed, hmod, hall])), Drive.answer, hpassed, hmod,
      if_pos ⟨by omega, hall⟩]
  · intro hfew hdrq
    have hfirst : d.firstReply count = d.serial + 1 := by
      rw [Drive.firstReply, if_neg (by omega)]
    rw [hresult (Or.inr (by rwa [hpassed, hfirst])), Drive.answer, hpassed, hmod,
      if_neg (by omega)]
  · intro hfew hdrq
    have hfirst : d.firstReply count = d.serial + 1 := by
      rw [Drive.firstReply, if_neg (by omega)]
    rw [← Option.not_isSome_iff_eq_none, hsome, Drive.Returns, hpassed, hfirst, hmod, hdrq]
    rintro (hall | hfalse)
    · exact hfew.ne hall
    · exact Bool.false_ne_true hfalse

theorem ataReadSectors_result (m : Mem) (lba buffer : ℕ) (hlt : count < 2 ^ 8) :
    TransferResult d count ((ataReadSectors d m lba count buffer).map Prod.fst) := by
  refine transferResult_of_returns hlt ?_ ?_
  · rw [Option.isSome_map]
    exact ataReadSectors_isSome_iff
  · intro r hr
    obtain ⟨⟨r', d', m'⟩, hread, rfl⟩ := Option.map_eq_some_iff.mp hr
    exact (ataReadSectors_some hread).1

theorem ataWriteSectors_result (m : Mem) (lba buffer : ℕ) (hlt : count < 2 ^ 8) :
    TransferResult d count ((ataWriteSectors d m lba count buffer).map Prod.fst) := by
  refine transferResult_of_returns hlt ?_ ?_
  · rw [Option.isSome_map]
    exact ataWriteSectors_isSome_iff
  · intro r hr
    obtain ⟨⟨r', d'⟩, hwrite, rfl⟩ := Option.map_eq_some_iff.mp hr
    exact (ataWriteSectors_some hwrite).1

/-- A result reports the first `n ≥ count` answers exactly when it is that of a transfer, the first
error comes with `DRQ` and no error comes behind the last sector. -/
theorem TransferResult.reported_iff {result : Option ℤ} (hresult : TransferResult d count result)
    (hd : d.Answers) (hpos : 0 < count) {n : ℕ} (hn : count ≤ n) :
    Reported result (d.FailsWithin n) count ↔
      d.FirstErrorWithDrq count ∧ (d.FailsWithin n → d.FailsWithin count) := by
  have hneg : (some (count : ℤ)) ≠ some errFailed := by
    intro h
    have := Option.some_inj.mp h
    unfold errFailed at this
    omega
  rw [hd.firstErrorWithDrq_iff, hd.failsWithin_iff (n := count)]
  rcases Nat.eq_or_lt_of_le (streak_le d.reply (d.serial + 1) count) with hall | hfew
  · have hdone := hresult.done hpos hall
    simp only [Reported, hdone, hall, true_or, true_and, Nat.lt_irrefl, imp_false, implies_true,
      and_true, hneg]
  · have hfails : d.FailsWithin n := by
      obtain ⟨k, hk, herr⟩ := hd.failsWithin_iff.mpr hfew
      exact ⟨k, hk.trans_le hn, herr⟩
    cases hdrq : (d.reply (d.serial + 1 + streak d.reply (d.serial + 1) count)).drq with
    | true => simp [Reported, hfails, hresult.failed hfew hdrq, hfew]
    | false => simp [Reported, hfails, hresult.waiting hfew hdrq, hfew.ne]

theorem TransferResult.not_reported_zero {result : Option ℤ} (hresult : TransferResult d 0 result) :
    ¬ Reported result (d.FailsWithin 0) 0 := by
  rintro ⟨-, hcount⟩
  have hnone : ¬ d.FailsWithin 0 := fun ⟨k, hk, _⟩ => Nat.not_lt_zero k hk
  rw [hresult.refused rfl] at hcount
  exact absurd (hcount hnone) (by decide)

/-- Reads and writes end and report the errors of the disk exactly when the first error comes with
`DRQ`, and for a write is not that of the last sector. -/
theorem ataTransfer_reported_iff (hd : d.Answers) (m : Mem) (lba buffer : ℕ) (hlt : count < 2 ^ 8) :
    (Reported ((ataReadSectors d m lba count buffer).map Prod.fst)
        (d.FailsWithin (Drive.readAnswers count)) count ↔
      0 < count ∧ d.FirstErrorWithDrq count) ∧
    (Reported ((ataWriteSectors d m lba count buffer).map Prod.fst)
        (d.FailsWithin (Drive.writeAnswers count)) count ↔
      0 < count ∧ d.FirstErrorWithDrq count ∧
        (d.FailsWithin (count + 1) → d.FailsWithin count)) := by
  have hread := ataReadSectors_result (d := d) m lba buffer hlt
  have hwrite := ataWriteSectors_result (d := d) m lba buffer hlt
  rcases Nat.eq_zero_or_pos count with rfl | hpos
  · exact ⟨iff_of_false hread.not_reported_zero fun h => Nat.not_lt_zero 0 h.1,
      iff_of_false hwrite.not_reported_zero fun h => Nat.not_lt_zero 0 h.1⟩
  · rw [Drive.readAnswers, Drive.writeAnswers, if_neg (by omega),
      hread.reported_iff hd hpos (Nat.le_refl count),
      hwrite.reported_iff hd hpos (Nat.le_succ count)]
    exact ⟨⟨fun h => ⟨hpos, h.1⟩, fun h => ⟨h.2, id⟩⟩,
      ⟨fun h => ⟨hpos, h⟩, fun h => h.2⟩⟩

end

def badSecondSector : Drive :=
  { slowDisk with reply := fun n => ⟨3, 2, true, n % 2 == 0, true⟩ }

theorem badSecondSector_reported :
    Reported ((ataReadSectors badSecondSector rampMemory 7 4 0x1000).map Prod.fst)
      (badSecondSector.FailsWithin 4) 4 := by
  have hanswers : badSecondSector.Answers := fun _ => Or.inl rfl
  exact (ataTransfer_reported_iff hanswers rampMemory 7 0x1000 (by decide : 4 < 2 ^ 8)).1.mpr
    ⟨by decide, fun _ _ _ _ => rfl⟩

def silentError : Drive :=
  { slowDisk with reply := fun n => ⟨3, 2, n != 1, n == 1, true⟩ }

def lateError : Drive :=
  { slowDisk with reply := fun n => ⟨3, 2, true, n == 2, true⟩ }

/-- A read that fails without `DRQ` never returns, and a write whose sector fails returns 1. -/
theorem silentError_not_reported :
    (silentError.Answers ∧ silentError.FailsWithin 1 ∧
      (ataReadSectors silentError ⟨fun _ => 0#8, []⟩ 7 1 0x1000).map Prod.fst = none) ∧
    lateError.Answers ∧ lateError.FailsWithin (Drive.writeAnswers 1) ∧
      (ataWriteSectors lateError ⟨fun _ => 0#8, []⟩ 7 1 0x1000).map Prod.fst = some 1 := by
  have hsilent : silentError.Answers := by
    intro n
    by_cases hn : n = 1
    · exact Or.inr (by simp [silentError, hn])
    · exact Or.inl (by simp [silentError, hn])
  exact ⟨⟨hsilent, ⟨0, by decide, rfl⟩, by decide +kernel⟩,
    fun _ => Or.inl rfl, ⟨1, by decide, rfl⟩, by decide +kernel⟩

end System44
