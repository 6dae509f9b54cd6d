import System44.ShellSession

/-!
# Power cuts in a session

The power can fail at any time of a session, after any of the sectors that the disk has stored for
it. After a restart the volume has the files that some of the lines have left, from the first line
on, and among these are all whose prompt had come back before the power failed.
-/

namespace System44

section

variable {d d₁ d' cut : Drive} {log log' kept : List (ℕ × Sector)}

/-- A log that was cut off reaches beyond its first part, or ends in it. -/
theorem CutOff.split (h : CutOff d d' cut kept) (hlog : d₁.accepted = log ++ d.accepted)
    (hsector : d₁.sector = WriteLog.replay d.sector log)
    (hlog' : d'.accepted = log' ++ d₁.accepted) :
    (∃ kept', kept = kept' ++ log ∧ CutOff d₁ d' cut kept') ∨
      kept.length < log.length ∧ CutOff d d₁ cut kept := by
  obtain ⟨lost, haccepted⟩ := h.accepted
  have hsplit : log' ++ log = lost ++ kept := by
    rw [← List.append_left_inj d.accepted, ← haccepted, List.append_assoc, ← hlog, ← hlog']
  rcases Nat.lt_or_ge kept.length log.length with hlt | hle
  · right
    rcases List.append_eq_append_iff.mp hsplit with ⟨as, -, hlog₁⟩ | ⟨bs, -, hkept⟩
    · exact ⟨hlt, ⟨as, by rw [hlog, hlog₁]⟩, h.sector, h.errorFree⟩
    · rw [hkept, List.length_append] at hlt
      omega
  · left
    rcases List.append_eq_append_iff.mp hsplit with ⟨as, hlost, hlog₁⟩ | ⟨bs, hlog₁, hkept⟩
    · have hnil : as = [] := by
        rw [hlog₁, List.length_append] at hle
        exact List.length_eq_zero_iff.mp (by omega)
      rw [hnil] at hlost hlog₁
      refine ⟨[], hlog₁.symm, ⟨lost, ?_⟩, ?_, h.errorFree⟩
      · rw [hlog', hlost, List.append_nil, List.append_nil]
      · rw [h.sector, hsector, hlog₁]
        rfl
    · refine ⟨bs, hkept, ⟨lost, by rw [hlog', hlog₁]⟩, ?_, h.errorFree⟩
      rw [h.sector, hkept, WriteLog.replay_append, hsector]

end

section

variable {sb : ℕ} {V V' : Volume}

theorem KfsWork.log (hrep : Represents sb V.machine V.files) (h : KfsWork sb V V') :
    ∃ log, V'.machine.disk.accepted = log ++ V.machine.disk.accepted ∧
      V'.machine.disk.sector = WriteLog.replay V.machine.disk.sector log := by
  cases h with
  | elsewhere hmem hunw => exact ⟨[], hunw.accepted, hunw.sector⟩
  | @write M M' c f name data r hargs hw =>
      rcases Nat.lt_or_ge (fileCount M.mem sb) kfsMaxFiles with hroom | hfull
      · obtain ⟨stored, stored', hlog, hsector, -⟩ :=
          kfsWrite_log hrep.errorFree hroom (hargs.nameAt hroom) hw
        exact ⟨stored' ++ stored, hlog, hsector⟩
      · obtain ⟨-, rfl⟩ := kfsWrite_full hfull hw
        exact ⟨[], rfl, rfl⟩

/-- When the power fails meanwhile, the work is done or it is not. -/
theorem KfsWork.powerCut (h : KfsRun sb V) (hwork : KfsWork sb V V') {d : Drive}
    {kept : List (ℕ × Sector)} (hcut : CutOff V.machine.disk V'.machine.disk d kept) (m : Mem)
    (p : Pmm) :
    ∃ c M', (c = V.files ∨ c = V'.files) ∧ kfsMount ⟨m, d, p⟩ sb = some (.ok (errSuccess, M')) ∧
      KfsRun sb ⟨M', c⟩ := by
  have hrep := kfsRun_represents h
  cases hwork with
  | @elsewhere M M' c n hmem hunw =>
      obtain ⟨lost, haccepted⟩ := hcut.accepted
      have hnil : kept = [] := by
        have hlength := congrArg List.length (haccepted.symm.trans hunw.accepted)
        rw [List.length_append, List.length_append] at hlength
        dsimp only at hlength
        exact List.length_eq_zero_iff.mp (by omega)
      have hsector : d.sector = M.disk.sector := by
        rw [hcut.sector, hnil]
        rfl
      obtain ⟨M₁, hmount⟩ := exists_mount ⟨m, d, p⟩ hrep hcut.errorFree fun s _ =>
        congrFun hsector s
      exact ⟨c, M₁, Or.inl rfl, hmount, h.trans (.single (.restart hcut.errorFree hsector hmount))⟩
  | write hargs hw =>
      obtain ⟨M₀, h₀, hsector⟩ := exists_represents_cut hrep hargs hw hcut
      obtain ⟨M', hmount⟩ := exists_mount ⟨m, d, p⟩ h₀ hcut.errorFree hsector
      refine ⟨_, M', ?_, hmount, h.trans (.single (.powerCut hargs hw hcut hmount))⟩
      split
      · exact Or.inr rfl
      · exact Or.inl rfl

end

theorem Files.Accepts.of_append {c : Files} {lines rest : List (List Byte)}
    (h : c.Accepts (lines ++ rest)) : c.Accepts lines := by
  induction lines generalizing c with
  | nil => trivial
  | cons keys lines ih =>
      obtain ⟨hkeys, hallowed, hlines⟩ := h
      exact ⟨hkeys, hallowed, ih hlines⟩

section

variable {P : ShellPlace} {s : Shell} {c : Files} (font : Font) (prog : Program)

theorem shRounds_log (hplace : P.Apart) (h : ShellAt P s.machine c)
    {lines : List (List Byte)} (hlines : c.Accepts lines) {s' : Shell}
    (hrounds : shRounds font prog P s (lines.map (· ++ [10#8])) = some s') :
    ∃ log, s'.machine.disk.accepted = log ++ s.machine.disk.accepted ∧
      s'.machine.disk.sector = WriteLog.replay s.machine.disk.sector log := by
  induction lines generalizing s c with
  | nil =>
      obtain rfl := Option.some_inj.mp hrounds
      exact ⟨[], rfl, rfl⟩
  | cons keys lines ih =>
      obtain ⟨hkeys, hallowed, hlines⟩ := hlines
      obtain ⟨M, s₁, hround, hdisk, hat, hgaps, hwork, -⟩ :=
        shRound_works font prog hplace h hkeys hallowed
      obtain ⟨log, hlog, hsector⟩ := hwork.log (kfsRun_represents hat.run)
      rw [shRounds_cons hround] at hrounds
      obtain ⟨log', hlog', hsector'⟩ := ih ⟨hat.run.work hwork, hgaps⟩ hlines hrounds
      rw [hdisk] at hlog hsector
      refine ⟨log' ++ log, ?_, ?_⟩
      · rw [hlog', hlog, List.append_assoc]
      · rw [hsector', hsector, WriteLog.replay_append]

theorem shRounds_short (hplace : P.Apart) {s₁ : Shell} {c₁ : Files}
    (h₁ : ShellAt P s₁.machine c₁) {keys : List Byte} {lines : List (List Byte)}
    (hlines : c₁.Accepts lines) (hround : shRound font prog P s (keys ++ [10#8]) = some s₁)
    {log kept : List (ℕ × Sector)}
    (hlog : s₁.machine.disk.accepted = log ++ s.machine.disk.accepted)
    (hshort : kept.length < log.length) :
    ∀ first s₂, first <+: keys :: lines →
      shRounds font prog P s (first.map (· ++ [10#8])) = some s₂ →
      s₂.machine.disk.accepted <:+ kept ++ s.machine.disk.accepted → first = [] := by
  intro first s₂ hfirst hrounds hsuffix
  cases first with
  | nil => rfl
  | cons keys' first =>
      obtain ⟨rfl, rest, rfl⟩ := List.cons_prefix_cons.mp hfirst
      rw [shRounds_cons hround] at hrounds
      obtain ⟨log', hlog', -⟩ := shRounds_log font prog hplace h₁ hlines.of_append hrounds
      have hle := hsuffix.length_le
      rw [hlog', hlog, List.length_append, List.length_append, List.length_append] at hle
      omega

/-- When the power fails during a session, the machine can be restarted, and the volume then has the
files that the session has up to some line; all are there whose line had been dealt with. -/
theorem shRounds_powerCut (hplace : P.Apart) (h : ShellAt P s.machine c)
    {lines : List (List Byte)} (hlines : c.Accepts lines) {s' : Shell}
    (hrounds : shRounds font prog P s (lines.map (· ++ [10#8])) = some s') {d : Drive}
    {kept : List (ℕ × Sector)} (hcut : CutOff s.machine.disk s'.machine.disk d kept) (m : Mem)
    (p : Pmm) :
    ∃ done M', done <+: lines ∧ kfsMount ⟨m, d, p⟩ P.superblock = some (.ok (errSuccess, M')) ∧
      KfsRun P.superblock ⟨M', (c.session done).2⟩ ∧
      ∀ first s₁, first <+: lines →
        shRounds font prog P s (first.map (· ++ [10#8])) = some s₁ →
        s₁.machine.disk.accepted <:+ kept ++ s.machine.disk.accepted →
        (c.session first).2 ≤ (c.session done).2 := by
  induction lines generalizing s c kept with
  | nil =>
      obtain rfl := Option.some_inj.mp hrounds
      have hidle : KfsWork P.superblock ⟨s.machine, c⟩ ⟨s.machine, c⟩ :=
        .elsewhere (fun _ _ => rfl) (.refl _)
      obtain ⟨c', M', hfiles, hmount, hrun⟩ := hidle.powerCut h.run hcut m p
      obtain rfl : c' = c := hfiles.elim id id
      refine ⟨[], M', List.prefix_rfl, hmount, hrun, fun first s₁ hfirst _ _ => ?_⟩
      rw [List.prefix_nil.mp hfirst]
  | cons keys lines ih =>
      obtain ⟨hkeys, hallowed, hlines⟩ := hlines
      obtain ⟨M, s₁, hround, hdisk, hat, hgaps, hwork, -⟩ :=
        shRound_works font prog hplace h hkeys hallowed
      have hat₁ : ShellAt P s₁.machine (c.line keys).2 := ⟨hat.run.work hwork, hgaps⟩
      obtain ⟨log, hlog, hsector⟩ := hwork.log (kfsRun_represents hat.run)
      rw [shRounds_cons hround] at hrounds
      obtain ⟨log', hlog', -⟩ := shRounds_log font prog hplace hat₁ hlines hrounds
      rw [hdisk] at hlog hsector
      rcases hcut.split hlog hsector hlog' with ⟨kept', rfl, hcut₁⟩ | ⟨hshort, hcut₁⟩
      · obtain ⟨done, M', hdone, hmount, hrun', hkept⟩ := ih hat₁ hlines hrounds hcut₁
        refine ⟨keys :: done, M', List.cons_prefix_cons.mpr ⟨rfl, hdone⟩, hmount, hrun', ?_⟩
        intro first s₂ hfirst hrounds₂ hsuffix
        cases first with
        | nil => exact c.le_session (keys :: done)
        | cons keys' first =>
            obtain ⟨rfl, hrest⟩ := List.cons_prefix_cons.mp hfirst
            rw [shRounds_cons hround] at hrounds₂
            rw [List.append_assoc, ← hlog] at hsuffix
            exact hkept first s₂ hrest hrounds₂ hsuffix
      · -- the first line has not been dealt with, so nothing is said of any other
        rw [← hdisk] at hcut₁
        obtain ⟨c', M', hfiles, hmount, hrun'⟩ := hwork.powerCut hat.run hcut₁ m p
        have hnone := shRounds_short font prog hplace hat₁ hlines hround hlog hshort
        rcases hfiles with rfl | rfl
        · refine ⟨[], M', List.nil_prefix, hmount, hrun',
            fun first s₂ hfirst hrounds₂ hsuffix => ?_⟩
          rw [hnone first s₂ hfirst hrounds₂ hsuffix]
        · refine ⟨[keys], M', List.cons_prefix_cons.mpr ⟨rfl, List.nil_prefix⟩, hmount, hrun',
            fun first s₂ hfirst hrounds₂ hsuffix => ?_⟩
          rw [hnone first s₂ hfirst hrounds₂ hsuffix]
          exact c.le_session [keys]

end

theorem demoLines_powerCut : ∃ s₁ s' done M',
    shRounds blockFont (fun _ _ _ => none) demoPlace demoShell
        ((demoLines.take 1).map (· ++ [10#8])) = some s₁ ∧
      shRounds blockFont (fun _ _ _ => none) demoPlace demoShell (demoLines.map (· ++ [10#8])) =
        some s' ∧ done <+: demoLines ∧
      kfsMount ⟨demoVolume.mem, s₁.machine.disk, demoVolume.pmm⟩ demoSuperblock =
        some (.ok (errSuccess, M')) ∧
      KfsRun demoSuperblock ⟨M', (Files.session Catalog.empty done).2⟩ ∧
      (Files.session Catalog.empty (demoLines.take 1)).2 ≤
        (Files.session Catalog.empty done).2 := by
  have hall : Files.Accepts Catalog.empty (demoLines.take 1 ++ demoLines.drop 1) := by
    rw [List.take_append_drop]
    exact demoLines_accepted
  have hfirst : Files.Accepts Catalog.empty (demoLines.take 1) := hall.of_append
  obtain ⟨s₁, hrounds₁, hat₁, -⟩ := exists_shRounds (s := demoShell) blockFont
    (fun _ _ _ => none) demoPlace_apart demoShell_at hfirst
  obtain ⟨s', hrounds', -, -⟩ := exists_shRounds (s := s₁) blockFont
    (fun _ _ _ => none) demoPlace_apart hat₁ demoLines_accepted.2.2
  obtain ⟨log, hlog, hsector⟩ := shRounds_log (s := demoShell) blockFont (fun _ _ _ => none)
    demoPlace_apart demoShell_at hfirst hrounds₁
  obtain ⟨log', hlog', -⟩ := shRounds_log blockFont (fun _ _ _ => none) demoPlace_apart
    hat₁ demoLines_accepted.2.2 hrounds'
  have hrounds : shRounds blockFont (fun _ _ _ => none) demoPlace demoShell
      (demoLines.map (· ++ [10#8])) = some s' := by
    rw [shRounds, ← List.take_append_drop 1 demoLines, List.map_append, List.foldlM_append]
    exact (congrArg (· >>= _) hrounds₁).trans hrounds'
  have hcut : CutOff demoShell.machine.disk s'.machine.disk s₁.machine.disk log :=
    ⟨⟨log', by rw [hlog', hlog, List.append_assoc]⟩, hsector,
      (kfsRun_represents hat₁.run).errorFree⟩
  obtain ⟨done, M', hdone, hmount, hrun, hkept⟩ := shRounds_powerCut (s := demoShell) blockFont
    (fun _ _ _ => none) demoPlace_apart demoShell_at demoLines_accepted hrounds hcut
    demoVolume.mem demoVolume.pmm
  refine ⟨s₁, s', done, M', hrounds₁, hrounds, hdone, hmount, hrun, ?_⟩
  exact hkept _ s₁ (List.take_prefix 1 demoLines) hrounds₁ (hlog ▸ List.suffix_rfl)

end System44
