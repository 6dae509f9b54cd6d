import System44.SchedInv

/-!
# Round robin over the process table

Runs of the scheduler are runs of a cursor that goes round the table: the cursor is the `p` of the
loop, one further while the task of slot `p` runs, and the slots in use are the first `n`.
-/

namespace System44

open Ia32 SchedImage

variable {K : SchedImage}

/-- The dispatches among the events. -/
def turns (es : List SchedEvent) : List RoundRobin.Turn :=
  es.filterMap fun e => match e with
    | .dispatch t => some t
    | _ => none

def cursor : SchedPlace → ℕ
  | .kmain => 0
  | .looking p => p
  | .task p => p + 1

theorem turns_append (es es' : List SchedEvent) : turns (es ++ es') = turns es ++ turns es' :=
  List.filterMap_append

def scanOf (K : SchedImage) (M : SchedMachine) (log : List RoundRobin.Turn) : RoundRobin.Scan :=
  ⟨cursor M.place, K.usedSlots M.cpu.mem, log⟩

theorem mem_usedSlots {M : SchedMachine} {n p : ℕ} (h : SchedInv K M n) :
    p ∈ K.usedSlots M.cpu.mem ↔ p < n := by
  have hle := h.le
  rw [usedSlots, List.mem_filter, List.mem_range, decide_eq_true_iff]
  constructor
  · rintro ⟨hp, hused⟩
    exact Nat.lt_of_not_le fun hn => hused (h.unused p hn hp)
  · intro hp
    exact ⟨hp.trans_le hle, fun hunused =>
      absurd ((state_unused_iff h (hp.trans_le hle)).mp hunused) (by omega)⟩

theorem usedSlots_subset {M M' : SchedMachine} {e : SchedEvent} {n : ℕ} (h : SchedInv K M n)
    (hstep : SchedStep K M e M') : K.usedSlots M.cpu.mem ⊆ K.usedSlots M'.cpu.mem := by
  obtain ⟨n', hle, hinv⟩ := schedStep_inv h hstep
  intro p hp
  exact (mem_usedSlots hinv).mpr (((mem_usedSlots h).mp hp).trans_le hle)

theorem schedStep_scan {M M' : SchedMachine} {e : SchedEvent} {n : ℕ} {log : List RoundRobin.Turn}
    (h : SchedInv K M n) (hstep : SchedStep K M e M')
    (hscan : RoundRobin.Inv nproc (scanOf K M log)) :
    RoundRobin.Inv nproc (scanOf K M' (log ++ turns [e])) := by
  have hsub := usedSlots_subset h hstep
  suffices hmoved : RoundRobin.Inv nproc
      ⟨cursor M'.place, K.usedSlots M.cpu.mem, log ++ turns [e]⟩ from
    RoundRobin.step_inv hmoved (.grow hsub)
  have hquiet (hlog : turns [e] = []) (hcursor : cursor M'.place = cursor M.place) :
      RoundRobin.Inv nproc ⟨cursor M'.place, K.usedSlots M.cpu.mem, log ++ turns [e]⟩ := by
    rw [hlog, hcursor, List.append_nil]
    exact hscan
  cases hstep with
  | kmainWork _ => exact hquiet rfl rfl
  | loopWork _ => exact hquiet rfl rfl
  | taskWork _ => exact hquiet rfl rfl
  | spawn _ => exact hquiet rfl rfl
  | start => exact hquiet rfl rfl
  | @skip c p hp hst =>
      have hunused : p ∉ K.usedSlots c.mem := by
        intro hmem
        rcases state_of_used h ((mem_usedSlots h).mp hmem) with heq | ⟨hplace, -⟩
        · exact hst heq
        · exact absurd hplace (looking_ne_task _ _)
      have hlog : log ++ turns [.scan] = log := List.append_nil log
      rw [hlog]
      exact RoundRobin.step_inv hscan (.skip hp hunused)
  | wrap =>
      have hlog : log ++ turns [.scan] = log := List.append_nil log
      rw [hlog]
      exact RoundRobin.step_inv hscan .wrap
  | @dispatch c p hp hst _ _ =>
      have hused : p ∈ K.usedSlots c.mem := (mem_usedSlots h).mpr (lt_of_runnable h hp hst)
      exact RoundRobin.step_inv hscan (.turn hp hused)
  | yieldIdle _ => exact hquiet rfl rfl
  | yield _ _ _ _ => exact hquiet rfl rfl

theorem schedRun_scan {c : Cpu} {es : List SchedEvent} {M : SchedMachine}
    (hrun : SchedRun K (schedStart K c) es M) : RoundRobin.Inv nproc (scanOf K M (turns es)) := by
  induction hrun with
  | nil => exact RoundRobin.inv_init _
  | step hrun hstep ih =>
      obtain ⟨n, -, hinv⟩ := schedRun_inv (schedStart_inv c) hrun
      rw [turns_append]
      exact schedStep_scan hinv hstep ih

/-- What users of the scheduler rely on, in every run after `sched_init`. -/
structure CooperativeScheduling (K : SchedImage) : Prop where
  oneRunning : ∀ M, SchedReachable K M → ∀ p < nproc, ∀ q < nproc,
    K.state M.cpu.mem p = running → K.state M.cpu.mem q = running → p = q
  current : ∀ M p, SchedReachable K M → M.place = .task p →
    p < nproc ∧ K.state M.cpu.mem p = running ∧ (K.current M.cpu.mem).toInt = p
  usedPrefix : ∀ M, SchedReachable K M →
    ∃ n ≤ nproc, ∀ p < nproc, K.state M.cpu.mem p ≠ unused ↔ p < n
  usedKept : ∀ M es M', SchedReachable K M → SchedRun K M es M' → ∀ p < nproc,
    K.state M.cpu.mem p ≠ unused → K.state M'.cpu.mem p ≠ unused
  spawnFull : ∀ M fn, SchedReachable K M →
    ((taskLSpawn K M.cpu.mem fn).1 = -1 ↔ ∀ p < nproc, K.state M.cpu.mem p ≠ unused)
  spawnRefused : ∀ M fn, SchedReachable K M → (taskLSpawn K M.cpu.mem fn).1 = -1 →
    (taskLSpawn K M.cpu.mem fn).2 = M.cpu.mem
  spawnNew : ∀ M fn, SchedReachable K M → (taskLSpawn K M.cpu.mem fn).1 ≠ -1 →
    ∃ p < nproc, (taskLSpawn K M.cpu.mem fn).1 = p ∧ K.state M.cpu.mem p = unused ∧
      K.state (taskLSpawn K M.cpu.mem fn).2 p = runnable ∧
      ∀ x < 2 ^ 32, x < K.proc p ∨ K.proc p + sizeofProc ≤ x →
        (taskLSpawn K M.cpu.mem fn).2.get x = M.cpu.mem.get x
  roundRobin : ∀ c es M, SchedRun K (schedStart K c) es M → RoundRobin.Fair nproc (turns es)

theorem running_unique {M : SchedMachine} {n p : ℕ} (h : SchedInv K M n) (hp : p < nproc)
    (hst : K.state M.cpu.mem p = running) : M.place = .task p := by
  have hlt : p < n := by
    by_contra hge
    exact absurd (hst.symm.trans (h.unused p (Nat.le_of_not_lt hge) hp)) (by decide)
  rcases state_of_used h hlt with heq | ⟨hplace, -⟩
  · exact absurd (hst.symm.trans heq) (by decide)
  · exact hplace

theorem cooperativeScheduling (K : SchedImage) : CooperativeScheduling K where
  oneRunning M hM p hp q hq hstp hstq := by
    obtain ⟨n, hinv⟩ := schedReachable_inv hM
    have hplace := running_unique hinv hp hstp
    rw [running_unique hinv hq hstq] at hplace
    exact (SchedPlace.task.inj hplace).symm
  current M p hM hplace := by
    obtain ⟨n, hinv⟩ := schedReachable_inv hM
    have hp := hinv.place
    rw [hplace] at hp
    have hlt := hp.1.trans_le hinv.le
    exact ⟨hlt, hp.2.1, by rw [hp.2.2.1, toInt_slot hlt]⟩
  usedPrefix M hM := by
    obtain ⟨n, hinv⟩ := schedReachable_inv hM
    refine ⟨n, hinv.le, fun p hp => ?_⟩
    rw [Ne, state_unused_iff hinv hp, not_le]
  usedKept M es M' hM hrun p hp hused := by
    obtain ⟨n, hinv⟩ := schedReachable_inv hM
    obtain ⟨n', hle, hinv'⟩ := schedRun_inv hinv hrun
    rw [Ne, state_unused_iff hinv hp] at hused
    rw [Ne, state_unused_iff hinv' hp]
    omega
  spawnFull M fn hM := by
    obtain ⟨n, hinv⟩ := schedReachable_inv hM
    rcases hinv.le.lt_or_eq with hlt | rfl
    · rw [taskLSpawn_of_lt hinv hlt]
      refine iff_of_false (by simp) fun hall => hall n hlt (hinv.unused n (le_refl n) hlt)
    · rw [taskLSpawn_of_full hinv]
      refine iff_of_true rfl fun p hp => ?_
      rw [Ne, state_unused_iff hinv hp, not_le]
      exact hp
  spawnRefused M fn hM hfail := by
    obtain ⟨n, hinv⟩ := schedReachable_inv hM
    rcases hinv.le.lt_or_eq with hlt | rfl
    · rw [taskLSpawn_of_lt hinv hlt] at hfail
      exact absurd hfail (by simp)
    · rw [taskLSpawn_of_full hinv]
  spawnNew M fn hM hok := by
    obtain ⟨n, hinv⟩ := schedReachable_inv hM
    rcases hinv.le.lt_or_eq with hlt | rfl
    · rw [taskLSpawn_of_lt hinv hlt]
      refine ⟨n, hlt, rfl, hinv.unused n (le_refl n) hlt, (spawnSlot_spawned fn hlt).state, ?_⟩
      intro x hx hout
      have hsame : Mem.SameOn x (x + 1) M.cpu.mem (spawnSlot K M.cpu.mem n fn) :=
        sameOn_spawnSlot fn hlt hx (by omega)
      exact hsame x (le_refl x) (Nat.lt_succ_self x)
    · rw [taskLSpawn_of_full hinv] at hok
      exact absurd rfl hok
  roundRobin c es M hrun := (schedRun_scan hrun).fair

/-- The stacks have room for the calls of `yield` and `swtch`. -/
structure Roomy (K : SchedImage) : Prop where
  boot : K.bootLo + callSwtchRoom ≤ K.bootHi
  task : yieldRoom K ≤ 4096

theorem SchedRun.append {M M' M'' : SchedMachine} {es es' : List SchedEvent}
    (hrun : SchedRun K M es M') (hrun' : SchedRun K M' es' M'') : SchedRun K M (es ++ es') M'' := by
  induction hrun' with
  | nil => rwa [List.append_nil]
  | step _ hstep ih =>
      rw [← List.append_assoc]
      exact .step ih hstep

theorem exists_sp (c : Cpu) {a : ℕ} (ha : a < 2 ^ 32) : ∃ c' : Cpu, c'.mem = c.mem ∧ c'.sp = a := by
  refine ⟨c.set .esp (BitVec.ofNat 32 a), rfl, ?_⟩
  rw [Cpu.sp, Cpu.set_self, toNat_ofNat_small ha]

theorem exists_dispatch (hroom : Roomy K) {c : Cpu} {n p : ℕ} (h : SchedInv K ⟨c, .looking p⟩ n)
    (hp : p < n) : ∃ c' c'' used, SchedStep K ⟨c, .looking p⟩ .work ⟨c', .looking p⟩ ∧
      SchedStep K ⟨c', .looking p⟩ (.dispatch ⟨p, used⟩) ⟨c'', .task p⟩ := by
  obtain ⟨c', hmem, hsp⟩ := exists_sp c (a := K.bootHi) K.boot_end
  have hstate : K.state c'.mem p = runnable := by
    rw [hmem]
    exact (h.ready p hp (looking_ne_task _ _)).state
  have hwork : SchedStep K ⟨c, .looking p⟩ .work ⟨c', .looking p⟩ := by
    refine .loopWork ?_
    rw [hmem]
    exact Mem.SameOn.refl _ _ _
  refine ⟨c', _, _, hwork, .dispatch (hp.trans_le h.le) hstate ?_ hsp.le⟩
  rw [hsp]
  exact hroom.boot

theorem exists_yield (hroom : Roomy K) {c : Cpu} {n p : ℕ} (h : SchedInv K ⟨c, .task p⟩ n) :
    ∃ c' c'', SchedStep K ⟨c, .task p⟩ .work ⟨c', .task p⟩ ∧
      SchedStep K ⟨c', .task p⟩ (.yield p 0#32) ⟨c'', .looking (p + 1)⟩ := by
  have hle := proc_le (K := K) (h.place.1.trans_le h.le)
  have hend := K.ptable_end
  have htask := hroom.task
  rw [sizeofProc, currentAddr] at hle
  rw [sizeofPtable] at hend
  obtain ⟨c', hmem, hsp⟩ := exists_sp c (a := K.stackLo p + yieldRoom K)
    (by rw [stackLo]; omega)
  have hwork : SchedStep K ⟨c, .task p⟩ .work ⟨c', .task p⟩ := by
    refine .taskWork ?_
    rw [hmem]
    exact ⟨Mem.SameOn.refl _ _ _, Mem.SameOn.refl _ _ _, Mem.SameOn.refl _ _ _⟩
  have hcurrent : 0 ≤ (K.current c'.mem).toInt := by
    rw [hmem]
    exact current_nonneg h
  refine ⟨c', _, hwork, .yield (fun _ => 0#32) hcurrent hsp.ge ?_⟩
  rw [hsp, stackLo, stackHi, sizeofProc]
  omega

theorem exists_pass (hroom : Roomy K) {c : Cpu} {n p : ℕ} (h : SchedInv K ⟨c, .looking p⟩ n)
    (hp : p < nproc) : ∃ es c', SchedRun K ⟨c, .looking p⟩ es ⟨c', .looking (p + 1)⟩ ∧
      ∀ t ∈ turns es, t.slot = p := by
  rcases Nat.lt_or_ge p n with hlt | hge
  · obtain ⟨c₁, c₂, used, hwork, hdispatch⟩ := exists_dispatch hroom h hlt
    have hrun := (SchedRun.nil.step hwork).step hdispatch
    obtain ⟨n', -, hinv⟩ := schedRun_inv h hrun
    obtain ⟨c₃, c₄, hwork', hyield⟩ := exists_yield hroom hinv
    refine ⟨_, c₄, (hrun.step hwork').step hyield, fun t ht => ?_⟩
    obtain rfl : t = ⟨p, used⟩ := List.mem_singleton.mp ht
    rfl
  · have hstate : K.state c.mem p ≠ runnable := by
      rw [h.unused p hge hp]
      decide
    refine ⟨_, c, SchedRun.nil.step (.skip hp hstate), fun t ht => ?_⟩
    exact absurd ht List.not_mem_nil

theorem exists_scan (hroom : Roomy K) {c : Cpu} {n p q : ℕ} (h : SchedInv K ⟨c, .looking p⟩ n)
    (hle : p ≤ q) (hq : q ≤ nproc) : ∃ es c', SchedRun K ⟨c, .looking p⟩ es ⟨c', .looking q⟩ ∧
      ∀ t ∈ turns es, p ≤ t.slot ∧ t.slot < q := by
  induction q, hle using Nat.le_induction with
  | base => exact ⟨[], c, .nil, fun t ht => absurd ht List.not_mem_nil⟩
  | succ q hle ih =>
      obtain ⟨es, c', hrun, hslots⟩ := ih (by omega)
      obtain ⟨n', -, hinv⟩ := schedRun_inv h hrun
      obtain ⟨es', c'', hrun', hslots'⟩ := exists_pass hroom hinv hq
      refine ⟨es ++ es', c'', hrun.append hrun', fun t ht => ?_⟩
      rw [turns_append, List.mem_append] at ht
      rcases ht with hfirst | hlast
      · have hslot := hslots t hfirst
        omega
      · have hslot := hslots' t hlast
        omega

theorem exists_reach (hroom : Roomy K) {c : Cpu} {n p q : ℕ} (h : SchedInv K ⟨c, .looking q⟩ n)
    (hp : p < nproc) : ∃ es c', SchedRun K ⟨c, .looking q⟩ es ⟨c', .looking p⟩ ∧
      ∀ t ∈ turns es, t.slot ≠ p := by
  rcases Nat.lt_or_ge p q with hlt | hle
  · obtain ⟨hq, -⟩ := h.place
    obtain ⟨es, c₁, hrun, hslots⟩ := exists_scan hroom h hq (le_refl nproc)
    obtain ⟨n₁, -, hinv⟩ := schedRun_inv h hrun
    obtain ⟨es', c₂, hrun', hslots'⟩ :=
      exists_scan hroom (hinv.move (Nat.zero_le _)) (Nat.zero_le p) hp.le
    refine ⟨es ++ [.scan] ++ es', c₂, (hrun.step .wrap).append hrun', fun t ht => ?_⟩
    rw [turns_append, turns_append, List.mem_append, List.mem_append] at ht
    rcases ht with (hfirst | hwrap) | hlast
    · have hslot := hslots t hfirst
      omega
    · exact absurd hwrap List.not_mem_nil
    · exact (hslots' t hlast).2.ne
  · obtain ⟨es, c', hrun, hslots⟩ := exists_scan hroom h hle hp.le
    exact ⟨es, c', hrun, fun t ht => (hslots t ht).2.ne⟩

/-- Every slot in use can have a turn, from wherever the loop is. -/
theorem exists_turn (hroom : Roomy K) {M : SchedMachine} {p q : ℕ} (hM : SchedReachable K M)
    (hplace : M.place = .looking q) (hp : p < nproc) (hused : K.state M.cpu.mem p ≠ unused) :
    ∃ es M' used M'', SchedRun K M es M' ∧ (∀ t ∈ turns es, t.slot ≠ p) ∧
      SchedStep K M' (.dispatch ⟨p, used⟩) M'' := by
  obtain ⟨n, hinv⟩ := schedReachable_inv hM
  obtain ⟨c, place⟩ := M
  obtain rfl : place = .looking q := hplace
  obtain ⟨es, c₁, hrun, hslots⟩ := exists_reach hroom hinv hp
  obtain ⟨n₁, hle, hinv₁⟩ := schedRun_inv hinv hrun
  have hlt : p < n := by
    rw [Ne, state_unused_iff hinv hp] at hused
    omega
  obtain ⟨c₂, c₃, used, hwork, hdispatch⟩ := exists_dispatch hroom hinv₁ (hlt.trans_le hle)
  refine ⟨es ++ [.work], _, used, _, hrun.step hwork, fun t ht => ?_, hdispatch⟩
  rw [turns_append, List.mem_append] at ht
  exact hslots t (ht.resolve_right List.not_mem_nil)

theorem place_of_dispatch {M M' : SchedMachine} {t : RoundRobin.Turn}
    (h : SchedStep K M (.dispatch t) M') : M'.place = .task t.slot := by
  cases h
  rfl

theorem exists_spawn {c : Cpu} {n : ℕ} (h : SchedInv K ⟨c, .kmain⟩ n) (hn : n < nproc)
    (fn : BitVec 32) : ∃ c', SchedStep K ⟨c, .kmain⟩ (.spawn fn n) ⟨c', .kmain⟩ ∧
      SchedInv K ⟨c', .kmain⟩ (n + 1) := by
  have hspawn : SchedStep K ⟨c, .kmain⟩ (.spawn fn (taskLSpawn K c.mem fn).1) _ :=
    .spawn fun p hp => by cases hp
  have heq : taskLSpawn K c.mem fn = ((n : ℤ), spawnSlot K c.mem n fn) := taskLSpawn_of_lt h hn fn
  rw [heq] at hspawn
  exact ⟨_, hspawn, h.spawn hn fn rfl⟩

def demoImage : SchedImage where
  ptable := 0x20000
  schedulerContext := 0x8FF00#32
  bootLo := 0x80000
  bootHi := 0x90000
  schedulerRet := 0x10400#32
  yieldRet := 0x10800#32
  yieldSaves := [.ebx]
  yieldPad := 2
  ptable_end := by decide
  boot_end := by decide
  boot_outside := Or.inr (by decide)
  esp_not_saved := by decide

theorem demoImage_roomy : Roomy demoImage := ⟨by decide, by decide⟩

def demoCpu : Cpu := ⟨fun _ => 0#32, 0#32, ⟨fun _ => 0#8, []⟩⟩

theorem demoImage_begun : ∃ c₁ c₂,
    SchedStep demoImage (schedStart demoImage demoCpu) (.spawn 0x18000#32 (0 : ℕ)) ⟨c₁, .kmain⟩ ∧
      SchedRun demoImage ⟨c₁, .kmain⟩ [.spawn 0x19000#32 (1 : ℕ), .start] ⟨c₂, .looking 0⟩ ∧
      ∀ p < 2, demoImage.state c₂.mem p ≠ unused := by
  have h₀ : SchedInv demoImage (schedStart demoImage demoCpu) 0 := schedStart_inv demoCpu
  obtain ⟨c₁, hfirst, h₁⟩ := exists_spawn h₀ (by decide) 0x18000#32
  obtain ⟨c₂, hsecond, h₂⟩ := exists_spawn h₁ (by decide) 0x19000#32
  refine ⟨c₁, _, hfirst, (SchedRun.nil.step hsecond).step .start, fun p hp => ?_⟩
  have hused := (state_unused_iff h₂.start (hp.trans (by decide))).not
  exact hused.mpr (by omega)

/-- The second task has its turn, and runs alone. -/
theorem demoImage_turn : ∃ es M, SchedRun demoImage (schedStart demoImage demoCpu) es M ∧
    M.place = .task 1 ∧ demoImage.state M.cpu.mem 1 = running ∧
      demoImage.state M.cpu.mem 0 ≠ running ∧ RoundRobin.Fair nproc (turns es) := by
  obtain ⟨c₁, c₂, hspawn, hbegun, hused⟩ := demoImage_begun
  have hrun := (SchedRun.nil.step hspawn).append hbegun
  obtain ⟨es, M, used, M', hscan, -, hturn⟩ := exists_turn demoImage_roomy ⟨demoCpu, _, hrun⟩ rfl
    (by decide) (hused 1 (by decide))
  have hall := (hrun.append hscan).step hturn
  have hplace := place_of_dispatch hturn
  have hspec := cooperativeScheduling demoImage
  obtain ⟨-, hstate, -⟩ := hspec.current M' 1 ⟨demoCpu, _, hall⟩ hplace
  refine ⟨_, M', hall, hplace, hstate, fun hfirst => ?_, hspec.roundRobin demoCpu _ M' hall⟩
  exact absurd (hspec.oneRunning M' ⟨demoCpu, _, hall⟩ 0 (by decide) 1 (by decide) hfirst hstate)
    (by decide)

end System44
