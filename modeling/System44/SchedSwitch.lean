import System44.SchedFair

/-!
# Isolation of the tasks by the context switch

What a switch has saved stays as it is until the switch back. For a slot these are the bytes of its
entry in the table, which no step changes while another task or the loop runs; for the loop they
are its stack and `ptable.sched_context`.
-/

namespace System44

open Ia32 SchedImage

variable {K : SchedImage} {m m' : Mem} {p : ℕ} {ra : BitVec 32}

theorem HasContext.reg_eq {a : ℕ} {reg reg' : Reg → BitVec 32} {eip eip' : BitVec 32}
    (h : HasContext m a reg eip) (h' : HasContext m a reg' eip') :
    ∀ r ∈ calleeSaved, reg r = reg' r := by
  intro r hr
  simp only [calleeSaved, List.mem_cons, List.not_mem_nil, or_false] at hr
  rcases hr with rfl | rfl | rfl | rfl
  · exact h.ebp.symm.trans h'.ebp
  · exact h.ebx.symm.trans h'.ebx
  · exact h.esi.symm.trans h'.esi
  · exact h.edi.symm.trans h'.edi

/-- Slot `p` waits in a call of `yield` that was made with the registers of `t` and returns to
`ra`. -/
structure Parked (K : SchedImage) (m : Mem) (p : ℕ) (ra : BitVec 32) (t : Cpu) : Prop where
  lo : K.stackLo p + yieldRoom K ≤ t.sp
  hi : t.sp ≤ K.stackHi p
  context : (K.context m p).toNat = t.sp - yieldRoom K
  saved : ∃ reg, HasContext m (t.sp - yieldRoom K) reg K.yieldRet ∧
    ∀ r ∈ calleeSaved, r ∉ K.yieldSaves → reg r = t.reg r
  pushed : Mem.SameOn (t.sp - 4 - 4 * K.yieldSaves.length) t.sp
    (pushAll K.yieldSaves (t.push ra)).mem m

theorem Parked.congr {t : Cpu} (h : Parked K m p ra t)
    (hsame : Mem.SameOn (K.proc p + 4) (K.stackHi p) m m') : Parked K m' p ra t := by
  have hlo := h.lo
  have hhi := h.hi
  have hcontext := h.context
  obtain ⟨reg, hsaved, hregs⟩ := h.saved
  simp only [stackLo, stackHi, sizeofProc, yieldRoom, callSwtchRoom] at hlo hhi hsame
  refine ⟨h.lo, h.hi, ?_, ⟨reg, hsaved.sameOn hsame ?_ ?_, hregs⟩,
    h.pushed.trans (hsame.mono ?_ ?_)⟩
  · rw [context_congr (hsame.mono (le_refl _) (by omega)), hcontext]
  · rw [yieldRoom, callSwtchRoom]
    omega
  · rw [yieldRoom, callSwtchRoom, sizeofContext]
    omega
  · omega
  · omega

theorem ne_esp_of_calleeSaved {r : Reg} (h : r ∈ calleeSaved) : r ≠ .esp := by
  rintro rfl
  exact absurd h (by decide)

/-- The end of `yield`, on the words that its beginning has pushed. -/
structure Returned (K : SchedImage) (ra : BitVec 32) (t d e : Cpu) : Prop where
  eip : e.eip = ra
  sp : e.sp = t.sp
  saved : ∀ r ∈ K.yieldSaves, r ≠ .esp → e.reg r = t.reg r
  others : ∀ r ∉ K.yieldSaves, r ≠ .esp → e.reg r = d.reg r

theorem yieldReturn_returned {t d : Cpu} (hroom : yieldRoom K ≤ t.sp)
    (hsp : d.sp = t.sp - yieldRoom K + sizeofContext)
    (hpushed : Mem.SameOn (t.sp - 4 - 4 * K.yieldSaves.length) t.sp
      (pushAll K.yieldSaves (t.push ra)).mem d.mem) : Returned K ra t d (yieldReturn K d) := by
  have hlt := t.sp_lt
  simp only [yieldRoom, callSwtchRoom, sizeofContext] at hroom hsp
  have hpush : (t.push ra).sp = t.sp - 4 := Cpu.sp_push ra (by omega)
  have hpad : (BitVec.ofNat 32 (8 + 4 * K.yieldPad)).toNat = 8 + 4 * K.yieldPad :=
    toNat_ofNat_small (by omega)
  generalize he : d.set .esp (d.reg .esp + BitVec.ofNat 32 (8 + 4 * K.yieldPad)) = e
  have hesp : e.sp = t.sp - 4 - 4 * K.yieldSaves.length := by
    rw [← he, Cpu.sp_set_add, hpad, hsp] <;> omega
  have hemem : e.mem = d.mem := by rw [← he, Cpu.set_mem]
  rw [← hemem] at hpushed
  have hpop : Restored K.yieldSaves (t.push ra) e (popAll K.yieldSaves e) :=
    popAll_restored K.esp_not_saved (by omega) (by rw [hpush, hesp])
      (by rw [hpush]; exact hpushed.mono (le_refl _) (by omega))
  have htop : (popAll K.yieldSaves e).top = ra := by
    have hbelow : Mem.SameOn (t.sp - 4) t.sp (t.push ra).mem
        (pushAll K.yieldSaves (t.push ra)).mem := by
      rw [pushAll_eq K.esp_not_saved]
      refine Cpu.sameOn_pushWords ?_ hlt.le (Or.inr hpush.le)
      rw [List.length_map]
      omega
    have hsame := hbelow.trans (hpushed.mono (by omega) (le_refl _))
    rw [Cpu.top, hpop.sp, hpush, hpop.mem, hsame.load32 (le_refl _) (by omega),
      Cpu.load32_push ra (by omega)]
  have hret : yieldReturn K d = { (popAll K.yieldSaves e).drop with eip := ra } := by
    rw [yieldReturn, he, exec, htop]
  rw [hret]
  constructor
  · rfl
  · change (popAll K.yieldSaves e).drop.sp = t.sp
    have hend := hpop.sp.trans hpush
    rw [Cpu.sp_drop (by omega), hend]
    omega
  · intro r hr hne
    change (popAll K.yieldSaves e).drop.reg r = t.reg r
    rw [Cpu.drop_reg _ hne, hpop.saved r hr, Cpu.push_reg _ _ hne]
  · intro r hr hne
    change (popAll K.yieldSaves e).drop.reg r = d.reg r
    rw [Cpu.drop_reg _ hne, hpop.others r hr hne, ← he, Cpu.set_of_ne _ _ hne]

theorem Parked.resume {c d t : Cpu} (h : Parked K c.mem p ra t) (hd : Dispatched K p c d)
    (hstack : Mem.SameOn (K.stackLo p) (K.stackHi p) c.mem d.mem) :
    d.eip = K.yieldRet ∧ (yieldReturn K d).eip = ra ∧
      ∀ r ∈ Reg.esp :: calleeSaved, (yieldReturn K d).reg r = t.reg r := by
  have hlo := h.lo
  obtain ⟨reg, hsaved, hregs⟩ := h.saved
  have hloaded := hd.loaded
  rw [h.context] at hloaded
  have hsp := hd.sp
  rw [h.context] at hsp
  have hroom : 4 + 4 * K.yieldSaves.length ≤ yieldRoom K := by
    rw [yieldRoom]
    omega
  have hret : Returned K ra t d (yieldReturn K d) :=
    yieldReturn_returned (by omega) hsp (h.pushed.trans (hstack.mono (by omega) h.hi))
  refine ⟨hloaded.eip.symm.trans hsaved.eip, hret.eip, fun r hr => ?_⟩
  rcases List.mem_cons.mp hr with rfl | hcallee
  · exact BitVec.eq_of_toNat_eq hret.sp
  · have hne := ne_esp_of_calleeSaved hcallee
    by_cases hsave : r ∈ K.yieldSaves
    · exact hret.saved r hsave hne
    · rw [hret.others r hsave hne, ← hregs r hcallee hsave]
      exact hloaded.reg_eq hsaved r hcallee

/-- Slot `p` has been spawned with `fn` and not run. -/
structure Fresh (K : SchedImage) (m : Mem) (p : ℕ) (fn : BitVec 32) : Prop where
  context : (K.context m p).toNat = spawnContext K p
  saved : HasContext m (spawnContext K p) (fun _ => 0#32) fn

theorem spawnContext_bounds (K : SchedImage) (p : ℕ) :
    K.stackLo p ≤ spawnContext K p ∧ spawnContext K p + sizeofContext < K.stackHi p := by
  simp only [spawnContext, stackLo, stackHi, sizeofContext, sizeofProc]
  omega

theorem Fresh.congr {fn : BitVec 32} (h : Fresh K m p fn)
    (hsame : Mem.SameOn (K.proc p + 4) (K.stackHi p) m m') : Fresh K m' p fn := by
  obtain ⟨hlo, hhi⟩ := spawnContext_bounds K p
  refine ⟨?_, h.saved.sameOn hsame ?_ hhi.le⟩
  · rw [context_congr (hsame.mono (le_refl _) ?_), h.context]
    rw [stackHi, sizeofProc]
    omega
  · rw [stackLo] at hlo
    omega

/-- The loop waits for slot `p` with the registers of `t`. -/
structure LoopWaits (K : SchedImage) (m : Mem) (t : Cpu) : Prop where
  lo : K.bootLo + callSwtchRoom ≤ t.sp
  hi : t.sp ≤ K.bootHi
  context : (K.schedContext m).toNat = t.sp - callSwtchRoom
  saved : HasContext m (t.sp - callSwtchRoom) t.reg K.schedulerRet

theorem LoopWaits.congr {t : Cpu} (h : LoopWaits K m t)
    (hboot : Mem.SameOn K.bootLo K.bootHi m m')
    (hlink : Mem.SameOn K.schedContextAddr (K.schedContextAddr + 4) m m') : LoopWaits K m' t := by
  have hlo := h.lo
  have hhi := h.hi
  rw [callSwtchRoom] at hlo
  refine ⟨h.lo, h.hi, ?_, h.saved.sameOn hboot ?_ ?_⟩
  · rw [schedContext_congr hlink, h.context]
  · rw [callSwtchRoom]
    omega
  · rw [callSwtchRoom, sizeofContext]
    omega

/-- The entry of a slot in use is left alone while its task does not run. -/
theorem schedStep_slot {M M' : SchedMachine} {e : SchedEvent} {n : ℕ} (h : SchedInv K M n)
    (hstep : SchedStep K M e M') (hp : p < n) (hplace : M.place ≠ .task p)
    (hturn : ∀ t ∈ turns [e], t.slot ≠ p) :
    M'.place ≠ .task p ∧ Mem.SameOn (K.proc p + 4) (K.stackHi p) M.cpu.mem M'.cpu.mem := by
  have hend := K.ptable_end
  have hboot := K.boot_outside
  have hpn : p < nproc := hp.trans_le h.le
  have hle := proc_le (K := K) hpn
  have hbase : K.ptable ≤ K.proc p := Nat.le_add_right _ _
  simp only [sizeofPtable, currentAddr, sizeofProc] at hend hboot hle
  have htable {m m' : Mem} (hsame : Mem.SameOn K.ptable (K.ptable + sizeofPtable) m m') :
      Mem.SameOn (K.proc p + 4) (K.stackHi p) m m' := by
    refine hsame.mono (by omega) ?_
    rw [stackHi, sizeofProc, sizeofPtable]
    omega
  cases hstep with
  | kmainWork hsame => exact ⟨hplace, htable hsame⟩
  | loopWork hsame => exact ⟨hplace, htable hsame⟩
  | @taskWork c c' q hwork =>
      refine ⟨hplace, ?_⟩
      have hne : p ≠ q := fun heq => hplace (heq ▸ rfl)
      rcases proc_apart (K := K) hne with hlow | hhigh
      · refine hwork.below.mono (by omega) ?_
        simp only [stackHi, stackLo, sizeofProc] at *
        omega
      · refine hwork.above.mono ?_ ?_ <;>
          simp only [stackHi, sizeofProc, sizeofPtable] at * <;> omega
  | @spawn c place fn _ =>
      refine ⟨hplace, ?_⟩
      rcases h.le.lt_or_eq with hlt | rfl
      · rw [taskLSpawn_of_lt h hlt]
        have hapart := proc_apart (K := K) (Nat.ne_of_lt hp)
        have hlow : K.proc p + sizeofProc ≤ K.proc n := by
          simp only [proc, sizeofProc]
          omega
        refine sameOn_spawnSlot fn hlt ?_ (Or.inl hlow)
        rw [stackHi, sizeofProc]
        omega
      · rw [taskLSpawn_of_full h]
        exact Mem.SameOn.refl _ _ _
  | start =>
      refine ⟨looking_ne_task _ _, Mem.sameOn_store32 _ _ ?_ ?_ (Or.inl ?_)⟩ <;>
        simp only [stackHi, sizeofProc, schedContextAddr] <;> omega
  | skip => exact ⟨looking_ne_task _ _, Mem.SameOn.refl _ _ _⟩
  | wrap => exact ⟨looking_ne_task _ _, Mem.SameOn.refl _ _ _⟩
  | @dispatch c q hq hst hlo hhi =>
      have hne : q ≠ p := hturn ⟨q, K.usedSlots c.mem⟩ (by simp [turns])
      refine ⟨fun heq => hne (SchedPlace.task.inj heq), ?_⟩
      have hd := h.dispatched hq hst hlo hhi
      have hapart := proc_apart (K := K) hne
      rw [mem_taskResume]
      refine hd.frame _ _ ?_ ?_ ?_ ?_ <;>
        simp only [stackHi, sizeofProc, callSwtchRoom, currentAddr] at * <;> omega
  | yieldIdle hneg => exact absurd hneg (not_lt.mpr (current_nonneg h))
  | @yield c q ra scratch _ hlo hhi =>
      refine ⟨looking_ne_task _ _, ?_⟩
      have hq : q < nproc := h.place.1.trans_le h.le
      have hne : p ≠ q := fun heq => hplace (heq ▸ rfl)
      have hy := h.yielded scratch ra hlo hhi
      have hapart := proc_apart (K := K) hne
      refine (hy.frame _ _ ?_ ?_ ?_).trans (sameOn_schedulerReturn hq ?_ ?_ ?_) <;>
        simp only [stackHi, stackLo, sizeofProc, currentAddr] at * <;> omega

theorem schedRun_slot {M M' : SchedMachine} {es : List SchedEvent} {n : ℕ} (h : SchedInv K M n)
    (hrun : SchedRun K M es M') (hp : p < n) (hplace : M.place ≠ .task p)
    (hturns : ∀ t ∈ turns es, t.slot ≠ p) :
    M'.place ≠ .task p ∧ Mem.SameOn (K.proc p + 4) (K.stackHi p) M.cpu.mem M'.cpu.mem := by
  induction hrun with
  | nil => exact ⟨hplace, Mem.SameOn.refl _ _ _⟩
  | step hrun hstep ih =>
      rw [turns_append, List.forall_mem_append] at hturns
      obtain ⟨hplace', hsame⟩ := ih hturns.1
      obtain ⟨n', hle, hinv⟩ := schedRun_inv h hrun
      obtain ⟨hplace'', hsame'⟩ :=
        schedStep_slot hinv hstep (hp.trans_le hle) hplace' hturns.2
      exact ⟨hplace'', hsame.trans hsame'⟩

/-- The stack of the loop, and where its context is, are left alone while a task runs. -/
theorem schedStep_loop {M M' : SchedMachine} {e : SchedEvent} {n : ℕ} (h : SchedInv K M n)
    (hstep : SchedStep K M e M') (hplace : M.place = .task p) (he : ∀ q ra, e ≠ .yield q ra) :
    M'.place = .task p ∧ Mem.SameOn K.bootLo K.bootHi M.cpu.mem M'.cpu.mem ∧
      Mem.SameOn K.schedContextAddr (K.schedContextAddr + 4) M.cpu.mem M'.cpu.mem := by
  have hend := K.ptable_end
  have hbootEnd := K.boot_end
  have hboot := K.boot_outside
  cases hstep with
  | kmainWork _ => cases hplace
  | loopWork _ => cases hplace
  | @taskWork c c' q hwork =>
      have hle := proc_le (K := K) (h.place.1.trans_le h.le)
      refine ⟨hplace, hwork.boot, hwork.above.mono ?_ ?_⟩ <;>
        simp only [stackHi, currentAddr, schedContextAddr, sizeofPtable] at * <;> omega
  | @spawn c place fn _ =>
      refine ⟨hplace, ?_⟩
      rcases h.le.lt_or_eq with hlt | rfl
      · have hle := proc_le (K := K) hlt
        have hbase : K.ptable ≤ K.proc n := Nat.le_add_right _ _
        rw [taskLSpawn_of_lt h hlt]
        constructor <;> refine sameOn_spawnSlot fn hlt ?_ ?_ <;>
          simp only [currentAddr, schedContextAddr, sizeofPtable] at * <;> omega
      · rw [taskLSpawn_of_full h]
        exact ⟨Mem.SameOn.refl _ _ _, Mem.SameOn.refl _ _ _⟩
  | start => cases hplace
  | skip => cases hplace
  | wrap => cases hplace
  | dispatch => cases hplace
  | yieldIdle _ => exact absurd rfl (he _ _)
  | yield _ _ _ _ => exact absurd rfl (he _ _)

theorem schedRun_loop {M M' : SchedMachine} {es : List SchedEvent} {n : ℕ} (h : SchedInv K M n)
    (hrun : SchedRun K M es M') (hplace : M.place = .task p)
    (hes : ∀ q ra, SchedEvent.yield q ra ∉ es) :
    M'.place = .task p ∧ Mem.SameOn K.bootLo K.bootHi M.cpu.mem M'.cpu.mem ∧
      Mem.SameOn K.schedContextAddr (K.schedContextAddr + 4) M.cpu.mem M'.cpu.mem := by
  induction hrun with
  | nil => exact ⟨hplace, Mem.SameOn.refl _ _ _, Mem.SameOn.refl _ _ _⟩
  | step hrun hstep ih =>
      obtain ⟨hplace', hboot, hlink⟩ := ih fun q ra hmem => hes q ra (List.mem_append_left _ hmem)
      obtain ⟨n', -, hinv⟩ := schedRun_inv h hrun
      obtain ⟨hplace'', hboot', hlink'⟩ := schedStep_loop hinv hstep hplace'
        fun q ra heq => hes q ra (heq ▸ List.mem_append_right _ List.mem_cons_self)
      exact ⟨hplace'', hboot.trans hboot', hlink.trans hlink'⟩

theorem schedStep_parks {c c' : Cpu} {n : ℕ} (h : SchedInv K ⟨c, .task p⟩ n)
    (scratch : Reg → BitVec 32) (ra : BitVec 32) (hlo : K.stackLo p + yieldRoom K ≤ c.sp)
    (hhi : c.sp ≤ K.stackHi p)
    (hmem : c'.mem = (schedulerReturn K p (yieldSwtch K scratch ra c)).mem) :
    Parked K c'.mem p ra c ∧ Mem.SameOn c.sp (K.stackHi p) c.mem c'.mem := by
  have hp : p < nproc := h.place.1.trans_le h.le
  have hy := h.yielded scratch ra hlo hhi
  have hend := K.ptable_end
  have hle := proc_le (K := K) hp
  have hback {lo hi : ℕ} (hl : K.proc p + 4 ≤ lo) (hh : hi ≤ K.stackHi p) :
      Mem.SameOn lo hi (yieldSwtch K scratch ra c).mem c'.mem := by
    rw [hmem]
    refine sameOn_schedulerReturn hp ?_ ?_ ?_ <;>
      simp only [stackHi, sizeofProc, sizeofPtable, currentAddr] at * <;> omega
  obtain ⟨reg, hsaved, hregs⟩ := hy.saved
  have hroom : sizeofContext ≤ yieldRoom K := by
    rw [yieldRoom, sizeofContext, callSwtchRoom]
    omega
  have hpushed : 4 + 4 * K.yieldSaves.length ≤ yieldRoom K := by
    rw [yieldRoom]
    omega
  rw [stackLo] at hlo
  refine ⟨⟨hlo, hhi, ?_, ⟨reg, hsaved.sameOn (hback ?_ hhi) (le_refl _) ?_, hregs⟩,
    hy.pushed.trans (hback ?_ hhi)⟩, (hy.frame _ _ ?_ (Or.inr (le_refl _)) ?_).trans
    (hback ?_ (le_refl _))⟩
  · rw [context_congr (hback (le_refl _) (by rw [stackHi, sizeofProc]; omega)), hy.link]
  · omega
  · omega
  · omega
  · simp only [stackHi, sizeofProc, sizeofPtable, currentAddr] at *
    omega
  · omega
  · omega

/-- The loop does not touch the stack of the slot. -/
theorem Dispatched.stack {c d : Cpu} (h : Dispatched K p c d) (hp : p < nproc)
    (hlo : K.bootLo + callSwtchRoom ≤ c.sp) (hhi : c.sp ≤ K.bootHi) :
    Mem.SameOn (K.stackLo p) (K.stackHi p) c.mem d.mem := by
  have hend := K.ptable_end
  have hboot := K.boot_outside
  have hle := proc_le (K := K) hp
  have hbase : K.ptable ≤ K.proc p := Nat.le_add_right _ _
  refine h.frame _ _ ?_ ?_ ?_ ?_ <;>
    simp only [stackLo, stackHi, sizeofProc, sizeofPtable, callSwtchRoom, currentAddr] at * <;>
    omega

theorem Dispatched.loopWaits {c d : Cpu} (h : Dispatched K p c d)
    (hlo : K.bootLo + callSwtchRoom ≤ c.sp) (hhi : c.sp ≤ K.bootHi) : LoopWaits K d.mem c :=
  ⟨hlo, hhi, h.link, h.saved⟩

theorem LoopWaits.resume {c d t : Cpu} (h : LoopWaits K c.mem t) (hy : Yielded K p ra c d) :
    (schedulerReturn K p d).eip = K.schedulerRet ∧
      ∀ r ∈ Reg.esp :: calleeSaved, (schedulerReturn K p d).reg r = t.reg r := by
  have hlt := t.sp_lt
  have hlo := h.lo
  have hloaded := hy.loaded
  rw [h.context] at hloaded
  have hsp := hy.sp
  rw [h.context] at hsp
  simp only [callSwtchRoom, sizeofContext] at hlo hsp
  refine ⟨hloaded.eip.symm.trans h.saved.eip, fun r hr => ?_⟩
  rcases List.mem_cons.mp hr with rfl | hcallee
  · apply BitVec.eq_of_toNat_eq
    change (d.set .esp (d.reg .esp + 8#32)).sp = t.sp
    rw [Cpu.sp_set_add, hsp]
    · change t.sp - 28 + 20 + 8 = t.sp
      omega
    · change d.sp + 8 < 2 ^ 32
      omega
  · have hne := ne_esp_of_calleeSaved hcallee
    change (d.set .esp (d.reg .esp + 8#32)).reg r = t.reg r
    rw [Cpu.set_of_ne _ _ hne]
    exact hloaded.reg_eq h.saved r hcallee

theorem Spawned.fresh {fn : BitVec 32} (h : Spawned K m p fn) : Fresh K m p fn :=
  ⟨h.context, h.saved⟩

theorem schedStep_spawn {M M' : SchedMachine} {fn : BitVec 32} {r : ℤ}
    (h : SchedStep K M (.spawn fn r) M') : M'.place = M.place ∧ (∀ p, M.place ≠ .looking p) ∧
      taskLSpawn K M.cpu.mem fn = (r, M'.cpu.mem) := by
  generalize he : SchedEvent.spawn fn r = e at h
  cases h with
  | spawn hplace =>
      obtain ⟨rfl, rfl⟩ := SchedEvent.spawn.inj he
      exact ⟨rfl, hplace, rfl⟩
  | _ => cases he

theorem schedStep_spawns {M M' : SchedMachine} {n : ℕ} {fn : BitVec 32} (h : SchedInv K M n)
    (hstep : SchedStep K M (.spawn fn p) M') :
    p < n + 1 ∧ M'.place ≠ .task p ∧ Fresh K M'.cpu.mem p fn ∧ SchedInv K M' (n + 1) := by
  obtain ⟨hplace, -, heq⟩ := schedStep_spawn hstep
  rcases h.le.lt_or_eq with hlt | rfl
  · rw [taskLSpawn_of_lt h hlt] at heq
    obtain ⟨hslot, hmem⟩ := Prod.mk.inj heq
    obtain rfl : n = p := Int.ofNat.inj hslot
    have hinv : SchedInv K ⟨M'.cpu, M.place⟩ (n + 1) := h.spawn hlt fn hmem.symm
    rw [← hplace] at hinv
    refine ⟨Nat.lt_succ_self n, fun htask => ?_, ?_, hinv⟩
    · have hn := h.place
      rw [← hplace, htask] at hn
      exact Nat.lt_irrefl n hn.1
    · rw [← hmem]
      exact (spawnSlot_spawned fn hlt).fresh
  · rw [taskLSpawn_of_full h] at heq
    exact absurd (Prod.mk.inj heq).1 (by omega)

/-- What tasks and the loop rely on across a switch: a call of `yield` returns with the registers
and the stack it was made with, a new task starts in its function on its own stack, and so does the
loop go on after its call of `swtch`. -/
structure SwitchIsolation (K : SchedImage) : Prop where
  resumed : ∀ M p ra M₁ es M₂ used M₃, SchedReachable K M → SchedStep K M (.yield p ra) M₁ →
    SchedRun K M₁ es M₂ → (∀ t ∈ turns es, t.slot ≠ p) →
    SchedStep K M₂ (.dispatch ⟨p, used⟩) M₃ →
    M₃.cpu.eip = ra ∧ (∀ r ∈ Reg.esp :: calleeSaved, M₃.cpu.reg r = M.cpu.reg r) ∧
      Mem.SameOn M.cpu.sp (K.stackHi p) M.cpu.mem M₃.cpu.mem
  started : ∀ M fn (p : ℕ) M₁ es M₂ used M₃, SchedReachable K M → SchedStep K M (.spawn fn p) M₁ →
    SchedRun K M₁ es M₂ → (∀ t ∈ turns es, t.slot ≠ p) →
    SchedStep K M₂ (.dispatch ⟨p, used⟩) M₃ →
    ∃ c, M₃.cpu = taskResume K c ∧ (fn ≠ K.yieldRet → M₃.cpu = c) ∧ c.eip = fn ∧
      (∀ r ∈ calleeSaved, c.reg r = 0#32) ∧ K.stackLo p ≤ c.sp ∧ c.sp < K.stackHi p
  loop : ∀ M t M₁ es M₂ p ra M₃, SchedReachable K M → SchedStep K M (.dispatch t) M₁ →
    SchedRun K M₁ es M₂ → (∀ q ra, SchedEvent.yield q ra ∉ es) →
    SchedStep K M₂ (.yield p ra) M₃ →
    p = t.slot ∧ M₃.cpu.eip = K.schedulerRet ∧
      ∀ r ∈ Reg.esp :: calleeSaved, M₃.cpu.reg r = M.cpu.reg r

theorem switchIsolation (K : SchedImage) : SwitchIsolation K where
  resumed M p ra M₁ es M₂ used M₃ hM hyield hrun hturns hdispatch := by
    obtain ⟨n, hinv⟩ := schedReachable_inv hM
    obtain ⟨n₁, hle, hinv₁⟩ := schedStep_inv hinv hyield
    obtain ⟨n₂, hle', hinv₂⟩ := schedRun_inv hinv₁ hrun
    cases hyield with
    | yieldIdle hneg => exact absurd hneg (not_lt.mpr (current_nonneg hinv))
    | @yield c _ _ scratch _ hlo hhi =>
        cases hdispatch with
        | @dispatch c₂ _ hp hst hlo₂ hhi₂ =>
            have hpn : p < n₁ := hinv.place.1.trans_le hle
            obtain ⟨hparked, hown⟩ := schedStep_parks hinv scratch ra hlo hhi rfl
            obtain ⟨-, hkept⟩ := schedRun_slot hinv₁ hrun hpn (looking_ne_task _ _) hturns
            have hd := hinv₂.dispatched hp hst hlo₂ hhi₂
            have hstack : Mem.SameOn (K.stackLo p) (K.stackHi p) c₂.mem
                (schedulerSwtch K p c₂).mem := hd.stack hp hlo₂ hhi₂
            obtain ⟨heip, hra, hregs⟩ := (hparked.congr hkept).resume hd hstack
            have hresume : taskResume K (schedulerSwtch K p c₂) =
                yieldReturn K (schedulerSwtch K p c₂) := if_pos heip
            rw [hresume]
            refine ⟨hra, hregs, ?_⟩
            rw [← hresume, mem_taskResume]
            have hlow : K.proc p + 8 ≤ c.sp := (Nat.le_add_right _ _).trans hlo
            exact (hown.trans (hkept.mono (by omega) (le_refl _))).trans
              (hstack.mono hlow (le_refl _))
  started M fn p M₁ es M₂ used M₃ hM hspawn hrun hturns hdispatch := by
    obtain ⟨n, hinv⟩ := schedReachable_inv hM
    obtain ⟨hpn, hplace, hfresh, hinv₁⟩ := schedStep_spawns hinv hspawn
    obtain ⟨n₂, -, hinv₂⟩ := schedRun_inv hinv₁ hrun
    obtain ⟨-, hkept⟩ := schedRun_slot hinv₁ hrun hpn hplace hturns
    have hready := hfresh.congr hkept
    obtain ⟨hlow, hhigh⟩ := spawnContext_bounds K p
    cases hdispatch with
    | @dispatch c _ hp hst hlo hhi =>
        have hd := hinv₂.dispatched hp hst hlo hhi
        have hloaded := hd.loaded
        rw [hready.context] at hloaded
        have heip : (schedulerSwtch K p c).eip = fn := hloaded.eip.symm.trans hready.saved.eip
        have hsp : (schedulerSwtch K p c).sp = spawnContext K p + sizeofContext := by
          rw [hd.sp, hready.context]
        have hstart (hfn : fn ≠ K.yieldRet) :
            taskResume K (schedulerSwtch K p c) = schedulerSwtch K p c := by
          rw [taskResume, heip, if_neg hfn]
        dsimp only
        refine ⟨schedulerSwtch K p c, rfl, hstart, heip, hloaded.reg_eq hready.saved, ?_, ?_⟩
        · rw [hsp]
          omega
        · rw [hsp]
          exact hhigh
  loop M t M₁ es M₂ p ra M₃ hM hdispatch hrun hes hyield := by
    obtain ⟨n, hinv⟩ := schedReachable_inv hM
    obtain ⟨n₁, -, hinv₁⟩ := schedStep_inv hinv hdispatch
    obtain ⟨n₂, -, hinv₂⟩ := schedRun_inv hinv₁ hrun
    cases hdispatch with
    | @dispatch c q hq hst hlo hhi =>
        have hd := hinv.dispatched hq hst hlo hhi
        obtain ⟨hplace, hboot, hlink⟩ := schedRun_loop hinv₁ hrun rfl hes
        rw [mem_taskResume] at hboot hlink
        have hwaits := (hd.loopWaits hlo hhi).congr hboot hlink
        cases hyield with
        | yieldIdle hneg => exact absurd hneg (not_lt.mpr (current_nonneg hinv₂))
        | @yield c₂ _ _ scratch _ hlo₂ hhi₂ =>
            obtain ⟨heip, hregs⟩ := hwaits.resume (hinv₂.yielded scratch ra hlo₂ hhi₂)
            exact ⟨SchedPlace.task.inj hplace, heip, hregs⟩

/-- The first task starts in its function. -/
theorem demoImage_starts : ∃ es M, SchedRun demoImage (schedStart demoImage demoCpu) es M ∧
    M.place = .task 0 ∧ M.cpu.eip = 0x18000#32 ∧ ∀ r ∈ calleeSaved, M.cpu.reg r = 0#32 := by
  obtain ⟨c₁, c₂, hspawn, hbegun, hused⟩ := demoImage_begun
  have hfirst := SchedRun.nil.step hspawn
  obtain ⟨es, M, used, M', hscan, hturns, hturn⟩ := exists_turn demoImage_roomy
    ⟨demoCpu, _, hfirst.append hbegun⟩ rfl (by decide) (hused 0 (by decide))
  have hnone : ∀ t ∈ turns ([.spawn 0x19000#32 (1 : ℕ), .start] ++ es), t.slot ≠ 0 := by
    intro t ht
    rw [turns_append, List.mem_append] at ht
    exact hturns t (ht.resolve_left List.not_mem_nil)
  obtain ⟨c, -, hcpu, heip, hregs, -⟩ := (switchIsolation demoImage).started _ _ 0 _ _ M used M'
    ⟨demoCpu, _, .nil⟩ hspawn (hbegun.append hscan) hnone hturn
  have hstarted := hcpu (by decide)
  refine ⟨_, M', (hfirst.append (hbegun.append hscan)).step hturn, place_of_dispatch hturn, ?_, ?_⟩
  · rw [hstarted, heip]
  · rw [hstarted]
    exact hregs

end System44
