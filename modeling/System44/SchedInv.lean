import System44.Sched

/-!
# What the scheduler keeps

The words of the process table lie apart from each other and from the stack of the loop, so each
step changes a few of them only. `SchedInv` collects what holds of the table between two steps.
-/

namespace System44

open Ia32 SchedImage

variable {K : SchedImage} {m m' : Mem} {p q : ℕ}

theorem proc_le (hp : p < nproc) : K.proc p + sizeofProc ≤ K.currentAddr := by
  simp only [proc, currentAddr, sizeofProc, nproc] at hp ⊢
  omega

theorem proc_end (hp : p < nproc) : K.proc p + sizeofProc ≤ 2 ^ 32 := by
  have hend := K.ptable_end
  have hle := proc_le (K := K) hp
  simp only [currentAddr, sizeofPtable] at *
  omega

theorem state_congr (h : Mem.SameOn (K.proc p) (K.proc p + 4) m m') :
    K.state m' p = K.state m p := h.load32 (le_refl _) (le_refl _)

theorem context_congr (h : Mem.SameOn (K.proc p + 4) (K.proc p + 8) m m') :
    K.context m' p = K.context m p := h.load32 (le_refl _) (le_refl _)

theorem current_congr (h : Mem.SameOn K.currentAddr (K.currentAddr + 4) m m') :
    K.current m' = K.current m := h.load32 (le_refl _) (le_refl _)

theorem schedContext_congr (h : Mem.SameOn K.schedContextAddr (K.schedContextAddr + 4) m m') :
    K.schedContext m' = K.schedContext m := h.load32 (le_refl _) (le_refl _)

/-- A slot that can be dispatched: its context is on its stack. -/
structure SlotReady (K : SchedImage) (m : Mem) (p : ℕ) : Prop where
  state : K.state m p = runnable
  lo : K.stackLo p ≤ (K.context m p).toNat
  hi : (K.context m p).toNat + sizeofContext ≤ K.stackHi p

theorem SlotReady.congr (h : SlotReady K m p) (hsame : Mem.SameOn (K.proc p) (K.proc p + 8) m m') :
    SlotReady K m' p := by
  have hstate := state_congr (hsame.mono (le_refl _) (by omega))
  have hcontext := context_congr (hsame.mono (by omega) (le_refl _))
  exact ⟨hstate.trans h.state, by rw [hcontext]; exact h.lo, by rw [hcontext]; exact h.hi⟩

def PlaceInv (K : SchedImage) (m : Mem) (n : ℕ) : SchedPlace → Prop
  | .kmain => K.current m = -1#32
  | .looking p => p ≤ nproc ∧ K.current m = -1#32
  | .task p => p < n ∧ K.state m p = running ∧ K.current m = BitVec.ofNat 32 p ∧
      K.bootLo ≤ (K.schedContext m).toNat ∧
      (K.schedContext m).toNat + sizeofContext ≤ K.bootHi

/-- The first `n` slots are in use, and only the one whose task runs is not runnable. -/
structure SchedInv (K : SchedImage) (M : SchedMachine) (n : ℕ) : Prop where
  le : n ≤ nproc
  unused : ∀ p, n ≤ p → p < nproc → K.state M.cpu.mem p = unused
  ready : ∀ p < n, M.place ≠ .task p → SlotReady K M.cpu.mem p
  place : PlaceInv K M.cpu.mem n M.place

theorem PlaceInv.congr {n : ℕ} {place : SchedPlace} (h : PlaceInv K m n place)
    (hstate : ∀ p < n, place = .task p → Mem.SameOn (K.proc p) (K.proc p + 4) m m')
    (hlast : Mem.SameOn K.currentAddr (K.currentAddr + 8) m m') : PlaceInv K m' n place := by
  have hcurrent := current_congr (hlast.mono (le_refl _) (by omega))
  have hcontext : K.schedContext m' = K.schedContext m :=
    schedContext_congr (hlast.mono (by simp only [schedContextAddr, currentAddr]; omega)
      (by simp only [schedContextAddr, currentAddr]; omega))
  cases place with
  | kmain => exact hcurrent.trans h
  | looking p => exact ⟨h.1, hcurrent.trans h.2⟩
  | task p =>
      obtain ⟨hp, hrunning, hindex, hlo, hhi⟩ := h
      rw [PlaceInv, hcurrent, hcontext, state_congr (hstate p hp rfl)]
      exact ⟨hp, hrunning, hindex, hlo, hhi⟩

/-- The invariant reads the states, the contexts and the two words behind the slots. -/
theorem SchedInv.congr {n : ℕ} {c c' : Cpu} {place : SchedPlace} (h : SchedInv K ⟨c, place⟩ n)
    (hproc : ∀ p < nproc, Mem.SameOn (K.proc p) (K.proc p + 8) c.mem c'.mem)
    (hlast : Mem.SameOn K.currentAddr (K.currentAddr + 8) c.mem c'.mem) :
    SchedInv K ⟨c', place⟩ n where
  le := h.le
  unused p hn hp :=
    (state_congr ((hproc p hp).mono (le_refl _) (by omega))).trans (h.unused p hn hp)
  ready p hp hne := (h.ready p hp hne).congr (hproc p (hp.trans_le h.le))
  place := h.place.congr
    (fun p hp _ => (hproc p (hp.trans_le h.le)).mono (le_refl _) (by omega)) hlast

theorem state_schedInitStates {k : ℕ} (hk : k ≤ nproc) (hp : p < k) :
    K.state (schedInitStates K m k) p = unused := by
  have hend := K.ptable_end
  induction k with
  | zero => exact absurd hp (Nat.not_lt_zero p)
  | succ k ih =>
      rcases Nat.lt_succ_iff_lt_or_eq.mp hp with hlt | rfl
      · refine (state_congr ?_).trans (ih (by omega) hlt)
        apply Mem.sameOn_store32 <;>
          simp only [stateAddr, proc, sizeofProc, sizeofPtable, nproc] at * <;> omega
      · exact Mem.load32_store32 _ _ _

theorem schedStart_inv (c : Cpu) : SchedInv K (schedStart K c) 0 where
  le := Nat.zero_le _
  unused p _ hp := by
    have hend := K.ptable_end
    refine (state_congr ?_).trans (state_schedInitStates (m := c.mem) (le_refl _) hp)
    refine Mem.SameOn.trans (Mem.sameOn_store32 _ (-1#32) (a := K.currentAddr) ?_ ?_ ?_)
      (Mem.sameOn_store32 _ 0#32 (a := K.schedContextAddr) ?_ ?_ ?_) <;>
      simp only [schedContextAddr, currentAddr, proc, sizeofProc, sizeofPtable, nproc] at * <;>
      omega
  ready p hp := absurd hp (Nat.not_lt_zero p)
  place := by
    have hend := K.ptable_end
    refine (current_congr ?_).trans (Mem.load32_store32 (schedInitStates K c.mem nproc) _ _)
    apply Mem.sameOn_store32 <;>
      simp only [schedContextAddr, currentAddr, sizeofPtable] at * <;> omega

def spawnWords (a : ℕ) (fn : BitVec 32) : List (ℕ × BitVec 32) :=
  [(4096, fn), (4092, 0#32), (4, BitVec.ofNat 32 (a + 4012)), (4024, 0#32), (4020, 0#32),
    (4016, 0#32), (4012, 0#32), (4028, fn), (0, runnable)]

theorem spawnSlot_eq (fn : BitVec 32) : spawnSlot K m p fn =
    m.storeWords (K.proc p) (spawnWords (K.proc p) fn) := by
  simp only [spawnSlot, Mem.storeWords, spawnContext, spawnWords, stackLo, contextAddr, stateAddr,
    sizeofContext, List.foldl_cons, List.foldl_nil, Nat.add_assoc, Nat.reduceMul, Nat.reduceSub,
    Nat.reduceAdd, Nat.add_zero]

theorem spawnWords_le (a : ℕ) (fn : BitVec 32) : ∀ w ∈ spawnWords a fn, w.1 + 4 ≤ sizeofProc := by
  simp [spawnWords, sizeofProc]

theorem spawnWords_apart (a : ℕ) (fn : BitVec 32) :
    (spawnWords a fn).Pairwise fun w w' => w.1 + 4 ≤ w'.1 ∨ w'.1 + 4 ≤ w.1 := by
  simp [spawnWords]

theorem sameOn_spawnSlot (fn : BitVec 32) (hp : p < nproc) {lo hi : ℕ} (hhi : hi ≤ 2 ^ 32)
    (hout : hi ≤ K.proc p ∨ K.proc p + sizeofProc ≤ lo) :
    Mem.SameOn lo hi m (spawnSlot K m p fn) := by
  have hend := proc_end (K := K) hp
  rw [spawnSlot_eq]
  refine Mem.sameOn_storeWords _ (fun w hw => ?_) hhi
  have hle := spawnWords_le (K.proc p) fn w hw
  omega

/-- The new slot. -/
structure Spawned (K : SchedImage) (m : Mem) (p : ℕ) (fn : BitVec 32) : Prop where
  state : K.state m p = runnable
  context : (K.context m p).toNat = spawnContext K p
  saved : HasContext m (spawnContext K p) (fun _ => 0#32) fn

theorem spawnSlot_spawned (fn : BitVec 32) (hp : p < nproc) :
    Spawned K (spawnSlot K m p fn) p fn := by
  have hend := proc_end (K := K) hp
  have hctx : spawnContext K p = K.proc p + 4012 := by
    simp only [spawnContext, stackLo, sizeofContext, Nat.reduceMul, Nat.reduceSub, Nat.add_assoc,
      Nat.reduceAdd]
  have hread := Mem.load32_storeWords (a := K.proc p) (m := m)
    (fun w hw => by have := spawnWords_le _ fn w hw; omega) (spawnWords_apart (K.proc p) fn)
  rw [← spawnSlot_eq] at hread
  rw [sizeofProc] at hend
  have hcontext := hread (4, BitVec.ofNat 32 (K.proc p + 4012)) (by simp [spawnWords])
  constructor
  · exact hread (0, runnable) (by simp [spawnWords])
  · rw [SchedImage.context, contextAddr, hcontext, hctx, BitVec.toNat_ofNat]
    exact Nat.mod_eq_of_lt (by omega)
  · rw [hctx]
    constructor
    · exact hread (4012, 0#32) (by simp [spawnWords])
    · exact hread (4016, 0#32) (by simp [spawnWords])
    · exact hread (4020, 0#32) (by simp [spawnWords])
    · exact hread (4024, 0#32) (by simp [spawnWords])
    · exact hread (4028, fn) (by simp [spawnWords])

theorem state_of_used {M : SchedMachine} {n : ℕ} (h : SchedInv K M n) (hp : p < n) :
    K.state M.cpu.mem p = runnable ∨ M.place = .task p ∧ K.state M.cpu.mem p = running := by
  by_cases hplace : M.place = .task p
  · have hrunning := h.place
    rw [hplace] at hrunning
    exact Or.inr ⟨hplace, hrunning.2.1⟩
  · exact Or.inl (h.ready p hp hplace).state

theorem state_unused_iff {M : SchedMachine} {n : ℕ} (h : SchedInv K M n) (hp : p < nproc) :
    K.state M.cpu.mem p = unused ↔ n ≤ p := by
  constructor
  · intro hunused
    by_contra hlt
    rcases state_of_used h (Nat.lt_of_not_le hlt) with heq | ⟨-, heq⟩
    · exact absurd (heq.symm.trans hunused) (by decide)
    · exact absurd (heq.symm.trans hunused) (by decide)
  · exact fun hle => h.unused p hle hp

theorem firstUnused_eq {M : SchedMachine} {n : ℕ} (h : SchedInv K M n) :
    firstUnused K M.cpu.mem = if n < nproc then some n else none := by
  split
  · next hn =>
    rw [firstUnused, List.find?_range_eq_some]
    refine ⟨by simpa using h.unused n (le_refl n) hn, List.mem_range.mpr hn, fun j hj => ?_⟩
    simpa using fun hunused => absurd ((state_unused_iff h (hj.trans hn)).mp hunused) (by omega)
  · next hn =>
    rw [firstUnused, List.find?_range_eq_none]
    intro j hj
    simpa using fun hunused => absurd ((state_unused_iff h hj).mp hunused) (by omega)

theorem taskLSpawn_of_full {M : SchedMachine} (h : SchedInv K M nproc) (fn : BitVec 32) :
    taskLSpawn K M.cpu.mem fn = (-1, M.cpu.mem) := by
  rw [taskLSpawn, firstUnused_eq h, if_neg (Nat.lt_irrefl nproc)]

theorem taskLSpawn_of_lt {M : SchedMachine} {n : ℕ} (h : SchedInv K M n) (hn : n < nproc)
    (fn : BitVec 32) : taskLSpawn K M.cpu.mem fn = ((n : ℤ), spawnSlot K M.cpu.mem n fn) := by
  rw [taskLSpawn, firstUnused_eq h, if_pos hn]

theorem Spawned.slotReady {fn : BitVec 32} (h : Spawned K m p fn) : SlotReady K m p := by
  refine ⟨h.state, ?_, ?_⟩
  · rw [h.context, spawnContext]
    omega
  · rw [h.context, spawnContext, stackLo, stackHi, sizeofContext, sizeofProc]
    omega

/-- The slots before the new one, and the words behind the slots, are left alone. -/
theorem SchedInv.spawn {c c' : Cpu} {place : SchedPlace} {n : ℕ} (h : SchedInv K ⟨c, place⟩ n)
    (hn : n < nproc) (fn : BitVec 32) (hmem : c'.mem = spawnSlot K c.mem n fn) :
    SchedInv K ⟨c', place⟩ (n + 1) := by
  have hend := K.ptable_end
  have hother {p : ℕ} (hp : p < nproc) (hne : p ≠ n) :
      Mem.SameOn (K.proc p) (K.proc p + 8) c.mem c'.mem := by
    rw [hmem]
    refine sameOn_spawnSlot fn hn ?_ ?_ <;>
      simp only [proc, sizeofProc, sizeofPtable, nproc] at * <;> omega
  have hlast : Mem.SameOn K.currentAddr (K.currentAddr + 8) c.mem c'.mem := by
    rw [hmem]
    refine sameOn_spawnSlot fn hn ?_ (Or.inr (proc_le hn))
    simp only [currentAddr, sizeofPtable] at *
    omega
  have hspawned : Spawned K c'.mem n fn := by
    rw [hmem]
    exact spawnSlot_spawned fn hn
  constructor
  · exact hn
  · intro p hle hp
    exact (state_congr ((hother hp (by omega)).mono (le_refl _) (by omega))).trans
      (h.unused p (by omega) hp)
  · intro p hp hne
    rcases Nat.lt_succ_iff_lt_or_eq.mp hp with hlt | rfl
    · exact (h.ready p hlt hne).congr (hother (hlt.trans_le h.le) (by omega))
    · exact hspawned.slotReady
  · have hkept : PlaceInv K c'.mem n place := h.place.congr
      (fun p hp _ => (hother (hp.trans_le h.le) (by omega)).mono (le_refl _) (by omega)) hlast
    cases place with
    | kmain => exact hkept
    | looking p => exact hkept
    | task p => exact ⟨hkept.1.trans (Nat.lt_succ_self n), hkept.2⟩

/-- `schedulerSwtch` for a slot that is ready. -/
structure Dispatched (K : SchedImage) (p : ℕ) (c d : Cpu) : Prop where
  saved : HasContext d.mem (c.sp - callSwtchRoom) c.reg K.schedulerRet
  link : (K.schedContext d.mem).toNat = c.sp - callSwtchRoom
  loaded : HasContext c.mem (K.context c.mem p).toNat d.reg d.eip
  sp : d.sp = (K.context c.mem p).toNat + sizeofContext
  state : K.state d.mem p = running
  current : K.current d.mem = BitVec.ofNat 32 p
  frame : ∀ lo hi, hi ≤ 2 ^ 32 → hi ≤ c.sp - callSwtchRoom ∨ c.sp ≤ lo →
    hi ≤ K.currentAddr ∨ K.currentAddr + 8 ≤ lo → hi ≤ K.proc p ∨ K.proc p + 4 ≤ lo →
    Mem.SameOn lo hi c.mem d.mem

def turnStores (K : SchedImage) (p : ℕ) (m : Mem) : Mem :=
  (m.store32 K.currentAddr (BitVec.ofNat 32 p)).store32 (K.stateAddr p) running

theorem sameOn_turnStores (hp : p < nproc) {lo hi : ℕ} (hhi : hi ≤ 2 ^ 32)
    (hcur : hi ≤ K.currentAddr ∨ K.currentAddr + 4 ≤ lo)
    (hst : hi ≤ K.proc p ∨ K.proc p + 4 ≤ lo) : Mem.SameOn lo hi m (turnStores K p m) := by
  have hend := K.ptable_end
  have hle := proc_le (K := K) hp
  refine (Mem.sameOn_store32 _ _ ?_ hhi hcur).trans (Mem.sameOn_store32 _ _ ?_ hhi hst) <;>
    simp only [stateAddr, currentAddr, sizeofProc, sizeofPtable] at * <;> omega

theorem context_turnStores (hp : p < nproc) : K.context (turnStores K p m) p = K.context m p := by
  have hend := proc_end (K := K) hp
  have hle := proc_le (K := K) hp
  refine context_congr (sameOn_turnStores hp ?_ ?_ ?_) <;> rw [sizeofProc] at * <;> omega

theorem current_turnStores (hp : p < nproc) :
    K.current (turnStores K p m) = BitVec.ofNat 32 p := by
  have hend := K.ptable_end
  have hle := proc_le (K := K) hp
  rw [turnStores, current, Mem.load32_store32_outside, Mem.load32_store32] <;>
    simp only [stateAddr, currentAddr, sizeofProc, sizeofPtable] at * <;> omega

theorem toNat_schedContextAddr :
    (BitVec.ofNat 32 K.schedContextAddr).toNat = K.schedContextAddr := by
  have hend := K.ptable_end
  refine toNat_ofNat_small ?_
  rw [sizeofPtable] at hend
  rw [schedContextAddr]
  omega

theorem schedulerSwtch_switched {c : Cpu} (hp : p < nproc) (h : SlotReady K c.mem p)
    (hlo : K.bootLo + callSwtchRoom ≤ c.sp) (hhi : c.sp ≤ K.bootHi) :
    Switched { c with mem := turnStores K p c.mem } (schedulerSwtch K p c)
      (BitVec.ofNat 32 K.schedContextAddr) (K.context c.mem p) K.schedulerRet := by
  have hend := K.ptable_end
  have hboot := K.boot_outside
  have hctxLo := h.lo
  have hctxHi := h.hi
  have hle := proc_le (K := K) hp
  have hbase : K.ptable ≤ K.proc p := Nat.le_add_right _ _
  have hsp : Cpu.sp { c with mem := turnStores K p c.mem } = c.sp := rfl
  have heq : schedulerSwtch K p c = callSwtch (BitVec.ofNat 32 K.schedContextAddr)
      (K.context c.mem p) K.schedulerRet { c with mem := turnStores K p c.mem } := by
    rw [← context_turnStores hp]
    rfl
  have hold := toNat_schedContextAddr (K := K)
  rw [heq]
  generalize BitVec.ofNat 32 K.schedContextAddr = old at hold
  apply callSwtch_switched <;>
    simp only [hsp, stackLo, stackHi, currentAddr, schedContextAddr, sizeofProc, sizeofPtable,
      sizeofContext, callSwtchRoom] at * <;> omega

theorem schedulerSwtch_dispatched {c : Cpu} (hp : p < nproc) (h : SlotReady K c.mem p)
    (hlo : K.bootLo + callSwtchRoom ≤ c.sp) (hhi : c.sp ≤ K.bootHi) :
    Dispatched K p c (schedulerSwtch K p c) := by
  have hend := K.ptable_end
  have hboot := K.boot_outside
  have hctxLo := h.lo
  have hctxHi := h.hi
  have hproc := proc_le (K := K) hp
  have hbase : K.ptable ≤ K.proc p := Nat.le_add_right _ _
  have hsw := schedulerSwtch_switched hp h hlo hhi
  have hframe {lo hi : ℕ} (hh : hi ≤ 2 ^ 32) (hstack : hi ≤ c.sp - callSwtchRoom ∨ c.sp ≤ lo)
      (hctx : hi ≤ K.schedContextAddr ∨ K.schedContextAddr + 4 ≤ lo) :
      Mem.SameOn lo hi (turnStores K p c.mem) (schedulerSwtch K p c).mem :=
    hsw.sameOn hh hstack (by rw [toNat_schedContextAddr]; exact hctx)
  constructor
  · exact hsw.saved
  · have hlink := hsw.link
    rw [toNat_schedContextAddr] at hlink
    exact hlink
  · have hsame : Mem.SameOn (K.context c.mem p).toNat ((K.context c.mem p).toNat + sizeofContext)
        c.mem (turnStores K p c.mem) := by
      refine sameOn_turnStores hp ?_ ?_ ?_ <;>
        simp only [stackLo, stackHi, currentAddr, sizeofProc, sizeofPtable] at * <;> omega
    exact hsw.loaded.sameOn hsame.symm (le_refl _) (le_refl _)
  · exact hsw.sp
  · refine (state_congr (hframe ?_ ?_ ?_)).trans (Mem.load32_store32 _ _ _) <;>
      simp only [schedContextAddr, currentAddr, sizeofProc, sizeofPtable, callSwtchRoom] at * <;>
      omega
  · refine (current_congr (hframe ?_ ?_ ?_)).trans (current_turnStores hp) <;>
      simp only [schedContextAddr, currentAddr, sizeofPtable, callSwtchRoom] at * <;> omega
  · intro lo hi hh hstack hcur hst
    refine (sameOn_turnStores hp hh ?_ hst).trans (hframe hh hstack ?_) <;>
      simp only [schedContextAddr, currentAddr] at * <;> omega

theorem sp_yieldEnter {c : Cpu} (scratch : Reg → BitVec 32) (ra : BitVec 32)
    (h : yieldRoom K ≤ c.sp) :
    (yieldEnter K scratch ra c).sp = c.sp - yieldRoom K + callSwtchRoom := by
  have hlt := c.sp_lt
  rw [yieldRoom, callSwtchRoom] at h
  have hpush := Cpu.sp_push ra (c := c) (by omega)
  have hsaved : (pushAll K.yieldSaves (c.push ra)).sp = c.sp - 4 - 4 * K.yieldSaves.length := by
    rw [pushAll_eq K.esp_not_saved, Cpu.sp_pushWords, List.length_map, hpush]
    rw [List.length_map]
    omega
  have hpad : (BitVec.ofNat 32 (4 * K.yieldPad)).toNat = 4 * K.yieldPad :=
    toNat_ofNat_small (by omega)
  have hsub := Cpu.sp_set_sub (c := pushAll K.yieldSaves (c.push ra))
    (n := BitVec.ofNat 32 (4 * K.yieldPad)) (by omega)
  have hesp : (yieldEnter K scratch ra c).sp = ((pushAll K.yieldSaves (c.push ra)).set .esp
      ((pushAll K.yieldSaves (c.push ra)).reg .esp - BitVec.ofNat 32 (4 * K.yieldPad))).sp := by
    have hnot := K.esp_not_saved
    simp [yieldEnter, yieldBody, Cpu.sp, hnot]
  rw [hesp, hsub, hpad, hsaved, yieldRoom, callSwtchRoom]
  omega

theorem reg_yieldEnter {c : Cpu} (scratch : Reg → BitVec 32) (ra : BitVec 32) {r : Reg}
    (h : r ∉ K.yieldSaves) (hr : r ∈ [Reg.ebp, .ebx, .esi, .edi]) :
    (yieldEnter K scratch ra c).reg r = c.reg r := by
  have hne : r ≠ .esp ∧ r ≠ .eax ∧ r ≠ .ecx ∧ r ≠ .edx := by
    simp only [List.mem_cons, List.not_mem_nil, or_false] at hr
    rcases hr with rfl | rfl | rfl | rfl <;> decide
  have hbody : (yieldEnter K scratch ra c).reg r = (pushAll K.yieldSaves (c.push ra)).reg r := by
    simp [yieldEnter, yieldBody, h, hne, Cpu.set_of_ne]
  rw [hbody, pushAll_eq K.esp_not_saved, Cpu.pushWords_reg hne.1, Cpu.push_reg _ _ hne.1]

theorem mem_yieldEnter {c : Cpu} (scratch : Reg → BitVec 32) (ra : BitVec 32) :
    (yieldEnter K scratch ra c).mem = (pushAll K.yieldSaves (c.push ra)).mem := rfl

def calleeSaved : List Reg := [.ebp, .ebx, .esi, .edi]

/-- A call of `yield` by slot `p` that returns to `ra`, up to where `swtch` jumps. -/
structure Yielded (K : SchedImage) (p : ℕ) (ra : BitVec 32) (c d : Cpu) : Prop where
  saved : ∃ reg, HasContext d.mem (c.sp - yieldRoom K) reg K.yieldRet ∧
    ∀ r ∈ calleeSaved, r ∉ K.yieldSaves → reg r = c.reg r
  link : (K.context d.mem p).toNat = c.sp - yieldRoom K
  pushed : Mem.SameOn (c.sp - 4 - 4 * K.yieldSaves.length) c.sp
    (pushAll K.yieldSaves (c.push ra)).mem d.mem
  loaded : HasContext c.mem (K.schedContext c.mem).toNat d.reg d.eip
  sp : d.sp = (K.schedContext c.mem).toNat + sizeofContext
  frame : ∀ lo hi, hi ≤ 2 ^ 32 → hi ≤ c.sp - yieldRoom K ∨ c.sp ≤ lo →
    hi ≤ K.proc p ∨ K.proc p + 8 ≤ lo → Mem.SameOn lo hi c.mem d.mem

theorem sameOn_yieldEnter {c : Cpu} (scratch : Reg → BitVec 32) (ra : BitVec 32)
    (h : yieldRoom K ≤ c.sp) {lo hi : ℕ} (hhi : hi ≤ 2 ^ 32)
    (hout : hi ≤ c.sp - yieldRoom K ∨ c.sp ≤ lo) :
    Mem.SameOn lo hi c.mem (yieldEnter K scratch ra c).mem := by
  have hlt := c.sp_lt
  rw [yieldRoom] at h hout
  have hsp := Cpu.sp_push ra (c := c) (by omega)
  rw [mem_yieldEnter, pushAll_eq K.esp_not_saved]
  refine (Cpu.sameOn_push ra (by omega) hhi (by omega)).trans
    (Cpu.sameOn_pushWords ?_ hhi ?_) <;> rw [List.length_map] <;> omega

def yieldStores (K : SchedImage) (scratch : Reg → BitVec 32) (ra : BitVec 32) (p : ℕ) (c : Cpu) :
    Mem := (yieldEnter K scratch ra c).mem.store32 (K.stateAddr p) runnable

theorem sameOn_stateStore (hp : p < nproc) (v : BitVec 32) {lo hi : ℕ} (hhi : hi ≤ 2 ^ 32)
    (hst : hi ≤ K.proc p ∨ K.proc p + 4 ≤ lo) :
    Mem.SameOn lo hi m (m.store32 (K.stateAddr p) v) := by
  have hend := proc_end (K := K) hp
  rw [sizeofProc] at hend
  refine Mem.sameOn_store32 _ _ ?_ hhi hst
  rw [stateAddr]
  omega

theorem sameOn_yieldStores {c : Cpu} (scratch : Reg → BitVec 32) (ra : BitVec 32) (hp : p < nproc)
    (h : yieldRoom K ≤ c.sp) {lo hi : ℕ} (hhi : hi ≤ 2 ^ 32)
    (hout : hi ≤ c.sp - yieldRoom K ∨ c.sp ≤ lo) (hst : hi ≤ K.proc p ∨ K.proc p + 4 ≤ lo) :
    Mem.SameOn lo hi c.mem (yieldStores K scratch ra p c) :=
  (sameOn_yieldEnter scratch ra h hhi hout).trans (sameOn_stateStore hp _ hhi hst)

theorem toNat_contextAddr (hp : p < nproc) :
    (BitVec.ofNat 32 (K.contextAddr p)).toNat = K.proc p + 4 := by
  have hend := proc_end (K := K) hp
  rw [sizeofProc] at hend
  refine toNat_ofNat_small ?_
  rw [contextAddr]
  omega

theorem yieldSwtch_switched {c : Cpu} (scratch : Reg → BitVec 32) (ra : BitVec 32) (hp : p < nproc)
    (hcurrent : K.current c.mem = BitVec.ofNat 32 p) (hlo : K.stackLo p + yieldRoom K ≤ c.sp)
    (hhi : c.sp ≤ K.stackHi p) (hbootLo : K.bootLo ≤ (K.schedContext c.mem).toNat)
    (hbootHi : (K.schedContext c.mem).toNat + sizeofContext ≤ K.bootHi) :
    Switched { yieldEnter K scratch ra c with mem := yieldStores K scratch ra p c }
      (yieldSwtch K scratch ra c) (BitVec.ofNat 32 (K.contextAddr p)) (K.schedContext c.mem)
      K.yieldRet := by
  have hend := K.ptable_end
  have hboot := K.boot_outside
  have hbootEnd := K.boot_end
  have hle := proc_le (K := K) hp
  have hbase : K.ptable ≤ K.proc p := Nat.le_add_right _ _
  have hindex : (K.current c.mem).toNat = p := by
    rw [hcurrent, toNat_ofNat_small]
    rw [nproc] at hp
    omega
  have hcontext : K.schedContext (yieldStores K scratch ra p c) = K.schedContext c.mem := by
    refine schedContext_congr (sameOn_yieldStores scratch ra hp ?_ ?_ ?_ ?_) <;>
      simp only [stackLo, stackHi, schedContextAddr, currentAddr, sizeofProc, sizeofPtable] at * <;>
      omega
  have heq : yieldSwtch K scratch ra c = callSwtch (BitVec.ofNat 32 (K.contextAddr p))
      (K.schedContext c.mem) K.yieldRet
      { yieldEnter K scratch ra c with mem := yieldStores K scratch ra p c } := by
    rw [yieldSwtch, hindex, ← hcontext]
    rfl
  have hsp : Cpu.sp { yieldEnter K scratch ra c with mem := yieldStores K scratch ra p c } =
      c.sp - yieldRoom K + callSwtchRoom := sp_yieldEnter scratch ra (by omega)
  have hroom : callSwtchRoom ≤ yieldRoom K := Nat.le_add_left _ _
  have hold := toNat_contextAddr (K := K) hp
  rw [heq]
  generalize BitVec.ofNat 32 (K.contextAddr p) = old at hold
  apply callSwtch_switched <;>
    simp only [hsp, stackLo, stackHi, currentAddr, sizeofProc, sizeofPtable, sizeofContext] at * <;>
    omega

theorem yieldSwtch_yielded {c : Cpu} (scratch : Reg → BitVec 32) (ra : BitVec 32) (hp : p < nproc)
    (hcurrent : K.current c.mem = BitVec.ofNat 32 p) (hlo : K.stackLo p + yieldRoom K ≤ c.sp)
    (hhi : c.sp ≤ K.stackHi p) (hbootLo : K.bootLo ≤ (K.schedContext c.mem).toNat)
    (hbootHi : (K.schedContext c.mem).toNat + sizeofContext ≤ K.bootHi) :
    Yielded K p ra c (yieldSwtch K scratch ra c) := by
  have hboot := K.boot_outside
  have hbootEnd := K.boot_end
  have hproc := proc_end (K := K) hp
  have hle := proc_le (K := K) hp
  have hbase : K.ptable ≤ K.proc p := Nat.le_add_right _ _
  have hroom : callSwtchRoom ≤ yieldRoom K := Nat.le_add_left _ _
  have hsw := yieldSwtch_switched scratch ra hp hcurrent hlo hhi hbootLo hbootHi
  have hesp := sp_yieldEnter (K := K) (c := c) scratch ra (by omega)
  have hsub : (yieldEnter K scratch ra c).sp - callSwtchRoom = c.sp - yieldRoom K := by omega
  have hframe {lo hi : ℕ} (hh : hi ≤ 2 ^ 32)
      (hstack : hi ≤ c.sp - yieldRoom K ∨ (yieldEnter K scratch ra c).sp ≤ lo)
      (hctx : hi ≤ K.proc p + 4 ∨ K.proc p + 8 ≤ lo) :
      Mem.SameOn lo hi (yieldStores K scratch ra p c) (yieldSwtch K scratch ra c).mem := by
    rw [← hsub] at hstack
    exact hsw.sameOn hh hstack (by rw [toNat_contextAddr hp]; exact hctx)
  constructor
  · refine ⟨(yieldEnter K scratch ra c).reg, ?_, fun r hr hsaves =>
      reg_yieldEnter scratch ra hsaves hr⟩
    rw [← hsub]
    exact hsw.saved
  · have hlink := hsw.link
    rw [toNat_contextAddr hp] at hlink
    exact hlink.trans hsub
  · rw [← mem_yieldEnter scratch ra]
    simp only [stackLo, stackHi, sizeofProc, yieldRoom] at *
    refine (sameOn_stateStore hp runnable ?_ ?_).trans (hframe ?_ ?_ ?_) <;> omega
  · have hsame : Mem.SameOn (K.schedContext c.mem).toNat
        ((K.schedContext c.mem).toNat + sizeofContext) c.mem (yieldStores K scratch ra p c) := by
      refine sameOn_yieldStores scratch ra hp ?_ ?_ ?_ ?_ <;>
        simp only [stackLo, stackHi, currentAddr, sizeofProc, sizeofPtable] at * <;> omega
    exact hsw.loaded.sameOn hsame.symm (le_refl _) (le_refl _)
  · exact hsw.sp
  · intro lo hi hh hstack hst
    refine (sameOn_yieldStores scratch ra hp (by omega) hh hstack ?_).trans (hframe hh ?_ ?_) <;>
      omega

theorem kmain_ne_task : SchedPlace.kmain ≠ .task p := by
  intro h
  cases h

theorem looking_ne_task (q p : ℕ) : SchedPlace.looking q ≠ .task p := by
  intro h
  cases h

theorem mem_taskResume (d : Cpu) : (taskResume K d).mem = d.mem := by
  rw [taskResume]
  split
  · exact popAll_mem _ _
  · rfl

theorem proc_apart (h : p ≠ q) :
    K.proc p + sizeofProc ≤ K.proc q ∨ K.proc q + sizeofProc ≤ K.proc p := by
  simp only [proc, sizeofProc]
  omega

theorem lt_of_runnable {M : SchedMachine} {n : ℕ} (h : SchedInv K M n) (hp : p < nproc)
    (hst : K.state M.cpu.mem p = runnable) : p < n := by
  by_contra hge
  have hunused := h.unused p (Nat.le_of_not_lt hge) hp
  exact absurd (hst.symm.trans hunused) (by decide)

theorem SchedInv.dispatched {c : Cpu} {n : ℕ} (h : SchedInv K ⟨c, .looking p⟩ n) (hp : p < nproc)
    (hst : K.state c.mem p = runnable) (hlo : K.bootLo + callSwtchRoom ≤ c.sp)
    (hhi : c.sp ≤ K.bootHi) : Dispatched K p c (schedulerSwtch K p c) :=
  schedulerSwtch_dispatched hp (h.ready p (lt_of_runnable h hp hst) (looking_ne_task _ _)) hlo hhi

theorem SchedInv.yielded {c : Cpu} {n : ℕ} (h : SchedInv K ⟨c, .task p⟩ n)
    (scratch : Reg → BitVec 32) (ra : BitVec 32) (hlo : K.stackLo p + yieldRoom K ≤ c.sp)
    (hhi : c.sp ≤ K.stackHi p) : Yielded K p ra c (yieldSwtch K scratch ra c) := by
  obtain ⟨hlt, -, hcurrent, hbootLo, hbootHi⟩ := h.place
  exact yieldSwtch_yielded scratch ra (hlt.trans_le h.le) hcurrent hlo hhi hbootLo hbootHi

theorem SchedInv.dispatch {c c' : Cpu} {n : ℕ} (h : SchedInv K ⟨c, .looking p⟩ n) (hp : p < nproc)
    (hst : K.state c.mem p = runnable) (hlo : K.bootLo + callSwtchRoom ≤ c.sp)
    (hhi : c.sp ≤ K.bootHi) (hmem : c'.mem = (schedulerSwtch K p c).mem) :
    SchedInv K ⟨c', .task p⟩ n := by
  have hlt : p < n := lt_of_runnable h hp hst
  have hd := h.dispatched hp hst hlo hhi
  have hend := K.ptable_end
  have hboot := K.boot_outside
  have hother {q : ℕ} (hq : q < nproc) (hne : q ≠ p) :
      Mem.SameOn (K.proc q) (K.proc q + 8) c.mem c'.mem := by
    have hapart := proc_apart (K := K) hne
    have hle := proc_le (K := K) hq
    have hbase : K.ptable ≤ K.proc q := Nat.le_add_right _ _
    rw [hmem]
    refine hd.frame _ _ ?_ ?_ ?_ ?_ <;>
      simp only [sizeofProc, sizeofPtable, callSwtchRoom, currentAddr] at * <;> omega
  have hlink : (K.schedContext c'.mem).toNat = c.sp - callSwtchRoom := by rw [hmem, hd.link]
  constructor
  · exact h.le
  · intro q hq hlt'
    exact (state_congr ((hother hlt' (by omega)).mono (le_refl _) (by omega))).trans
      (h.unused q hq hlt')
  · intro q hq hne
    have hqp : q ≠ p := fun heq => hne (heq ▸ rfl)
    exact (h.ready q hq (looking_ne_task _ _)).congr (hother (hq.trans_le h.le) hqp)
  · refine ⟨hlt, ?_, ?_, ?_, ?_⟩
    · rw [hmem, hd.state]
    · rw [hmem, hd.current]
    · rw [hlink]
      omega
    · rw [hlink, sizeofContext]
      rw [callSwtchRoom] at *
      omega

theorem sameOn_schedulerReturn {d : Cpu} (hp : p < nproc) {lo hi : ℕ} (hhi : hi ≤ 2 ^ 32)
    (hst : hi ≤ K.proc p ∨ K.proc p + 4 ≤ lo) (hcur : hi ≤ K.currentAddr ∨ K.currentAddr + 4 ≤ lo) :
    Mem.SameOn lo hi d.mem (schedulerReturn K p d).mem := by
  have hend := K.ptable_end
  have hle := proc_le (K := K) hp
  rw [sizeofPtable] at hend
  refine (Mem.sameOn_store32 _ _ ?_ hhi hst).trans (Mem.sameOn_store32 _ _ ?_ hhi hcur) <;>
    simp only [currentAddr, sizeofProc] at * <;> omega

theorem SchedInv.yield {c : Cpu} {n : ℕ} (h : SchedInv K ⟨c, .task p⟩ n)
    (scratch : Reg → BitVec 32) (ra : BitVec 32) (hlo : K.stackLo p + yieldRoom K ≤ c.sp)
    (hhi : c.sp ≤ K.stackHi p) :
    SchedInv K ⟨schedulerReturn K p (yieldSwtch K scratch ra c), .looking (p + 1)⟩ n := by
  have hlt : p < n := h.place.1
  have hp : p < nproc := hlt.trans_le h.le
  have hy := h.yielded scratch ra hlo hhi
  have hend := K.ptable_end
  have hle := proc_le (K := K) hp
  have hother {q : ℕ} (hq : q < nproc) (hne : q ≠ p) : Mem.SameOn (K.proc q) (K.proc q + 8) c.mem
      (schedulerReturn K p (yieldSwtch K scratch ra c)).mem := by
    have hapart := proc_apart (K := K) hne
    have hqle := proc_le (K := K) hq
    refine (hy.frame _ _ ?_ ?_ ?_).trans (sameOn_schedulerReturn hp ?_ ?_ ?_) <;>
      simp only [sizeofProc, sizeofPtable, currentAddr, stackLo, stackHi] at * <;> omega
  have hready : SlotReady K (schedulerReturn K p (yieldSwtch K scratch ra c)).mem p := by
    have hcontext : K.context (schedulerReturn K p (yieldSwtch K scratch ra c)).mem p =
        K.context (yieldSwtch K scratch ra c).mem p := by
      refine context_congr (sameOn_schedulerReturn hp ?_ ?_ ?_) <;>
        simp only [sizeofProc, sizeofPtable, currentAddr] at * <;> omega
    refine ⟨?_, ?_, ?_⟩
    · refine (Mem.load32_store32_outside _ _ ?_ ?_ ?_).trans (Mem.load32_store32 _ _ _) <;>
        simp only [sizeofProc, sizeofPtable, currentAddr, stateAddr] at * <;> omega
    · rw [hcontext, hy.link]
      omega
    · rw [hcontext, hy.link, yieldRoom, sizeofContext, callSwtchRoom]
      rw [yieldRoom, callSwtchRoom] at hlo
      omega
  constructor
  · exact h.le
  · intro q hq hq'
    exact (state_congr ((hother hq' (by omega)).mono (le_refl _) (by omega))).trans
      (h.unused q hq hq')
  · intro q hq _
    by_cases hqp : q = p
    · rw [hqp]
      exact hready
    · have hne : SchedPlace.task p ≠ .task q := fun heq => hqp (SchedPlace.task.inj heq).symm
      exact (h.ready q hq hne).congr (hother (hq.trans_le h.le) hqp)
  · exact ⟨hp, Mem.load32_store32 _ _ _⟩

theorem SchedInv.start {c : Cpu} {n : ℕ} (h : SchedInv K ⟨c, .kmain⟩ n) : SchedInv K
    ⟨{ c with mem := c.mem.store32 K.schedContextAddr K.schedulerContext }, .looking 0⟩ n := by
  have hend := K.ptable_end
  have hsame {lo hi : ℕ} (hhi : hi ≤ K.schedContextAddr) :
      Mem.SameOn lo hi c.mem (c.mem.store32 K.schedContextAddr K.schedulerContext) := by
    rw [schedContextAddr, sizeofPtable] at *
    exact Mem.sameOn_store32 _ _ (by omega) (by omega) (Or.inl hhi)
  have hproc {p : ℕ} (hp : p < nproc) : K.proc p + 8 ≤ K.schedContextAddr := by
    have hle := proc_le (K := K) hp
    rw [currentAddr, sizeofProc] at hle
    rw [schedContextAddr]
    omega
  constructor
  · exact h.le
  · exact fun p hn hp =>
      (state_congr (hsame (by have := hproc hp; omega))).trans (h.unused p hn hp)
  · exact fun p hp _ => (h.ready p hp kmain_ne_task).congr (hsame (hproc (hp.trans_le h.le)))
  · exact ⟨Nat.zero_le _, (current_congr (hsame (le_refl _))).trans h.place⟩

/-- The invariant when the loop alone has moved on. -/
theorem SchedInv.move {c : Cpu} {n p p' : ℕ} (h : SchedInv K ⟨c, .looking p⟩ n) (hp : p' ≤ nproc) :
    SchedInv K ⟨c, .looking p'⟩ n where
  le := h.le
  unused := h.unused
  ready q hq _ := h.ready q hq (looking_ne_task _ _)
  place := ⟨hp, h.place.2⟩

theorem toInt_slot (hp : p < nproc) : (BitVec.ofNat 32 p).toInt = p := by
  have hnat : (BitVec.ofNat 32 p).toNat = p := toNat_ofNat_small (by rw [nproc] at hp; omega)
  rw [BitVec.toInt_eq_toNat_of_lt (by rw [hnat]; rw [nproc] at hp; omega), hnat]

theorem current_nonneg {c : Cpu} {n : ℕ} (h : SchedInv K ⟨c, .task p⟩ n) :
    0 ≤ (K.current c.mem).toInt := by
  obtain ⟨hlt, -, hcurrent, -⟩ := h.place
  rw [hcurrent, toInt_slot (hlt.trans_le h.le)]
  exact Int.natCast_nonneg p

theorem SchedInv.kept {c c' : Cpu} {place : SchedPlace} {n : ℕ} (h : SchedInv K ⟨c, place⟩ n)
    (hsame : Mem.SameOn K.ptable (K.ptable + sizeofPtable) c.mem c'.mem) :
    SchedInv K ⟨c', place⟩ n := by
  refine h.congr (fun p hp => hsame.mono (Nat.le_add_right _ _) ?_) (hsame.mono ?_ ?_)
  · have hle := proc_le (K := K) hp
    simp only [currentAddr, sizeofProc, sizeofPtable] at *
    omega
  · exact Nat.le_add_right _ _
  · rw [currentAddr, sizeofPtable]

theorem SchedInv.taskWork {c c' : Cpu} {n : ℕ} (h : SchedInv K ⟨c, .task p⟩ n)
    (hwork : TaskWork K p c.mem c'.mem) : SchedInv K ⟨c', .task p⟩ n := by
  have hp : p < nproc := h.place.1.trans_le h.le
  have hle := proc_le (K := K) hp
  refine h.congr (fun q hq => ?_) (hwork.above.mono ?_ ?_)
  · have hqle := proc_le (K := K) hq
    have hbase : K.ptable ≤ K.proc q := Nat.le_add_right _ _
    have hcases : K.proc q + 8 ≤ K.stackLo p ∨ K.stackHi p ≤ K.proc q := by
      rw [stackLo, stackHi]
      by_cases heq : q = p
      · rw [heq]
        omega
      · have hapart := proc_apart (K := K) heq
        rw [sizeofProc] at *
        omega
    rcases hcases with hlow | hhigh
    · exact hwork.below.mono hbase hlow
    · refine hwork.above.mono hhigh ?_
      simp only [currentAddr, sizeofProc, sizeofPtable] at *
      omega
  · exact hle
  · rw [currentAddr, sizeofPtable]

theorem schedStep_inv {M M' : SchedMachine} {e : SchedEvent} {n : ℕ} (h : SchedInv K M n)
    (hstep : SchedStep K M e M') : ∃ n', n ≤ n' ∧ SchedInv K M' n' := by
  cases hstep with
  | kmainWork hsame => exact ⟨n, le_refl n, h.kept hsame⟩
  | loopWork hsame => exact ⟨n, le_refl n, h.kept hsame⟩
  | taskWork hwork => exact ⟨n, le_refl n, h.taskWork hwork⟩
  | @spawn c place fn hplace =>
      rcases h.le.lt_or_eq with hlt | rfl
      · refine ⟨n + 1, Nat.le_succ n, h.spawn hlt fn ?_⟩
        rw [taskLSpawn_of_lt h hlt fn]
      · refine ⟨nproc, le_refl _, h.kept ?_⟩
        rw [taskLSpawn_of_full h fn]
        exact Mem.SameOn.refl _ _ _
  | start => exact ⟨n, le_refl n, h.start⟩
  | skip hp _ => exact ⟨n, le_refl n, h.move hp⟩
  | wrap => exact ⟨n, le_refl n, h.move (Nat.zero_le _)⟩
  | dispatch hp hst hlo hhi =>
      exact ⟨n, le_refl n, h.dispatch hp hst hlo hhi (mem_taskResume _)⟩
  | yieldIdle hneg => exact absurd hneg (not_lt.mpr (current_nonneg h))
  | yield scratch _ hlo hhi => exact ⟨n, le_refl n, h.yield scratch _ hlo hhi⟩

theorem schedRun_inv {M M' : SchedMachine} {es : List SchedEvent} {n : ℕ} (h : SchedInv K M n)
    (hrun : SchedRun K M es M') : ∃ n', n ≤ n' ∧ SchedInv K M' n' := by
  induction hrun with
  | nil => exact ⟨n, le_refl n, h⟩
  | step _ hstep ih =>
      obtain ⟨n', hle, hinv⟩ := ih
      obtain ⟨n'', hle', hinv'⟩ := schedStep_inv hinv hstep
      exact ⟨n'', hle.trans hle', hinv'⟩

theorem schedReachable_inv {M : SchedMachine} (h : SchedReachable K M) : ∃ n, SchedInv K M n := by
  obtain ⟨c, es, hrun⟩ := h
  obtain ⟨n, -, hinv⟩ := schedRun_inv (schedStart_inv c) hrun
  exact ⟨n, hinv⟩

end System44
