import System44.Swtch
import System44.RoundRobin

/-!
# The cooperative scheduler

The process table in memory, `task_l_spawn`, the loop of `m_scheduler` and `yield`, on a machine
whose steps are those of the kernel before the loop, of the loop and of the task that runs. What
the compiler and the linker decide is a parameter: the addresses of the objects, the return
addresses of the two calls of `swtch`, and the frame of `yield`.
-/

namespace System44

open Ia32

def nproc : ℕ := 8

def sizeofProc : ℕ := 4104

def sizeofPtable : ℕ := 32840

/-- `UNUSED`, `RUNNABLE` and `RUNNING`. -/
def unused : BitVec 32 := 0#32

def runnable : BitVec 32 := 1#32

def running : BitVec 32 := 2#32

/-- The addresses of `ptable`, of the static `scheduler_context` and of the stack that `m_scheduler`
runs on, and the compiled code of `yield` and of the call in `m_scheduler`. -/
structure SchedImage where
  ptable : ℕ
  schedulerContext : BitVec 32
  bootLo : ℕ
  bootHi : ℕ
  schedulerRet : BitVec 32
  yieldRet : BitVec 32
  yieldSaves : List Reg
  yieldPad : ℕ
  ptable_end : ptable + sizeofPtable ≤ 2 ^ 32
  boot_end : bootHi < 2 ^ 32
  boot_outside : bootHi ≤ ptable ∨ ptable + sizeofPtable ≤ bootLo
  esp_not_saved : Reg.esp ∉ yieldSaves

namespace SchedImage

variable (K : SchedImage)

/-- `&ptable.proc[p]`. -/
def proc (p : ℕ) : ℕ := K.ptable + sizeofProc * p

def stateAddr (p : ℕ) : ℕ := K.proc p

def contextAddr (p : ℕ) : ℕ := K.proc p + 4

def stackLo (p : ℕ) : ℕ := K.proc p + 8

def stackHi (p : ℕ) : ℕ := K.proc p + sizeofProc

def currentAddr : ℕ := K.ptable + 32832

def schedContextAddr : ℕ := K.ptable + 32836

def state (m : Mem) (p : ℕ) : BitVec 32 := m.load32 (K.stateAddr p)

def context (m : Mem) (p : ℕ) : BitVec 32 := m.load32 (K.contextAddr p)

def current (m : Mem) : BitVec 32 := m.load32 K.currentAddr

def schedContext (m : Mem) : BitVec 32 := m.load32 K.schedContextAddr

def usedSlots (m : Mem) : List ℕ := (List.range nproc).filter fun p => K.state m p ≠ unused

end SchedImage

variable (K : SchedImage)

def schedInitStates (m : Mem) : ℕ → Mem
  | 0 => m
  | p + 1 => (schedInitStates m p).store32 (K.stateAddr p) unused

def schedInit (m : Mem) : Mem :=
  ((schedInitStates K m nproc).store32 K.currentAddr (-1#32)).store32 K.schedContextAddr 0#32

def firstUnused (m : Mem) : Option ℕ := (List.range nproc).find? fun p => K.state m p = unused

/-- `sp` when it becomes the context: `sizeof(struct context)` is subtracted from a pointer to
words. -/
def spawnContext (p : ℕ) : ℕ := K.stackLo p + 4 * (1023 - 1 - 1 - sizeofContext)

/-- The part of `task_l_spawn` behind `found`. -/
def spawnSlot (m : Mem) (p : ℕ) (fn : BitVec 32) : Mem :=
  let m := m.store32 (K.stackLo p + 4 * 1022) fn
  let m := m.store32 (K.stackLo p + 4 * 1021) 0#32
  let m := m.store32 (K.contextAddr p) (BitVec.ofNat 32 (spawnContext K p))
  let m := m.store32 (spawnContext K p + 12) 0#32
  let m := m.store32 (spawnContext K p + 8) 0#32
  let m := m.store32 (spawnContext K p + 4) 0#32
  let m := m.store32 (spawnContext K p) 0#32
  let m := m.store32 (spawnContext K p + 16) fn
  m.store32 (K.stateAddr p) runnable

def taskLSpawn (m : Mem) (fn : BitVec 32) : ℤ × Mem :=
  match firstUnused K m with
  | none => (-1, m)
  | some p => (p, spawnSlot K m p fn)

/-- The turn of slot `p` in `m_scheduler`, up to where `swtch` jumps. -/
def schedulerSwtch (p : ℕ) (c : Cpu) : Cpu :=
  let m := (c.mem.store32 K.currentAddr (BitVec.ofNat 32 p)).store32 (K.stateAddr p) running
  callSwtch (BitVec.ofNat 32 K.schedContextAddr) (K.context m p) K.schedulerRet { c with mem := m }

/-- `m_scheduler` after the call: the arguments are dropped and the slot is put back. -/
def schedulerReturn (p : ℕ) (c : Cpu) : Cpu :=
  { c.set .esp (c.reg .esp + 8#32) with
    mem := (c.mem.store32 (K.stateAddr p) runnable).store32 K.currentAddr (-1#32) }

def yieldBody (scratch : Reg → BitVec 32) (c : Cpu) : Cpu :=
  { c with reg := fun r =>
      if r ∈ K.yieldSaves ∨ r = .eax ∨ r = .ecx ∨ r = .edx then scratch r else c.reg r }

/-- A call of `yield` that returns to `ra`, as far as the call of `swtch`. -/
def yieldEnter (scratch : Reg → BitVec 32) (ra : BitVec 32) (c : Cpu) : Cpu :=
  let c := pushAll K.yieldSaves (c.push ra)
  yieldBody K scratch (c.set .esp (c.reg .esp - BitVec.ofNat 32 (4 * K.yieldPad)))

/-- `yield` with `ptable.current` at least 0, up to where `swtch` jumps. -/
def yieldSwtch (scratch : Reg → BitVec 32) (ra : BitVec 32) (c : Cpu) : Cpu :=
  let p := (K.current c.mem).toNat
  let c := yieldEnter K scratch ra c
  let m := c.mem.store32 (K.stateAddr p) runnable
  callSwtch (BitVec.ofNat 32 (K.contextAddr p)) (K.schedContext m) K.yieldRet { c with mem := m }

/-- The rest of `yield`: drop the arguments and the padding, restore the registers, return. -/
def yieldReturn (c : Cpu) : Cpu :=
  exec (popAll K.yieldSaves (c.set .esp (c.reg .esp + BitVec.ofNat 32 (8 + 4 * K.yieldPad)))) .ret

/-- The task of a slot from where `swtch` jumps: it starts, or `yield` returns to it. -/
def taskResume (c : Cpu) : Cpu := if c.eip = K.yieldRet then yieldReturn K c else c

/-- The stack that `yield` and `swtch` need. -/
def yieldRoom : ℕ := 4 + 4 * K.yieldSaves.length + 4 * K.yieldPad + callSwtchRoom

/-- Which code runs: that before the loop, the loop with `p` at a slot, or a task while `p` of the
loop is at a slot. -/
inductive SchedPlace
  | kmain
  | looking (p : ℕ)
  | task (p : ℕ)
  deriving DecidableEq

structure SchedMachine where
  cpu : Cpu
  place : SchedPlace

inductive SchedEvent
  | work
  | spawn (fn : BitVec 32) (r : ℤ)
  | start
  | scan
  | dispatch (turn : RoundRobin.Turn)
  | yield (p : ℕ) (ra : BitVec 32)

/-- A task leaves the table alone, apart from its own stack, and the stack of the loop. -/
structure TaskWork (p : ℕ) (m m' : Mem) : Prop where
  below : Mem.SameOn K.ptable (K.stackLo p) m m'
  above : Mem.SameOn (K.stackHi p) (K.ptable + sizeofPtable) m m'
  boot : Mem.SameOn K.bootLo K.bootHi m m'

inductive SchedStep : SchedMachine → SchedEvent → SchedMachine → Prop
  | kmainWork {c c' : Cpu} : Mem.SameOn K.ptable (K.ptable + sizeofPtable) c.mem c'.mem →
      SchedStep ⟨c, .kmain⟩ .work ⟨c', .kmain⟩
  | loopWork {c c' : Cpu} {p : ℕ} : Mem.SameOn K.ptable (K.ptable + sizeofPtable) c.mem c'.mem →
      SchedStep ⟨c, .looking p⟩ .work ⟨c', .looking p⟩
  | taskWork {c c' : Cpu} {p : ℕ} : TaskWork K p c.mem c'.mem →
      SchedStep ⟨c, .task p⟩ .work ⟨c', .task p⟩
  | spawn {c : Cpu} {place : SchedPlace} {fn : BitVec 32} : (∀ p, place ≠ .looking p) →
      SchedStep ⟨c, place⟩ (.spawn fn (taskLSpawn K c.mem fn).1)
        ⟨{ c.set .eax (BitVec.ofInt 32 (taskLSpawn K c.mem fn).1) with
          mem := (taskLSpawn K c.mem fn).2 }, place⟩
  | start {c : Cpu} : SchedStep ⟨c, .kmain⟩ .start
      ⟨{ c with mem := c.mem.store32 K.schedContextAddr K.schedulerContext }, .looking 0⟩
  | skip {c : Cpu} {p : ℕ} : p < nproc → K.state c.mem p ≠ runnable →
      SchedStep ⟨c, .looking p⟩ .scan ⟨c, .looking (p + 1)⟩
  | wrap {c : Cpu} : SchedStep ⟨c, .looking nproc⟩ .scan ⟨c, .looking 0⟩
  | dispatch {c : Cpu} {p : ℕ} : p < nproc → K.state c.mem p = runnable →
      K.bootLo + callSwtchRoom ≤ c.sp → c.sp ≤ K.bootHi →
      SchedStep ⟨c, .looking p⟩ (.dispatch ⟨p, K.usedSlots c.mem⟩)
        ⟨taskResume K (schedulerSwtch K p c), .task p⟩
  | yieldIdle {c : Cpu} {p : ℕ} {ra : BitVec 32} : (K.current c.mem).toInt < 0 →
      SchedStep ⟨c, .task p⟩ (.yield p ra) ⟨exec (c.push ra) .ret, .task p⟩
  | yield {c : Cpu} {p : ℕ} {ra : BitVec 32} (scratch : Reg → BitVec 32) :
      0 ≤ (K.current c.mem).toInt → K.stackLo p + yieldRoom K ≤ c.sp → c.sp ≤ K.stackHi p →
      SchedStep ⟨c, .task p⟩ (.yield p ra)
        ⟨schedulerReturn K p (yieldSwtch K scratch ra c), .looking (p + 1)⟩

/-- The machine when `sched_init` has returned to `kmain`. -/
def schedStart (c : Cpu) : SchedMachine := ⟨{ c with mem := schedInit K c.mem }, .kmain⟩

inductive SchedRun (M : SchedMachine) : List SchedEvent → SchedMachine → Prop
  | nil : SchedRun M [] M
  | step {es : List SchedEvent} {M' M'' : SchedMachine} {e : SchedEvent} :
      SchedRun M es M' → SchedStep K M' e M'' → SchedRun M (es ++ [e]) M''

def SchedReachable (M : SchedMachine) : Prop := ∃ c es, SchedRun K (schedStart K c) es M

end System44
