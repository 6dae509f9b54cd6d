import System44.ForLoop
import System44.Ia32Stack

/-!
# Interrupt entry

The gates that `int_init` sets up, what the processor pushes when it goes through one, and the stubs
behind them, instruction by instruction. The C functions that the stubs call are compiled code: what
they do is a parameter, which is held to the calling convention.
-/

namespace System44

open Ia32

structure Processor extends Cpu where
  cs : BitVec 16
  eflags : BitVec 32

def Processor.onCpu (p : Processor) (f : Cpu → Cpu) : Processor := { p with toCpu := f p.toCpu }

/-- `idt_entry_t`. -/
structure IdtEntry where
  offsetLow : BitVec 16
  selector : BitVec 16
  zero : BitVec 8
  typeAttr : BitVec 8
  offsetHigh : BitVec 16

/-- The labels of the stubs. -/
inductive Stub
  | isrDefault | isr0 | irq0 | irq1 | syscall
  deriving DecidableEq

def setgate (idt : ℕ → IdtEntry) (n : BitVec 8) (handler : BitVec 32) : ℕ → IdtEntry :=
  Function.update idt n.toNat
    ⟨(handler &&& 0xFFFF#32).setWidth 16, 0x08#16, 0#8, 0x8E#8,
      (handler >>> 16 &&& 0xFFFF#32).setWidth 16⟩

/-- The gates after `int_init`, for stubs at these addresses. -/
def intInit (addr : Stub → BitVec 32) (idt : ℕ → IdtEntry) : ℕ → IdtEntry :=
  let idt := forUp 256 (fun i idt => setgate idt (BitVec.ofNat 8 i) (addr .isrDefault)) idt
  let idt := setgate idt 0x00#8 (addr .isr0)
  let idt := setgate idt 0x20#8 (addr .irq0)
  let idt := setgate idt 0x21#8 (addr .irq1)
  setgate idt 0x80#8 (addr .syscall)

def IdtEntry.offset (g : IdtEntry) : BitVec 32 := g.offsetHigh ++ g.offsetLow

/-- The exceptions with an error code. -/
def DefinesErrorCode (vector : ℕ) : Prop := vector ∈ [8, 10, 11, 12, 13, 14, 17, 21, 29, 30]

instance (vector : ℕ) : Decidable (DefinesErrorCode vector) := inferInstanceAs (Decidable (_ ∈ _))

/-- The processor goes through an interrupt gate: it pushes where it was, and the error code if
there is one, and clears IF, TF, NT, RF and VM. -/
def deliver (g : IdtEntry) (err : Option (BitVec 32)) (p : Processor) : Processor where
  toCpu :=
    { p.toCpu.pushWords ([p.eflags, p.cs.setWidth 32, p.eip] ++ err.toList) with eip := g.offset }
  cs := g.selector
  eflags := p.eflags &&& ~~~0x34300#32

/-- The C functions that are called. -/
inductive Handler
  | isr0h | irq0h | irq1h | syscallh

/-- From the first instruction of the function to the one behind its return, if it returns. -/
abbrev Handlers := Handler → Processor → Option Processor

inductive StubInstr
  | pusha
  | popa
  | iret
  | pushl (v : BitVec 32)
  | push (r : Reg)
  | pop (r : Reg)
  | addlEsp (n : BitVec 32)
  | call (f : Handler)

def Stub.code : Stub → List StubInstr
  | isrDefault => [.pusha, .popa, .iret]
  | isr0 => [.pusha, .pushl 0#32, .call .isr0h, .addlEsp 4#32, .popa, .iret]
  | irq0 => [.pusha, .call .irq0h, .popa, .iret]
  | irq1 => [.pusha, .call .irq1h, .popa, .iret]
  | syscall =>
    [.push .ebp, .push .edi, .push .esi, .push .edx, .push .ecx, .push .ebx, .push .eax,
      .call .syscallh, .addlEsp 16#32, .pop .esi, .pop .edi, .pop .ebp, .iret]

def addFlags (eflags a b : BitVec 32) : BitVec 32 :=
  let r := a + b
  let flag (bit : ℕ) (c : Bool) : BitVec 32 := if c then BitVec.twoPow 32 bit else 0#32
  eflags &&& ~~~0x8D5#32 ||| flag 0 (2 ^ 32 ≤ a.toNat + b.toNat) |||
    flag 2 ((List.range 8).countP r.getLsbD % 2 = 0) |||
    flag 4 (16 ≤ a.toNat % 16 + b.toNat % 16) ||| flag 6 (r = 0#32) ||| flag 7 r.msb |||
    flag 11 (a.msb = b.msb ∧ r.msb ≠ a.msb)

def stubExec (handlers : Handlers) (ret : BitVec 32) (p : Processor) : StubInstr → Option Processor
  | .pusha => some (p.onCpu pusha)
  | .popa => some (p.onCpu popa)
  | .iret => some
    { toCpu := { p.drop.drop.drop with eip := p.word 0 }
      cs := (p.word 1).setWidth 16
      eflags := p.word 2 }
  | .pushl v => some (p.onCpu (·.push v))
  | .push r => some (p.onCpu fun c => exec c (.push r))
  | .pop r => some (p.onCpu fun c => exec c (.pop r))
  | .addlEsp n => some
    { p.onCpu (fun c => exec c (.add n .esp)) with eflags := addFlags p.eflags (p.reg .esp) n }
  | .call f => handlers f (p.onCpu (·.push ret))

def runStub (handlers : Handlers) (ret : BitVec 32) (is : List StubInstr) (p : Processor) :
    Option Processor := is.foldlM (stubExec handlers ret) p

def stubAt (addr : Stub → BitVec 32) (eip : BitVec 32) : Option Stub :=
  [Stub.isrDefault, .isr0, .irq0, .irq1, .syscall].find? fun stub => addr stub = eip

/-- From the interrupted instruction to the one behind the `iret`. -/
def interrupt (addr : Stub → BitVec 32) (handlers : Handlers) (ret : BitVec 32) (idt : ℕ → IdtEntry)
    (vector : ℕ) (err : Option (BitVec 32)) (p : Processor) : Option Processor := do
  let p := deliver (idt vector) err p
  let stub ← stubAt addr p.eip
  runStub handlers ret stub.code p

/-- The number of arguments on the stack. -/
def Handler.args : Handler → ℕ
  | isr0h => 1
  | irq0h => 0
  | irq1h => 0
  | syscallh => 4

/-- The calling convention: the return address is popped, `ebx`, `esi`, `edi` and `ebp` are kept,
and so is what the stub and the processor have pushed, behind the arguments. -/
structure Cdecl (args : ℕ) (p p' : Processor) : Prop where
  esp : p'.reg .esp = p.reg .esp + 4#32
  saved : ∀ r ∈ [Reg.ebx, .esi, .edi, .ebp], p'.reg r = p.reg r
  kept : ∀ k, args ≤ k → k < 16 → p'.word k = p.word (k + 1)

/-- The interrupted code finds everything as it was, but for the result of a system call. -/
structure Transparent (vector : ℕ) (p p' : Processor) : Prop where
  eip : p'.eip = p.eip
  cs : p'.cs = p.cs
  eflags : p'.eflags = p.eflags
  regs : ∀ r, (vector = 0x80 → r ∉ [Reg.eax, .ecx, .edx]) → p'.reg r = p.reg r

def stubOf (vector : ℕ) : Stub :=
  if vector = 0x80 then .syscall
  else if vector = 0x21 then .irq1
  else if vector = 0x20 then .irq0
  else if vector = 0x00 then .isr0
  else .isrDefault

theorem append_halves (x : BitVec 32) :
    (x >>> 16 &&& 0xFFFF#32).setWidth 16 ++ (x &&& 0xFFFF#32).setWidth 16 = x := by
  apply BitVec.eq_of_toNat_eq
  have hx := x.isLt
  have hmask (n : ℕ) : n &&& (0xFFFF#32).toNat = n % 2 ^ 16 := Nat.and_two_pow_sub_one_eq_mod n 16
  simp only [BitVec.toNat_append, BitVec.toNat_setWidth, BitVec.toNat_and,
    BitVec.toNat_ushiftRight]
  rw [hmask, hmask, ← Nat.shiftLeft_add_eq_or_of_lt (by omega), Nat.shiftLeft_eq,
    Nat.shiftRight_eq_div_pow]
  omega

theorem setgate_offset (idt : ℕ → IdtEntry) (n : BitVec 8) (handler : BitVec 32) (vector : ℕ) :
    (setgate idt n handler vector).offset =
      if vector = n.toNat then handler else (idt vector).offset := by
  by_cases h : vector = n.toNat
  · rw [if_pos h, setgate, h, Function.update_self]
    exact append_halves handler
  · rw [if_neg h, setgate, Function.update_of_ne h]

theorem forUp_setgate_offset (idt : ℕ → IdtEntry) (handler : BitVec 32) {n vector : ℕ}
    (hn : n ≤ 256) (h : vector < n) :
    (forUp n (fun i idt => setgate idt (BitVec.ofNat 8 i) handler) idt vector).offset =
      handler := by
  induction n with
  | zero => exact absurd h (Nat.not_lt_zero vector)
  | succ n ih =>
      rw [forUp_succ, setgate_offset]
      split
      · rfl
      · rename_i hne
        rw [BitVec.toNat_ofNat, Nat.mod_eq_of_lt (by omega)] at hne
        exact ih (by omega) (by omega)

theorem intInit_offset (addr : Stub → BitVec 32) (idt : ℕ → IdtEntry) {vector : ℕ}
    (h : vector < 256) : (intInit addr idt vector).offset = addr (stubOf vector) := by
  simp only [intInit, setgate_offset, forUp_setgate_offset idt _ (Nat.le_refl 256) h, stubOf]
  split_ifs <;> first | rfl | contradiction

theorem stubAt_addr {addr : Stub → BitVec 32} (haddr : Function.Injective addr) (stub : Stub) :
    stubAt addr (addr stub) = some stub := by
  simp only [stubAt, haddr.eq_iff]
  cases stub <;> rfl

section

variable {p q : Processor} (handlers : Handlers) (ret : BitVec 32)

/-- `p` goes back to the code whose address, selector and flags lie on its stack. -/
structure Resumed (p p' : Processor) : Prop where
  eip : p'.eip = p.word 0
  cs : p'.cs = (p.word 1).setWidth 16
  eflags : p'.eflags = p.word 2
  esp : p'.reg .esp = p.reg .esp + 12#32

theorem iret_resumed (p : Processor) :
    ∃ p', stubExec handlers ret p .iret = some p' ∧ Resumed p p' ∧
      ∀ r, r ≠ .esp → p'.reg r = p.reg r := by
  refine ⟨_, rfl, ⟨rfl, rfl, rfl, ?_⟩, fun r hr => ?_⟩
  · simp [Cpu.drop_esp, BitVec.add_assoc]
  · simp [Cpu.drop_reg _ hr]

/-- The handler has returned to the stub, which pushed everything from `p` on. -/
structure CalledBack (args : ℕ) (p q : Processor) : Prop where
  esp : q.reg .esp = p.reg .esp
  saved : ∀ r ∈ [Reg.ebx, .esi, .edi, .ebp], q.reg r = p.reg r
  kept : ∀ k, args ≤ k → k < 16 → q.word k = p.word k

omit handlers in
theorem Cdecl.calledBack {ret : BitVec 32} {args : ℕ} (h : Cdecl args (p.onCpu (·.push ret)) q) :
    CalledBack args p q := by
  constructor
  · rw [h.esp]
    change (p.toCpu.push ret).reg .esp + 4#32 = _
    rw [Cpu.push_esp, BitVec.sub_add_cancel]
  · intro r hr
    have hne : r ≠ .esp := by
      rintro rfl
      exact absurd hr (by decide)
    rw [h.saved r hr]
    exact p.toCpu.push_reg ret hne
  · intro k hargs hk
    rw [h.kept k hargs hk]
    exact p.toCpu.word_push_succ ret (by omega)

theorem popa_iret (hesp : q.reg .esp = (pusha p.toCpu).reg .esp)
    (hkept : ∀ k < 11, q.word k = (pusha p.toCpu).word k) :
    ∃ p', runStub handlers ret [.popa, .iret] q = some p' ∧ Resumed p p' ∧
      ∀ r, r ≠ .esp → p'.reg r = p.reg r := by
  have hword {k : ℕ} (hk : k < 3) : (q.onCpu popa).word k = p.word k := by
    change (popa q.toCpu).word k = _
    rw [word_popa, hkept _ (by omega), Nat.add_comm, word_pusha_add _ (by omega)]
  have hsp : (q.onCpu popa).reg .esp = p.reg .esp := by
    change (popa q.toCpu).reg .esp = _
    rw [popa_esp, hesp, pusha_esp, BitVec.sub_add_cancel]
  obtain ⟨p', hiret, hresumed, hregs⟩ := iret_resumed handlers ret (q.onCpu popa)
  refine ⟨p', ?_, ⟨?_, ?_, ?_, ?_⟩, fun r hr => ?_⟩
  · exact hiret
  · rw [hresumed.eip, hword (by decide)]
  · rw [hresumed.cs, hword (by decide)]
  · rw [hresumed.eflags, hword (by decide)]
  · rw [hresumed.esp, hsp]
  · rw [hregs r hr]
    change (popa q.toCpu).reg r = _
    have hslot := slot_lt r
    rw [popa_reg _ hr, hkept _ (by omega), word_pusha]

variable {handlers ret} (hcdecl : ∀ f p p', handlers f p = some p' → Cdecl f.args p p')

include hcdecl

theorem CalledBack.of_call {f : Handler} {is : List StubInstr} {p' : Processor}
    (hrun : runStub handlers ret (.call f :: is) p = some p') :
    ∃ q, CalledBack f.args p q ∧ runStub handlers ret is q = some p' := by
  obtain ⟨q, hcall, hrest⟩ := Option.bind_eq_some_iff.mp hrun
  exact ⟨q, (hcdecl f _ q hcall).calledBack, hrest⟩

theorem irq_resumed {f : Handler} (hargs : f.args = 0) {p' : Processor}
    (hrun : runStub handlers ret [.pusha, .call f, .popa, .iret] p = some p') :
    Resumed p p' ∧ ∀ r, r ≠ .esp → p'.reg r = p.reg r := by
  obtain ⟨q, hback, hrest⟩ := CalledBack.of_call hcdecl (p := p.onCpu pusha) hrun
  rw [hargs] at hback
  obtain ⟨p'', hreturn, hresumed, hregs⟩ := popa_iret (p := p) (q := q) handlers ret hback.esp
    fun k hk => hback.kept k (Nat.zero_le k) (by omega)
  obtain rfl : p'' = p' := Option.some.inj (hreturn.symm.trans hrest)
  exact ⟨hresumed, hregs⟩

def syscallSaved : List Reg := [.ebp, .edi, .esi, .edx, .ecx, .ebx, .eax]

def syscallRestored (c : Cpu) : Cpu := run [.pop .esi, .pop .edi, .pop .ebp] c

omit hcdecl in
theorem syscallRestored_reg (c : Cpu) {r : Reg} (hesp : r ≠ .esp) :
    (syscallRestored c).reg r = match r with
      | .esi => c.word 0
      | .edi => c.word 1
      | .ebp => c.word 2
      | r => c.reg r := by
  cases r with
  | esp => exact absurd rfl hesp
  | _ =>
      simp [syscallRestored, run, exec, Cpu.set_of_ne, Cpu.drop_reg, Cpu.top_eq_word,
        Cpu.word_set, Cpu.word_drop]

omit hcdecl in
theorem syscallRestored_esp (c : Cpu) :
    (syscallRestored c).reg .esp = c.reg .esp + 12#32 := by
  simp [syscallRestored, run, exec, Cpu.set_of_ne, Cpu.drop_esp, BitVec.add_assoc]

omit hcdecl in
theorem word_syscallRestored (c : Cpu) (k : ℕ) :
    (syscallRestored c).word k = c.word (k + 3) := by
  simp [syscallRestored, run, exec, Cpu.word_set, Cpu.word_drop]

theorem isr0_resumed {p' : Processor} (hrun : runStub handlers ret Stub.isr0.code p = some p') :
    Resumed p p' ∧ ∀ r, r ≠ .esp → p'.reg r = p.reg r := by
  obtain ⟨q, hback, hrest⟩ := CalledBack.of_call hcdecl
    (p := (p.onCpu pusha).onCpu (·.push 0#32)) hrun
  have hesp : (q.set .esp (q.reg .esp + 4#32)).reg .esp = (pusha p.toCpu).reg .esp := by
    rw [Cpu.set_self, hback.esp]
    change ((pusha p.toCpu).push 0#32).reg .esp + 4#32 = _
    rw [Cpu.push_esp, BitVec.sub_add_cancel]
  have hkept (k : ℕ) (hk : k < 11) :
      (q.set .esp (q.reg .esp + 4#32)).word k = (pusha p.toCpu).word k := by
    have hshift := q.toCpu.word_set_esp 1 k
    rw [hshift.trans (hback.kept (k + 1) (Nat.succ_le_succ (Nat.zero_le k)) (by omega))]
    exact (pusha p.toCpu).word_push_succ 0#32 (by omega)
  obtain ⟨p'', hreturn, hresumed, hregs⟩ := popa_iret (p := p) (q :=
    { q.onCpu (fun c => exec c (.add 4#32 .esp)) with
      eflags := addFlags q.eflags (q.reg .esp) 4#32 })
    handlers ret hesp hkept
  obtain rfl : p'' = p' := Option.some.inj (hreturn.symm.trans hrest)
  exact ⟨hresumed, hregs⟩

theorem syscall_resumed {p' : Processor}
    (hrun : runStub handlers ret Stub.syscall.code p = some p') :
    Resumed p p' ∧ ∀ r, r ≠ .esp → r ∉ [Reg.eax, .ecx, .edx] → p'.reg r = p.reg r := by
  have hno : Reg.esp ∉ syscallSaved := by decide
  obtain ⟨q, hback, hrest⟩ := CalledBack.of_call hcdecl (p := p.onCpu (pushAll syscallSaved)) hrun
  have hframe {k : ℕ} (hk : k < 3) : q.word (7 + k) = p.word k := by
    rw [hback.kept _ (by rw [Handler.args]; omega) (by omega)]
    exact word_pushAll_add p.toCpu hno (show 7 + k < 2 ^ 30 by omega)
  have hsaved {k : ℕ} (hlo : 4 ≤ k) (hk : k < syscallSaved.length) :
      q.word k = p.reg syscallSaved[syscallSaved.length - 1 - k] := by
    have hlt : k < 7 := hk
    rw [hback.kept _ hlo (by omega)]
    exact word_pushAll p.toCpu hno (show 7 + k < 2 ^ 30 by omega) hk
  have hesp : q.reg .esp + 28#32 = p.reg .esp := by
    rw [hback.esp]
    change (pushAll syscallSaved p.toCpu).reg .esp + 28#32 = _
    rw [pushAll_esp _ hno]
    exact BitVec.sub_add_cancel _ _
  have hebx : q.reg .ebx = p.reg .ebx := hback.saved .ebx (by decide)
  -- the arguments are dropped, and the last three registers popped
  set v : Processor :=
    { q.onCpu (fun c => syscallRestored (exec c (.add 16#32 .esp))) with
      eflags := addFlags q.eflags (q.reg .esp) 16#32 } with hv
  have hdropped (k : ℕ) : (exec q.toCpu (.add 16#32 .esp)).word k = q.word (k + 4) :=
    q.toCpu.word_set_esp 4 k
  have hword {k : ℕ} (hk : k < 3) : v.word k = p.word k := by
    rw [← hframe hk, Nat.add_comm]
    exact (word_syscallRestored _ k).trans (hdropped (k + 3))
  have hvesp : v.reg .esp = p.reg .esp := by
    rw [← hesp]
    refine (syscallRestored_esp _).trans ?_
    change (q.set .esp (q.reg .esp + 16#32)).reg .esp + 12#32 = _
    rw [Cpu.set_self, BitVec.add_assoc]
    rfl
  obtain ⟨p'', hreturn, hresumed, hregs⟩ := iret_resumed handlers ret v
  obtain rfl : p'' = p' := Option.some.inj (hreturn.symm.trans hrest)
  refine ⟨⟨?_, ?_, ?_, ?_⟩, fun r hne hr => ?_⟩
  · rw [hresumed.eip, hword (by decide)]
  · rw [hresumed.cs, hword (by decide)]
  · rw [hresumed.eflags, hword (by decide)]
  · rw [hresumed.esp, hvesp]
  · rw [hregs r hne]
    refine (syscallRestored_reg _ hne).trans ?_
    cases r with
    | eax => exact absurd (by decide) hr
    | ecx => exact absurd (by decide) hr
    | edx => exact absurd (by decide) hr
    | esp => exact absurd rfl hne
    | ebx => exact (Cpu.set_of_ne _ _ (by decide)).trans hebx
    | esi => exact (hdropped 0).trans (hsaved (k := 4) (by decide) (by decide))
    | edi => exact (hdropped 1).trans (hsaved (k := 5) (by decide) (by decide))
    | ebp => exact (hdropped 2).trans (hsaved (k := 6) (by decide) (by decide))

omit hcdecl in
theorem isrDefault_resumed (handlers : Handlers) (ret : BitVec 32) (p : Processor) :
    ∃ p', runStub handlers ret Stub.isrDefault.code p = some p' ∧ Resumed p p' ∧
      ∀ r, r ≠ .esp → p'.reg r = p.reg r :=
  popa_iret (p := p) (q := p.onCpu pusha) handlers ret rfl fun _ _ => rfl

/-- Whatever stub is entered, it goes on with what lies on top of the stack. -/
theorem stub_resumed {stub : Stub} {p' : Processor}
    (hrun : runStub handlers ret stub.code p = some p') :
    Resumed p p' ∧ ∀ r, r ≠ .esp → (stub = .syscall → r ∉ [Reg.eax, .ecx, .edx]) →
      p'.reg r = p.reg r := by
  cases stub with
  | isrDefault =>
      obtain ⟨p'', hreturn, hresumed, hregs⟩ := isrDefault_resumed handlers ret p
      obtain rfl : p'' = p' := Option.some.inj (hreturn.symm.trans hrun)
      exact ⟨hresumed, fun r hr _ => hregs r hr⟩
  | isr0 =>
      obtain ⟨hresumed, hregs⟩ := isr0_resumed hcdecl hrun
      exact ⟨hresumed, fun r hr _ => hregs r hr⟩
  | irq0 =>
      obtain ⟨hresumed, hregs⟩ := irq_resumed hcdecl rfl hrun
      exact ⟨hresumed, fun r hr _ => hregs r hr⟩
  | irq1 =>
      obtain ⟨hresumed, hregs⟩ := irq_resumed hcdecl rfl hrun
      exact ⟨hresumed, fun r hr _ => hregs r hr⟩
  | syscall =>
      obtain ⟨hresumed, hregs⟩ := syscall_resumed hcdecl hrun
      exact ⟨hresumed, fun r hr hno => hregs r hr (hno rfl)⟩

end

section

theorem deliver_reg (g : IdtEntry) (err : Option (BitVec 32)) (p : Processor) {r : Reg}
    (h : r ≠ .esp) : (deliver g err p).reg r = p.reg r := Cpu.pushWords_reg h

theorem deliver_esp (g : IdtEntry) (err : Option (BitVec 32)) (p : Processor) :
    (deliver g err p).reg .esp = p.reg .esp - BitVec.ofNat 32 (4 * (3 + err.toList.length)) := by
  refine (Cpu.pushWords_esp _ p.toCpu).trans ?_
  rw [List.length_append]
  rfl

theorem deliver_word (g : IdtEntry) (p : Processor) : (deliver g none p).word 0 = p.eip ∧
    (deliver g none p).word 1 = p.cs.setWidth 32 ∧ (deliver g none p).word 2 = p.eflags := by
  have hword {k : ℕ} (hk : k < 3) : (deliver g none p).word k =
      [p.eflags, p.cs.setWidth 32, p.eip][3 - 1 - k] :=
    Cpu.word_pushWords [p.eflags, p.cs.setWidth 32, p.eip] p.toCpu (by simp) hk
  exact ⟨hword (by decide), hword (by decide), hword (by decide)⟩

theorem deliver_word_err (g : IdtEntry) (err : BitVec 32) (p : Processor) :
    (deliver g (some err) p).word 0 = err :=
  Cpu.word_push_zero (p.pushWords [p.eflags, p.cs.setWidth 32, p.eip]) err

variable {addr : Stub → BitVec 32} (haddr : Function.Injective addr) {handlers : Handlers}
  {ret : BitVec 32} (idt : ℕ → IdtEntry) {vector : ℕ} (hvector : vector < 256)

include haddr hvector

theorem interrupt_eq (err : Option (BitVec 32)) (p : Processor) :
    interrupt addr handlers ret (intInit addr idt) vector err p =
      runStub handlers ret (stubOf vector).code (deliver (intInit addr idt vector) err p) := by
  have hstub :
      stubAt addr (deliver (intInit addr idt vector) err p).eip = some (stubOf vector) := by
    rw [← stubAt_addr haddr, ← intInit_offset addr idt hvector]
    rfl
  rw [interrupt, hstub]
  rfl

/-- An interrupt is transparent exactly when the processor pushes no error code, which no stub takes
off the stack. -/
theorem interrupt_transparent_iff
    (hcdecl : ∀ f p p', handlers f p = some p' → Cdecl f.args p p') {err : Option (BitVec 32)}
    (herr : err.isSome ↔ DefinesErrorCode vector) {p' : Processor}
    (hrun : interrupt addr handlers ret (intInit addr idt) vector err p = some p') :
    Transparent vector p p' ↔ ¬ DefinesErrorCode vector := by
  rw [interrupt_eq haddr idt hvector] at hrun
  obtain ⟨hresumed, hregs⟩ := stub_resumed hcdecl hrun
  rw [← herr]
  cases err with
  | some e =>
      refine iff_of_false (fun h => ?_) (not_not_intro rfl)
      have hesp := h.regs .esp fun _ => by decide
      rw [hresumed.esp, deliver_esp] at hesp
      have hnat := congrArg BitVec.toNat hesp
      simp only [BitVec.toNat_add, BitVec.toNat_sub, Option.toList, List.length_singleton,
        BitVec.toNat_ofNat] at hnat
      omega
  | none =>
      refine iff_of_true ?_ (by decide)
      obtain ⟨heip, hcs, heflags⟩ := deliver_word (intInit addr idt vector) p
      refine ⟨?_, ?_, ?_, fun r hr => ?_⟩
      · rw [hresumed.eip, heip]
      · rw [hresumed.cs, hcs, BitVec.setWidth_setWidth_of_le _ (by decide), BitVec.setWidth_eq]
      · rw [hresumed.eflags, heflags]
      · by_cases hesp : r = .esp
        · rw [hesp, hresumed.esp, deliver_esp]
          exact BitVec.sub_add_cancel _ _
        · rw [hregs r hesp fun hstub => hr ?_, deliver_reg _ _ _ hesp]
          by_contra hne
          rw [stubOf, if_neg hne] at hstub
          repeat' split at hstub
          all_goals cases hstub

end

/-- The stubs 16 bytes apart. -/
def demoAddr : Stub → BitVec 32
  | .isrDefault => 0x9000#32
  | .isr0 => 0x9010#32
  | .irq0 => 0x9020#32
  | .irq1 => 0x9030#32
  | .syscall => 0x9040#32

theorem demoAddr_injective : Function.Injective demoAddr := by
  intro a b h
  revert h
  cases a <;> cases b <;> decide

/-- Functions that return at once, but for the one that panics. -/
def demoHandlers : Handlers
  | .isr0h, _ => none
  | _, p => some { p.onCpu Cpu.drop with eip := p.word 0 }

theorem demoHandlers_cdecl (f : Handler) (p p' : Processor) (h : demoHandlers f p = some p') :
    Cdecl f.args p p' := by
  have hreturn : p' = { p.onCpu Cpu.drop with eip := p.word 0 } := by
    cases f with
    | isr0h => cases h
    | _ => exact (Option.some.inj h).symm
  rw [hreturn]
  refine ⟨p.toCpu.drop_esp, fun r hr => p.toCpu.drop_reg ?_, fun k _ _ => p.toCpu.word_drop k⟩
  rintro rfl
  exact absurd hr (by decide)

/-- The processor in the kernel, with interrupts enabled. -/
def demoProcessor : Processor where
  reg r := if r = .esp then 0x8F000#32 else 7#32
  eip := 0x12345#32
  mem := ⟨fun _ => 0#8, []⟩
  cs := 0x08#16
  eflags := 0x202#32

def demoIdt : ℕ → IdtEntry := intInit demoAddr fun _ => ⟨0#16, 0#16, 0#8, 0#8, 0#16⟩

/-- A key is pressed. -/
theorem keyboard_transparent :
    ∃ p', interrupt demoAddr demoHandlers 0x9037#32 demoIdt 0x21 none demoProcessor = some p' ∧
      Transparent 0x21 demoProcessor p' := by
  have hrun : ∃ p', interrupt demoAddr demoHandlers 0x9037#32 demoIdt 0x21 none demoProcessor =
      some p' := ⟨_, interrupt_eq demoAddr_injective _ (by decide) none demoProcessor⟩
  obtain ⟨p', hrun⟩ := hrun
  exact ⟨p', hrun, (interrupt_transparent_iff demoAddr_injective _ (by decide) demoHandlers_cdecl
    (by decide) hrun).mpr (by decide)⟩

/-- A general protection fault: the `iret` takes the error code for the address to go on at. -/
theorem protectionFault_not_transparent :
    ∃ p', interrupt demoAddr demoHandlers 0#32 demoIdt 13 (some 0x18#32) demoProcessor = some p' ∧
      p'.eip = 0x18#32 ∧ ¬ Transparent 13 demoProcessor p' := by
  obtain ⟨p', hreturn, hresumed, -⟩ := isrDefault_resumed demoHandlers 0#32
    (deliver (demoIdt 13) (some 0x18#32) demoProcessor)
  have heip : p'.eip = 0x18#32 := hresumed.eip.trans (deliver_word_err _ _ _)
  refine ⟨p', ?_, heip, fun h => ?_⟩
  · rw [demoIdt, interrupt_eq demoAddr_injective _ (by decide)]
    exact hreturn
  · exact absurd (heip.symm.trans h.eip) (by decide)

end System44
