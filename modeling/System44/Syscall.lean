import System44.Interrupts

/-!
# System calls

A program puts the number of the call in `eax` and the arguments in `ebx`, `ecx` and `edx`. The stub
pushes them for `syscallh`, and its result comes back in `eax`.
-/

namespace System44

open Ia32

/-- What `syscallh` prints and what it returns; the case of 0 goes on into that of 1. -/
def syscallh (num _arg1 _arg2 _arg3 : BitVec 32) : String × BitVec 32 :=
  if num = 0#32 then ("syscall 0 (just a test)" ++ "syscall 1 (another test)", -1#32)
  else if num = 1#32 then ("syscall 1 (another test)", -1#32)
  else ("", -1#32)

section

variable {handlers : Handlers} {ret : BitVec 32} {p p' : Processor}

/-- Where the stub calls `syscallh`, the arguments are the registers, and what it leaves in `eax` is
there behind the stub. -/
theorem syscall_called
    (hrun : runStub handlers ret Stub.syscall.code p = some p') :
    ∃ q q', handlers .syscallh q = some q' ∧ q.word 1 = p.reg .eax ∧ q.word 2 = p.reg .ebx ∧
      q.word 3 = p.reg .ecx ∧ q.word 4 = p.reg .edx ∧ p'.reg .eax = q'.reg .eax := by
  have hno : Reg.esp ∉ syscallSaved := by decide
  obtain ⟨q', hcall, hrest⟩ := Option.bind_eq_some_iff.mp hrun
  have hword {k : ℕ} (hk : k < syscallSaved.length) :
      (((pushAll syscallSaved p.toCpu).push ret).word (k + 1)) =
        p.reg syscallSaved[syscallSaved.length - 1 - k] := by
    have hlt : k < 7 := hk
    rw [Cpu.word_push_succ _ ret (by omega)]
    exact word_pushAll p.toCpu hno (show 7 + k < 2 ^ 30 by omega) hk
  -- behind the call the arguments are dropped, three registers popped, and eax is left alone
  set v : Processor :=
    { q'.onCpu (fun c => syscallRestored (exec c (.add 16#32 .esp))) with
      eflags := addFlags q'.eflags (q'.reg .esp) 16#32 }
  obtain ⟨p'', hreturn, -, hregs⟩ := iret_resumed handlers ret v
  obtain rfl : p'' = p' := Option.some.inj (hreturn.symm.trans hrest)
  refine ⟨_, q', hcall, hword (k := 0) (by decide), hword (k := 1) (by decide),
    hword (k := 2) (by decide), hword (k := 3) (by decide), ?_⟩
  rw [hregs .eax (by decide)]
  exact (syscallRestored_reg _ (by decide)).trans (Cpu.set_of_ne _ _ (by decide))

end

/-- Whatever function of the four words `syscallh` computes, `int 0x80` computes it of `eax`, `ebx`,
`ecx` and `edx`, and goes on behind the instruction with all but three registers as they were. -/
theorem syscall_returns {addr : Stub → BitVec 32} (haddr : Function.Injective addr)
    (idt : ℕ → IdtEntry) {handlers : Handlers} {ret : BitVec 32} {p p' : Processor}
    (hcdecl : ∀ f p p', handlers f p = some p' → Cdecl f.args p p')
    {f : BitVec 32 → BitVec 32 → BitVec 32 → BitVec 32 → BitVec 32}
    (hf : ∀ q q', handlers .syscallh q = some q' →
      q'.reg .eax = f (q.word 1) (q.word 2) (q.word 3) (q.word 4))
    (hrun : interrupt addr handlers ret (intInit addr idt) 0x80 none p = some p') :
    p'.reg .eax = f (p.reg .eax) (p.reg .ebx) (p.reg .ecx) (p.reg .edx) ∧ p'.eip = p.eip ∧
      ∀ r ∉ [Reg.eax, .ecx, .edx], p'.reg r = p.reg r := by
  rw [interrupt_eq haddr idt (by decide)] at hrun
  obtain ⟨q, q', hcall, hnum, harg1, harg2, harg3, heax⟩ := syscall_called hrun
  obtain ⟨hresumed, hregs⟩ := syscall_resumed hcdecl hrun
  rw [deliver_reg _ _ _ (by decide)] at hnum harg1 harg2 harg3
  refine ⟨?_, ?_, fun r hr => ?_⟩
  · rw [heax, hf q q' hcall, hnum, harg1, harg2, harg3]
  · rw [hresumed.eip, (deliver_word _ p).1]
  · by_cases hesp : r = .esp
    · rw [hesp, hresumed.esp, deliver_esp]
      exact BitVec.sub_add_cancel _ _
    · rw [hregs r hesp hr, deliver_reg _ _ _ hesp]

def testHandlers : Handlers
  | .syscallh, p => some { p.onCpu (fun c => c.drop.set .eax
      (syscallh (p.word 1) (p.word 2) (p.word 3) (p.word 4)).2) with eip := p.word 0 }
  | f, p => demoHandlers f p

theorem testHandlers_cdecl (f : Handler) (p p' : Processor) (h : testHandlers f p = some p') :
    Cdecl f.args p p' := by
  cases f with
  | syscallh =>
      rw [← Option.some_inj.mp h]
      set v := (syscallh (p.word 1) (p.word 2) (p.word 3) (p.word 4)).2
      have hesp : Reg.esp ≠ .eax := by decide
      refine ⟨?_, fun r hr => ?_, fun k _ _ => ?_⟩
      · exact (p.toCpu.drop.set_of_ne v hesp).trans p.toCpu.drop_esp
      · have hne : r ≠ .eax ∧ r ≠ .esp := by
          constructor
          all_goals
            rintro rfl
            exact absurd hr (by decide)
        exact (p.toCpu.drop.set_of_ne v hne.1).trans (p.toCpu.drop_reg hne.2)
      · exact (Cpu.word_set (c := p.toCpu.drop) hesp.symm v k).trans (p.toCpu.word_drop k)
  | isr0h => exact demoHandlers_cdecl .isr0h p p' h
  | irq0h => exact demoHandlers_cdecl .irq0h p p' h
  | irq1h => exact demoHandlers_cdecl .irq1h p p' h

theorem demoProcessor_syscall :
    ∃ p', interrupt demoAddr testHandlers 0x904C#32 demoIdt 0x80 none demoProcessor = some p' ∧
      p'.reg .eax = -1#32 ∧ p'.eip = 0x12345#32 := by
  have hrun : ∃ p', interrupt demoAddr testHandlers 0x904C#32 demoIdt 0x80 none demoProcessor =
      some p' := ⟨_, interrupt_eq demoAddr_injective _ (by decide) none demoProcessor⟩
  obtain ⟨p', hrun⟩ := hrun
  obtain ⟨heax, heip, -⟩ := syscall_returns (f := fun num arg1 arg2 arg3 =>
    (syscallh num arg1 arg2 arg3).2) demoAddr_injective _ testHandlers_cdecl
    (fun q q' hq => by
      rw [← Option.some_inj.mp hq]
      exact Cpu.set_self q.toCpu.drop .eax _) hrun
  exact ⟨p', hrun, heax, heip⟩

end System44
