import System44.Ia32

/-!
# The context switch

`swtch` as its sequence of instructions, called from C: the arguments and the return address are
on the stack. It leaves a `struct context` on the stack it was called on, stores its address, and
goes on from the words of another one.
-/

namespace System44

open Ia32

def swtch : List Instr :=
  [.load 4#32 .esp .eax, .load 8#32 .esp .edx,
    .push .ebp, .push .ebx, .push .esi, .push .edi,
    .store .esp .eax, .mov .edx .esp,
    .pop .edi, .pop .esi, .pop .ebx, .pop .ebp, .ret]

def sizeofContext : ℕ := 20

/-- The words of the `struct context` at `a`. -/
structure HasContext (m : Mem) (a : ℕ) (reg : Reg → BitVec 32) (eip : BitVec 32) : Prop where
  edi : m.load32 a = reg .edi
  esi : m.load32 (a + 4) = reg .esi
  ebx : m.load32 (a + 8) = reg .ebx
  ebp : m.load32 (a + 12) = reg .ebp
  eip : m.load32 (a + 16) = eip

theorem HasContext.sameOn {m m' : Mem} {a : ℕ} {reg : Reg → BitVec 32} {eip : BitVec 32}
    (h : HasContext m a reg eip) {lo hi : ℕ} (hsame : Mem.SameOn lo hi m m') (hlo : lo ≤ a)
    (hhi : a + sizeofContext ≤ hi) : HasContext m' a reg eip := by
  rw [sizeofContext] at hhi
  constructor
  · rw [hsame.load32 (by omega) (by omega), h.edi]
  · rw [hsame.load32 (by omega) (by omega), h.esi]
  · rw [hsame.load32 (by omega) (by omega), h.ebx]
  · rw [hsame.load32 (by omega) (by omega), h.ebp]
  · rw [hsame.load32 (by omega) (by omega), h.eip]

/-- A call `swtch(old, new)` that returns to `ret`, up to the first instruction at the return
address that `swtch` finds. -/
def callSwtch (old new ret : BitVec 32) (c : Cpu) : Cpu :=
  run swtch (((c.push new).push old).push ret)

/-- How many bytes of the caller's stack the call uses: two arguments and a `struct context`, of
which the return address is the last member. -/
def callSwtchRoom : ℕ := 28

/-- The effect of a call of `swtch`. -/
structure Switched (c c' : Cpu) (old new ret : BitVec 32) : Prop where
  saved : HasContext c'.mem (c.sp - callSwtchRoom) c.reg ret
  link : (c'.mem.load32 old.toNat).toNat = c.sp - callSwtchRoom
  loaded : HasContext c.mem new.toNat c'.reg c'.eip
  sp : c'.sp = new.toNat + sizeofContext
  frame : ∀ x < 2 ^ 32, x < c.sp - callSwtchRoom ∨ c.sp ≤ x →
    x < old.toNat ∨ old.toNat + 4 ≤ x → c'.mem.get x = c.mem.get x

/-- The part that runs on the old stack. -/
def swtchOut : List Instr :=
  [.load 4#32 .esp .eax, .load 8#32 .esp .edx,
    .push .ebp, .push .ebx, .push .esi, .push .edi, .store .esp .eax]

/-- The part that leaves it. -/
def swtchIn : List Instr :=
  [.mov .edx .esp, .pop .edi, .pop .esi, .pop .ebx, .pop .ebp, .ret]

theorem run_swtch (c : Cpu) : run swtch c = run swtchIn (run swtchOut c) :=
  run_append swtchOut swtchIn c

theorem toNat_ofNat_small {n : ℕ} (h : n < 2 ^ 32) : (BitVec.ofNat 32 n).toNat = n := by
  rw [BitVec.toNat_ofNat, Nat.mod_eq_of_lt h]

theorem toNat_add_small {v : BitVec 32} {n : BitVec 32} (h : v.toNat + n.toNat < 2 ^ 32) :
    (v + n).toNat = v.toNat + n.toNat := by
  rw [BitVec.toNat_add, Nat.mod_eq_of_lt h]

theorem run_swtchIn (c : Cpu) (h : (c.reg .edx).toNat + sizeofContext < 2 ^ 32) :
    HasContext c.mem (c.reg .edx).toNat (run swtchIn c).reg (run swtchIn c).eip ∧
      (run swtchIn c).sp = (c.reg .edx).toNat + sizeofContext ∧ (run swtchIn c).mem = c.mem := by
  rw [sizeofContext] at h
  have h4 : (c.reg .edx + 4#32).toNat = (c.reg .edx).toNat + 4 := toNat_add_small (by simp; omega)
  have h8 : (c.reg .edx + 4#32 + 4#32).toNat = (c.reg .edx).toNat + 8 := by
    rw [toNat_add_small (by simp [h4]; omega), h4]
    simp
  have h12 : (c.reg .edx + 4#32 + 4#32 + 4#32).toNat = (c.reg .edx).toNat + 12 := by
    rw [toNat_add_small (by simp [h8]; omega), h8]
    simp
  have h16 : (c.reg .edx + 4#32 + 4#32 + 4#32 + 4#32).toNat = (c.reg .edx).toNat + 16 := by
    rw [toNat_add_small (by simp [h12]; omega), h12]
    simp
  have h20 : (c.reg .edx + 4#32 + 4#32 + 4#32 + 4#32 + 4#32).toNat = (c.reg .edx).toNat + 20 := by
    rw [toNat_add_small (by simp [h16]; omega), h16]
    simp
  refine ⟨⟨?_, ?_, ?_, ?_, ?_⟩, ?_, rfl⟩
  · simp [swtchIn, run, exec, Cpu.top, Cpu.drop, Cpu.sp, Cpu.set_of_ne]
  · simp [swtchIn, run, exec, Cpu.top, Cpu.drop, Cpu.sp, Cpu.set_of_ne, h4]
  · simp [swtchIn, run, exec, Cpu.top, Cpu.drop, Cpu.sp, Cpu.set_of_ne, h8]
  · simp [swtchIn, run, exec, Cpu.top, Cpu.drop, Cpu.sp, Cpu.set_of_ne, h12]
  · simp [swtchIn, run, exec, Cpu.top, Cpu.drop, Cpu.sp, Cpu.set_of_ne, h16]
  · simp [swtchIn, run, exec, Cpu.top, Cpu.drop, Cpu.sp, Cpu.set_of_ne, h20, sizeofContext]

theorem run_swtchOut {p : Cpu} {old new : BitVec 32}
    (hold : p.mem.load32 (p.reg .esp + 4#32).toNat = old)
    (hnew : p.mem.load32 (p.reg .esp + 8#32).toNat = new) :
    run swtchOut p = exec (((p.pushWords [p.reg .ebp, p.reg .ebx, p.reg .esi, p.reg .edi]).set
      .eax old).set .edx new) (.store .esp .eax) := by
  have hfirst : exec p (.load 4#32 .esp .eax) = p.set .eax old := by rw [exec, hold]
  have hsecond : exec (p.set .eax old) (.load 8#32 .esp .edx) = (p.set .eax old).set .edx new := by
    rw [exec, Cpu.set_mem, Cpu.set_of_ne _ _ (by decide), hnew]
  have hpush : pushAll [.ebp, .ebx, .esi, .edi] ((p.set .eax old).set .edx new) =
      ((p.pushWords [p.reg .ebp, p.reg .ebx, p.reg .esi, p.reg .edi]).set
        .eax old).set .edx new := by
    rw [pushAll_eq (by decide), Cpu.pushWords_set (by decide), Cpu.pushWords_set (by decide)]
    simp [Cpu.set_of_ne]
  rw [← hpush, ← hsecond, ← hfirst]
  rfl

def callSwtchWords (old new ret : BitVec 32) (c : Cpu) : List (BitVec 32) :=
  [new, old, ret, c.reg .ebp, c.reg .ebx, c.reg .esi, c.reg .edi]

theorem callSwtch_eq {c : Cpu} (old new ret : BitVec 32) (h : callSwtchRoom ≤ c.sp) :
    callSwtch old new ret c = run swtchIn (exec
      (((c.pushWords (callSwtchWords old new ret c)).set .eax old).set .edx new)
      (.store .esp .eax)) := by
  rw [callSwtchRoom] at h
  have hlt := c.sp_lt
  have hword {i : ℕ} (hi : i < 3) :=
    Cpu.load32_pushWords [new, old, ret] (c := c) (by simp; omega) hi
  have hsp : (c.pushWords [new, old, ret]).sp = c.sp - 12 :=
    Cpu.sp_pushWords [new, old, ret] (by simp; omega)
  have haddr {n : BitVec 32} (hn : n.toNat ≤ 12) :
      ((c.pushWords [new, old, ret]).reg .esp + n).toNat = c.sp - 12 + n.toNat := by
    rw [toNat_add_small (by change Cpu.sp _ + _ < _; omega)]
    exact congrArg (· + n.toNat) hsp
  have hold : (c.pushWords [new, old, ret]).mem.load32
      ((c.pushWords [new, old, ret]).reg .esp + 4#32).toNat = old := by
    rw [haddr (by decide), show c.sp - 12 + (4#32).toNat = c.sp - 4 * (1 + 1) by simp; omega]
    exact hword (i := 1) (by decide)
  have hnew : (c.pushWords [new, old, ret]).mem.load32
      ((c.pushWords [new, old, ret]).reg .esp + 8#32).toNat = new := by
    rw [haddr (by decide), show c.sp - 12 + (8#32).toNat = c.sp - 4 * (0 + 1) by simp; omega]
    exact hword (i := 0) (by decide)
  have hregs (r : Reg) (hr : r ≠ .esp) : (c.pushWords [new, old, ret]).reg r = c.reg r :=
    Cpu.pushWords_reg hr
  rw [callSwtch, run_swtch]
  change run swtchIn (run swtchOut (c.pushWords [new, old, ret])) = _
  rw [run_swtchOut hold hnew, ← Cpu.pushWords_append, hregs _ (by decide), hregs _ (by decide),
    hregs _ (by decide), hregs _ (by decide)]
  rfl

/-- The machine when the call leaves the old stack. -/
structure LeavesStack (c d : Cpu) (old new ret : BitVec 32) : Prop where
  edx : d.reg .edx = new
  saved : HasContext d.mem (c.sp - callSwtchRoom) c.reg ret
  link : (d.mem.load32 old.toNat).toNat = c.sp - callSwtchRoom
  frame : ∀ lo hi, hi ≤ 2 ^ 32 → hi ≤ c.sp - callSwtchRoom ∨ c.sp ≤ lo →
    hi ≤ old.toNat ∨ old.toNat + 4 ≤ lo → Mem.SameOn lo hi c.mem d.mem

theorem callSwtch_leavesStack {c : Cpu} {old new ret : BitVec 32} (h : callSwtchRoom ≤ c.sp)
    (hold : old.toNat + 4 ≤ c.sp - callSwtchRoom ∨ c.sp ≤ old.toNat)
    (hend : old.toNat + 4 ≤ 2 ^ 32) :
    ∃ d, callSwtch old new ret c = run swtchIn d ∧ LeavesStack c d old new ret := by
  have hlt := c.sp_lt
  have heq := callSwtch_eq old new ret h
  rw [callSwtchRoom] at h hold
  generalize hw : c.pushWords (callSwtchWords old new ret c) = w at heq
  have hmem : (exec ((w.set .eax old).set .edx new) (.store .esp .eax)).mem =
      w.mem.store32 old.toNat (w.reg .esp) := by
    rw [exec, Cpu.set_mem, Cpu.set_mem, Cpu.set_of_ne _ _ (by decide), Cpu.set_self,
      Cpu.set_of_ne _ _ (by decide), Cpu.set_of_ne _ _ (by decide)]
  have hedx : (exec ((w.set .eax old).set .edx new) (.store .esp .eax)).reg .edx = new := by
    rw [exec]
    exact (w.set .eax old).set_self .edx new
  generalize exec ((w.set .eax old).set .edx new) (.store .esp .eax) = d at heq hmem hedx
  have hsp : w.sp = c.sp - 28 := by
    rw [← hw]
    exact Cpu.sp_pushWords (callSwtchWords old new ret c) (by simp [callSwtchWords]; omega)
  have hpushed {lo hi : ℕ} (hhi : hi ≤ 2 ^ 32) (hout : hi ≤ c.sp - 28 ∨ c.sp ≤ lo) :
      Mem.SameOn lo hi c.mem w.mem := by
    rw [← hw]
    exact Cpu.sameOn_pushWords (by simp [callSwtchWords]; omega) hhi (by simpa [callSwtchWords])
  have hsame {lo hi : ℕ} (hhi : hi ≤ 2 ^ 32) (hout : hi ≤ old.toNat ∨ old.toNat + 4 ≤ lo) :
      Mem.SameOn lo hi w.mem d.mem := by
    rw [hmem]
    exact Mem.sameOn_store32 w.mem _ hend hhi hout
  have hword {i : ℕ} (hi : i < 7) : d.mem.load32 (c.sp - 4 * (i + 1)) =
      (callSwtchWords old new ret c)[i] := by
    have hstack : Mem.SameOn (c.sp - 28) c.sp w.mem d.mem := hsame (by omega) (by omega)
    rw [hstack.load32 (by omega) (by omega), ← hw]
    exact Cpu.load32_pushWords _ (by simp [callSwtchWords]; omega) hi
  refine ⟨d, heq, hedx, ?_, ?_, fun lo hi hhi hout hout' => ?_⟩
  · rw [callSwtchRoom]
    constructor
    · exact hword (i := 6) (by decide)
    · rw [show c.sp - 28 + 4 = c.sp - 4 * (5 + 1) by omega]
      exact hword (i := 5) (by decide)
    · rw [show c.sp - 28 + 8 = c.sp - 4 * (4 + 1) by omega]
      exact hword (i := 4) (by decide)
    · rw [show c.sp - 28 + 12 = c.sp - 4 * (3 + 1) by omega]
      exact hword (i := 3) (by decide)
    · rw [show c.sp - 28 + 16 = c.sp - 4 * (2 + 1) by omega]
      exact hword (i := 2) (by decide)
  · rw [hmem, Mem.load32_store32]
    exact hsp
  · exact (hpushed hhi hout).trans (hsame hhi hout')

theorem callSwtch_switched {c : Cpu} {old new ret : BitVec 32} (h : callSwtchRoom ≤ c.sp)
    (hold : old.toNat + 4 ≤ c.sp - callSwtchRoom ∨ c.sp ≤ old.toNat)
    (hend : old.toNat + 4 ≤ 2 ^ 32) (hnewEnd : new.toNat + sizeofContext < 2 ^ 32)
    (hnew : new.toNat + sizeofContext ≤ c.sp - callSwtchRoom ∨ c.sp ≤ new.toNat)
    (hdisj : new.toNat + sizeofContext ≤ old.toNat ∨ old.toNat + 4 ≤ new.toNat) :
    Switched c (callSwtch old new ret c) old new ret := by
  obtain ⟨d, heq, hout⟩ : ∃ d, callSwtch old new ret c = run swtchIn d ∧
      LeavesStack c d old new ret := callSwtch_leavesStack h hold hend
  obtain ⟨hloaded, hesp, hmem⟩ := run_swtchIn d (by rw [hout.edx]; exact hnewEnd)
  rw [← heq, hout.edx] at hloaded
  rw [← heq, hout.edx] at hesp
  rw [← heq] at hmem
  have hback : Mem.SameOn new.toNat (new.toNat + sizeofContext) c.mem d.mem :=
    hout.frame _ _ hnewEnd.le hnew hdisj
  constructor
  · rw [hmem]
    exact hout.saved
  · rw [hmem]
    exact hout.link
  · exact hloaded.sameOn hback.symm (le_refl _) (le_refl _)
  · exact hesp
  · intro x hx hstack hlink
    have hbyte : Mem.SameOn x (x + 1) c.mem d.mem :=
      hout.frame _ _ hx (by omega) (by omega)
    rw [hmem]
    exact hbyte x (le_refl x) (Nat.lt_succ_self x)

theorem Switched.sameOn {c d : Cpu} {old new ret : BitVec 32} (h : Switched c d old new ret)
    {lo hi : ℕ} (hhi : hi ≤ 2 ^ 32) (hstack : hi ≤ c.sp - callSwtchRoom ∨ c.sp ≤ lo)
    (hold : hi ≤ old.toNat ∨ old.toNat + 4 ≤ lo) : Mem.SameOn lo hi c.mem d.mem :=
  fun x hl hh => h.frame x (by omega) (by omega) (by omega)

end System44
