import Mathlib.Logic.Function.Basic
import System44.ByteMemory

/-!
# Registers, memory and stack of a 32-bit machine

The instructions of straight-line code that moves words between registers and the stack, and what
saving a list of registers and restoring them does. Addresses are those of `Mem`; a memory is the
same as another one between two addresses when it holds the same bytes there.
-/

namespace Mem

/-- The two memories hold the same bytes from `lo` on and below `hi`. -/
def SameOn (lo hi : ℕ) (m m' : Mem) : Prop := ∀ x, lo ≤ x → x < hi → m'.get x = m.get x

variable {lo hi : ℕ} {m m' m'' : Mem}

theorem SameOn.refl (lo hi : ℕ) (m : Mem) : SameOn lo hi m m := fun _ _ _ => rfl

theorem SameOn.symm (h : SameOn lo hi m m') : SameOn lo hi m' m :=
  fun x hlo hhi => (h x hlo hhi).symm

theorem SameOn.trans (h : SameOn lo hi m m') (h' : SameOn lo hi m' m'') : SameOn lo hi m m'' :=
  fun x hlo hhi => (h' x hlo hhi).trans (h x hlo hhi)

theorem SameOn.mono (h : SameOn lo hi m m') {lo' hi' : ℕ} (hlo : lo ≤ lo') (hhi : hi' ≤ hi) :
    SameOn lo' hi' m m' := fun x hl hh => h x (hlo.trans hl) (hh.trans_le hhi)

theorem SameOn.load32 (h : SameOn lo hi m m') {a : ℕ} (hlo : lo ≤ a) (hhi : a + 4 ≤ hi) :
    m'.load32 a = m.load32 a :=
  load32_congr fun i hi => h (a + i) (by omega) (by omega)

theorem get_store32_outside (m : Mem) {a x : ℕ} (v : BitVec 32) (ha : a + 4 ≤ 2 ^ 32)
    (hx : x < 2 ^ 32) (h : x < a ∨ a + 4 ≤ x) : (m.store32 a v).get x = m.get x :=
  get_store32_of_le m v (le_offset hx h ha)

theorem sameOn_store32 (m : Mem) {a : ℕ} (v : BitVec 32) (ha : a + 4 ≤ 2 ^ 32)
    (hhi : hi ≤ 2 ^ 32) (h : hi ≤ a ∨ a + 4 ≤ lo) : SameOn lo hi m (m.store32 a v) :=
  fun _ hl hh => get_store32_outside m v ha (hh.trans_le hhi) (by omega)

theorem load32_store32_outside (m : Mem) {a b : ℕ} (v : BitVec 32) (ha : a + 4 ≤ 2 ^ 32)
    (hb : b + 4 ≤ 2 ^ 32) (h : b + 4 ≤ a ∨ a + 4 ≤ b) : (m.store32 a v).load32 b = m.load32 b :=
  (sameOn_store32 m v ha hb h).load32 (le_refl b) (le_refl _)

def storeWords (m : Mem) (a : ℕ) (ws : List (ℕ × BitVec 32)) : Mem :=
  ws.foldl (fun m w => m.store32 (a + w.1) w.2) m

theorem storeWords_cons (m : Mem) (a : ℕ) (w : ℕ × BitVec 32) (ws : List (ℕ × BitVec 32)) :
    m.storeWords a (w :: ws) = (m.store32 (a + w.1) w.2).storeWords a ws := rfl

theorem sameOn_storeWords {a : ℕ} (ws : List (ℕ × BitVec 32))
    (h : ∀ w ∈ ws, a + w.1 + 4 ≤ 2 ^ 32 ∧ (hi ≤ a + w.1 ∨ a + w.1 + 4 ≤ lo)) (hhi : hi ≤ 2 ^ 32) :
    SameOn lo hi m (m.storeWords a ws) := by
  induction ws generalizing m with
  | nil => exact SameOn.refl lo hi m
  | cons w ws ih =>
      have hw := h w List.mem_cons_self
      exact (sameOn_store32 m _ hw.1 hhi hw.2).trans
        (ih fun w' hw' => h w' (List.mem_cons_of_mem w hw'))

theorem load32_storeWords {a : ℕ} {ws : List (ℕ × BitVec 32)}
    (hend : ∀ w ∈ ws, a + w.1 + 4 ≤ 2 ^ 32)
    (hapart : ws.Pairwise fun w w' => w.1 + 4 ≤ w'.1 ∨ w'.1 + 4 ≤ w.1) :
    ∀ w ∈ ws, (m.storeWords a ws).load32 (a + w.1) = w.2 := by
  induction ws generalizing m with
  | nil => exact nofun
  | cons v ws ih =>
      rw [List.pairwise_cons] at hapart
      have hrest (w : ℕ × BitVec 32) (hw : w ∈ ws) := hend w (List.mem_cons_of_mem v hw)
      intro w hw
      rcases List.mem_cons.mp hw with rfl | hmem
      · have hsame : SameOn (a + w.1) (a + w.1 + 4) (m.store32 (a + w.1) w.2)
            ((m.store32 (a + w.1) w.2).storeWords a ws) := by
          refine sameOn_storeWords ws (fun w' hw' => ⟨hrest w' hw', ?_⟩) (hend w hw)
          have hbeside := hapart.1 w' hw'
          omega
        rw [storeWords_cons, hsame.load32 (le_refl _) (le_refl _), load32_store32]
      · exact ih hrest hapart.2 w hmem

end Mem

namespace Ia32

inductive Reg
  | eax | ecx | edx | ebx | esp | ebp | esi | edi
  deriving DecidableEq

structure Cpu where
  reg : Reg → BitVec 32
  eip : BitVec 32
  mem : Mem

namespace Cpu

/-- The address in `esp`. -/
def sp (c : Cpu) : ℕ := (c.reg .esp).toNat

def set (c : Cpu) (r : Reg) (v : BitVec 32) : Cpu := { c with reg := Function.update c.reg r v }

def push (c : Cpu) (v : BitVec 32) : Cpu :=
  { c.set .esp (c.reg .esp - 4#32) with mem := c.mem.store32 (c.reg .esp - 4#32).toNat v }

def top (c : Cpu) : BitVec 32 := c.mem.load32 c.sp

def drop (c : Cpu) : Cpu := c.set .esp (c.reg .esp + 4#32)

variable (c : Cpu) (r s : Reg) (v : BitVec 32)

theorem sp_lt : c.sp < 2 ^ 32 := (c.reg .esp).isLt

@[simp] theorem set_self : (c.set r v).reg r = v := by
  simp only [set, Function.update_self]

theorem set_of_ne {r s : Reg} (h : s ≠ r) : (c.set r v).reg s = c.reg s := by
  simp only [set, Function.update_of_ne h]

@[simp] theorem set_mem : (c.set r v).mem = c.mem := rfl

@[simp] theorem drop_mem : c.drop.mem = c.mem := rfl

theorem push_reg {r : Reg} (h : r ≠ .esp) : (c.push v).reg r = c.reg r := c.set_of_ne _ h

theorem drop_reg {r : Reg} (h : r ≠ .esp) : c.drop.reg r = c.reg r := c.set_of_ne _ h

variable {c}

theorem sp_set_add {n : BitVec 32} (h : c.sp + n.toNat < 2 ^ 32) :
    (c.set .esp (c.reg .esp + n)).sp = c.sp + n.toNat := by
  rw [sp, set_self, BitVec.toNat_add]
  exact Nat.mod_eq_of_lt h

theorem sp_set_sub {n : BitVec 32} (h : n.toNat ≤ c.sp) :
    (c.set .esp (c.reg .esp - n)).sp = c.sp - n.toNat := by
  rw [sp, set_self]
  exact BitVec.toNat_sub_of_le h

theorem sp_push (h : 4 ≤ c.sp) : (c.push v).sp = c.sp - 4 := sp_set_sub h

theorem sp_drop (h : c.sp + 4 < 2 ^ 32) : c.drop.sp = c.sp + 4 := sp_set_add h

theorem mem_push (h : 4 ≤ c.sp) : (c.push v).mem = c.mem.store32 (c.sp - 4) v :=
  congrArg (fun a => c.mem.store32 a v) (BitVec.toNat_sub_of_le h)

theorem load32_push (h : 4 ≤ c.sp) : (c.push v).mem.load32 (c.sp - 4) = v := by
  rw [mem_push v h, Mem.load32_store32]

theorem sameOn_push (h : 4 ≤ c.sp) {lo hi : ℕ} (hhi : hi ≤ 2 ^ 32)
    (hout : hi ≤ c.sp - 4 ∨ c.sp ≤ lo) : Mem.SameOn lo hi c.mem (c.push v).mem := by
  have hsp := c.sp_lt
  rw [mem_push v h]
  exact Mem.sameOn_store32 _ _ (by omega) hhi (by omega)

/-- Push several words, the first one first. -/
def pushWords (vs : List (BitVec 32)) (c : Cpu) : Cpu := vs.foldl push c

theorem pushWords_cons (v : BitVec 32) (vs : List (BitVec 32)) (c : Cpu) :
    pushWords (v :: vs) c = pushWords vs (c.push v) := rfl

theorem pushWords_append (vs ws : List (BitVec 32)) (c : Cpu) :
    pushWords (vs ++ ws) c = pushWords ws (pushWords vs c) := List.foldl_append

variable {vs : List (BitVec 32)}

theorem push_set {r : Reg} (h : r ≠ .esp) (v w : BitVec 32) :
    (c.set r v).push w = (c.push w).set r v := by
  simp only [push, set, Function.update_of_ne h.symm, Function.update_comm h]

theorem pushWords_set {r : Reg} (h : r ≠ .esp) (v : BitVec 32) :
    pushWords vs (c.set r v) = (pushWords vs c).set r v := by
  induction vs generalizing c with
  | nil => rfl
  | cons w vs ih => rw [pushWords_cons, push_set h, ih, pushWords_cons]

theorem pushWords_reg {r : Reg} (h : r ≠ .esp) : (pushWords vs c).reg r = c.reg r := by
  induction vs generalizing c with
  | nil => rfl
  | cons v vs ih => rw [pushWords_cons, ih, push_reg _ _ h]

theorem sp_pushWords (vs : List (BitVec 32)) (h : 4 * vs.length ≤ c.sp) :
    (pushWords vs c).sp = c.sp - 4 * vs.length := by
  induction vs generalizing c with
  | nil => rfl
  | cons v vs ih =>
      rw [List.length_cons] at h ⊢
      have hsp := sp_push v (c := c) (by omega)
      rw [pushWords_cons, ih (by omega), hsp]
      omega

theorem sameOn_pushWords (h : 4 * vs.length ≤ c.sp) {lo hi : ℕ} (hhi : hi ≤ 2 ^ 32)
    (hout : hi ≤ c.sp - 4 * vs.length ∨ c.sp ≤ lo) :
    Mem.SameOn lo hi c.mem (pushWords vs c).mem := by
  induction vs generalizing c with
  | nil => exact Mem.SameOn.refl lo hi _
  | cons v vs ih =>
      rw [List.length_cons] at h hout
      have hsp := sp_push v (c := c) (by omega)
      have hfirst : Mem.SameOn lo hi c.mem (c.push v).mem :=
        sameOn_push v (by omega) hhi (by omega)
      exact hfirst.trans (ih (c := c.push v) (by omega) (by omega))

theorem load32_pushWords (vs : List (BitVec 32)) (h : 4 * vs.length ≤ c.sp) {i : ℕ}
    (hi : i < vs.length) :
    (pushWords vs c).mem.load32 (c.sp - 4 * (i + 1)) = vs[i] := by
  induction vs generalizing c i with
  | nil => exact absurd hi (Nat.not_lt_zero i)
  | cons v vs ih =>
      have hlt := c.sp_lt
      rw [List.length_cons] at h hi
      have hsp := sp_push v (c := c) (by omega)
      cases i with
      | zero =>
          -- the words pushed later lie below
          have hsame : Mem.SameOn (c.sp - 4) c.sp (c.push v).mem (pushWords vs (c.push v)).mem :=
            sameOn_pushWords (by omega) (by omega) (by omega)
          rw [pushWords_cons, hsame.load32 (by omega) (by omega), List.getElem_cons_zero,
            load32_push v (by omega)]
      | succ i =>
          have hrest := ih (c := c.push v) (i := i) (by omega) (by omega)
          rw [hsp, Nat.sub_sub, Nat.add_comm 4] at hrest
          rw [pushWords_cons, List.getElem_cons_succ]
          exact hrest

end Cpu

/-- The instructions, with their operands in the order of the AT&T syntax. -/
inductive Instr
  | load (disp : BitVec 32) (base dst : Reg)
  | store (src base : Reg)
  | mov (src dst : Reg)
  | add (n : BitVec 32) (dst : Reg)
  | sub (n : BitVec 32) (dst : Reg)
  | push (src : Reg)
  | pop (dst : Reg)
  | ret

def exec (c : Cpu) : Instr → Cpu
  | .load disp base dst => c.set dst (c.mem.load32 (c.reg base + disp).toNat)
  | .store src base => { c with mem := c.mem.store32 (c.reg base).toNat (c.reg src) }
  | .mov src dst => c.set dst (c.reg src)
  | .add n dst => c.set dst (c.reg dst + n)
  | .sub n dst => c.set dst (c.reg dst - n)
  | .push src => c.push (c.reg src)
  | .pop dst => c.drop.set dst c.top
  | .ret => { c.drop with eip := c.top }

def run (is : List Instr) (c : Cpu) : Cpu := is.foldl exec c

theorem run_append (is js : List Instr) (c : Cpu) : run (is ++ js) c = run js (run is c) :=
  List.foldl_append

def pushAll (rs : List Reg) (c : Cpu) : Cpu := run (rs.map Instr.push) c

def popAll (rs : List Reg) (c : Cpu) : Cpu := run (rs.reverse.map Instr.pop) c

theorem pushAll_cons (r : Reg) (rs : List Reg) (c : Cpu) :
    pushAll (r :: rs) c = pushAll rs (c.push (c.reg r)) := rfl

theorem popAll_cons (r : Reg) (rs : List Reg) (c : Cpu) :
    popAll (r :: rs) c = (popAll rs c).drop.set r (popAll rs c).top := by
  rw [popAll, List.reverse_cons, List.map_append, run_append]
  rfl

variable {rs : List Reg} {c d : Cpu}

theorem pushAll_eq (hesp : Reg.esp ∉ rs) : pushAll rs c = Cpu.pushWords (rs.map c.reg) c := by
  induction rs generalizing c with
  | nil => rfl
  | cons r rs ih =>
      rw [List.mem_cons, not_or] at hesp
      have hregs : rs.map (c.push (c.reg r)).reg = rs.map c.reg :=
        List.map_congr_left fun s hs => Cpu.push_reg _ _ fun h => hesp.2 (h ▸ hs)
      rw [pushAll_cons, ih hesp.2, hregs, List.map_cons, Cpu.pushWords_cons]

theorem popAll_mem (rs : List Reg) (c : Cpu) : (popAll rs c).mem = c.mem := by
  induction rs with
  | nil => rfl
  | cons r rs ih => rw [popAll_cons, Cpu.set_mem, Cpu.drop_mem, ih]

/-- `d` has the registers and the stack pointer of `c`. -/
structure Restored (rs : List Reg) (c d e : Cpu) : Prop where
  sp : e.sp = c.sp
  saved : ∀ r ∈ rs, e.reg r = c.reg r
  others : ∀ r ∉ rs, r ≠ .esp → e.reg r = d.reg r
  mem : e.mem = d.mem

theorem popAll_restored (hesp : Reg.esp ∉ rs) (hroom : 4 * rs.length ≤ c.sp)
    (hsp : d.sp = c.sp - 4 * rs.length)
    (hmem : Mem.SameOn (c.sp - 4 * rs.length) c.sp (pushAll rs c).mem d.mem) :
    Restored rs c d (popAll rs d) := by
  induction rs generalizing c with
  | nil => exact ⟨hsp, nofun, fun _ _ _ => rfl, rfl⟩
  | cons r rs ih =>
      rw [List.length_cons] at hroom hsp hmem
      rw [List.mem_cons, not_or] at hesp
      have hlt := c.sp_lt
      have hpush := Cpu.sp_push (c.reg r) (c := c) (by omega)
      have hrest := ih (c := c.push (c.reg r)) hesp.2 (by omega) (by omega)
        (hmem.mono (by omega) (by omega))
      have htop : (popAll rs d).top = c.reg r := by
        have hword := Cpu.load32_pushWords ((r :: rs).map c.reg) (c := c) (i := 0)
          (by rw [List.length_map, List.length_cons]; omega) (by simp)
        rw [← pushAll_eq (List.not_mem_cons_of_ne_of_not_mem hesp.1 hesp.2)] at hword
        rw [Cpu.top, hrest.sp, hrest.mem, hpush, hmem.load32 (by omega) (by omega)]
        exact hword
      have hdrop : (popAll rs d).drop.sp = c.sp := by
        rw [Cpu.sp_drop (by rw [hrest.sp]; omega), hrest.sp]
        omega
      rw [popAll_cons, htop]
      refine ⟨?_, ?_, ?_, hrest.mem⟩
      · rw [Cpu.sp, Cpu.set_of_ne _ _ hesp.1]
        exact hdrop
      · intro s hs
        by_cases hsr : s = r
        · rw [hsr, Cpu.set_self]
        · have hmem := (List.mem_cons.mp hs).resolve_left hsr
          have hne : s ≠ .esp := fun h => hesp.2 (h ▸ hmem)
          rw [Cpu.set_of_ne _ _ hsr, Cpu.drop_reg _ hne, hrest.saved s hmem, Cpu.push_reg _ _ hne]
      · intro s hs hne
        rw [List.mem_cons, not_or] at hs
        rw [Cpu.set_of_ne _ _ hs.1, Cpu.drop_reg _ hne, hrest.others s hs.2 hne]

end Ia32
