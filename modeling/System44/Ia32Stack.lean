import System44.Ia32

/-!
# The words on the stack

The stack as a sequence of words from its top on, wherever in the address space it lies: `esp` may
wrap around. Pushing puts a word in front of them, and saving all registers and loading them again
leaves everything as it was.
-/

namespace Mem

theorem load32_store32_apart (m : Mem) {a b : ℕ} (v : BitVec 32) (h : 4 ≤ offset a b)
    (hend : offset a b + 4 ≤ 2 ^ 32) : (m.store32 a v).load32 b = m.load32 b := by
  refine load32_congr fun i hi => get_store32_of_le m v ?_
  unfold offset at *
  omega

end Mem

namespace Ia32

namespace Cpu

/-- The `k`-th word from the top of the stack. -/
def word (c : Cpu) (k : ℕ) : BitVec 32 :=
  c.mem.load32 (c.reg .esp + BitVec.ofNat 32 (4 * k)).toNat

variable {c d : Cpu} {r : Reg} {k : ℕ}

theorem top_eq_word (c : Cpu) : c.top = c.word 0 := by
  rw [word, Nat.mul_zero, BitVec.add_zero]
  rfl

theorem word_congr (hesp : d.reg .esp = c.reg .esp) (hmem : d.mem = c.mem) (k : ℕ) :
    d.word k = c.word k := by rw [word, word, hesp, hmem]

theorem word_set (h : r ≠ .esp) (v : BitVec 32) (k : ℕ) : (c.set r v).word k = c.word k :=
  word_congr (c.set_of_ne v h.symm) rfl k

theorem push_esp (c : Cpu) (v : BitVec 32) : (c.push v).reg .esp = c.reg .esp - 4#32 :=
  c.set_self .esp _

theorem drop_esp (c : Cpu) : c.drop.reg .esp = c.reg .esp + 4#32 := c.set_self .esp _

theorem word_set_esp (c : Cpu) (n k : ℕ) :
    (c.set .esp (c.reg .esp + BitVec.ofNat 32 (4 * n))).word k = c.word (k + n) := by
  have haddr : c.reg .esp + BitVec.ofNat 32 (4 * n) + BitVec.ofNat 32 (4 * k) =
      c.reg .esp + BitVec.ofNat 32 (4 * (k + n)) := by
    apply BitVec.eq_of_toNat_eq
    simp only [BitVec.toNat_add, BitVec.toNat_ofNat]
    omega
  rw [word, word, set_self, haddr, set_mem]

theorem word_drop (c : Cpu) (k : ℕ) : c.drop.word k = c.word (k + 1) := c.word_set_esp 1 k

theorem word_push_zero (c : Cpu) (v : BitVec 32) : (c.push v).word 0 = v := by
  rw [← top_eq_word]
  exact Mem.load32_store32 c.mem _ v

/-- A push puts a word before the others, of which the last one at the end of the address space is
overwritten. -/
theorem word_push_succ (c : Cpu) (v : BitVec 32) (h : k + 1 < 2 ^ 30) :
    (c.push v).word (k + 1) = c.word k := by
  have haddr : (c.reg .esp - 4#32 + BitVec.ofNat 32 (4 * (k + 1))) =
      c.reg .esp + BitVec.ofNat 32 (4 * k) := by
    apply BitVec.eq_of_toNat_eq
    simp only [BitVec.toNat_add, BitVec.toNat_sub, BitVec.toNat_ofNat]
    omega
  have hoffset : Mem.offset (c.reg .esp - 4#32).toNat
      (c.reg .esp + BitVec.ofNat 32 (4 * k)).toNat = 4 * (k + 1) := by
    have hlt := c.sp_lt
    rw [sp] at hlt
    simp only [Mem.offset, BitVec.toNat_add, BitVec.toNat_sub, BitVec.toNat_ofNat]
    omega
  rw [word, word, push_esp, haddr]
  exact Mem.load32_store32_apart c.mem v (by omega) (by omega)

theorem word_pushWords_add (vs : List (BitVec 32)) (c : Cpu) (h : vs.length + k < 2 ^ 30) :
    (pushWords vs c).word (vs.length + k) = c.word k := by
  induction vs generalizing c k with
  | nil => rw [List.length_nil, Nat.zero_add]; rfl
  | cons v vs ih =>
      rw [List.length_cons] at h ⊢
      rw [pushWords_cons, Nat.add_assoc, Nat.add_comm 1 k, ih _ (by omega),
        word_push_succ c v (by omega)]

theorem word_pushWords (vs : List (BitVec 32)) (c : Cpu) (hlen : vs.length < 2 ^ 30)
    (hk : k < vs.length) : (pushWords vs c).word k = vs[vs.length - 1 - k] := by
  induction vs generalizing c with
  | nil => exact absurd hk (Nat.not_lt_zero k)
  | cons v vs ih =>
      rw [List.length_cons] at hlen hk
      rw [pushWords_cons]
      rcases Nat.lt_or_eq_of_le (Nat.le_of_lt_succ hk) with hlt | rfl
      · rw [ih _ (by omega) hlt]
        simp only [List.length_cons]
        rw [List.getElem_cons]
        rw [dif_neg (by omega)]
        congr 1
        omega
      · have hfirst := word_pushWords_add vs (c.push v) (k := 0) (by omega)
        rw [Nat.add_zero, word_push_zero] at hfirst
        rw [hfirst]
        simp

theorem pushWords_esp (vs : List (BitVec 32)) (c : Cpu) :
    (pushWords vs c).reg .esp = c.reg .esp - BitVec.ofNat 32 (4 * vs.length) := by
  induction vs generalizing c with
  | nil => exact (BitVec.sub_zero _).symm
  | cons v vs ih =>
      rw [pushWords_cons, ih, push_esp, List.length_cons]
      apply BitVec.eq_of_toNat_eq
      simp only [BitVec.toNat_sub, BitVec.toNat_ofNat]
      omega

end Cpu

section

variable {rs : List Reg} (c : Cpu) {k : ℕ} (hesp : Reg.esp ∉ rs) (hlen : rs.length + k < 2 ^ 30)

include hesp

theorem pushAll_esp :
    (pushAll rs c).reg .esp = c.reg .esp - BitVec.ofNat 32 (4 * rs.length) := by
  rw [pushAll_eq hesp, Cpu.pushWords_esp, List.length_map]

include hlen

theorem word_pushAll_add : (pushAll rs c).word (rs.length + k) = c.word k := by
  rw [pushAll_eq hesp, ← List.length_map c.reg]
  exact Cpu.word_pushWords_add _ c (by rwa [List.length_map])

theorem word_pushAll (hk : k < rs.length) :
    (pushAll rs c).word k = c.reg rs[rs.length - 1 - k] := by
  rw [pushAll_eq hesp, Cpu.word_pushWords _ c (by rw [List.length_map]; omega)
    (by rwa [List.length_map]), List.getElem_map]
  simp only [List.length_map]

end

/-- `pusha`: the stack pointer is pushed as it was before. -/
def pusha (c : Cpu) : Cpu :=
  c.pushWords [c.reg .eax, c.reg .ecx, c.reg .edx, c.reg .ebx, c.reg .esp, c.reg .ebp, c.reg .esi,
    c.reg .edi]

/-- `popa`: the stack pointer on the stack is skipped. -/
def popa (c : Cpu) : Cpu :=
  run [.pop .ebx, .pop .edx, .pop .ecx, .pop .eax] (run [.pop .edi, .pop .esi, .pop .ebp] c).drop

/-- Where `pusha` leaves a register, counted from the top of the stack. -/
def slot : Reg → ℕ
  | .edi => 0
  | .esi => 1
  | .ebp => 2
  | .esp => 3
  | .ebx => 4
  | .edx => 5
  | .ecx => 6
  | .eax => 7

variable {k : ℕ}

theorem slot_lt (r : Reg) : slot r < 8 := by cases r <;> decide

theorem word_pusha (c : Cpu) (r : Reg) : (pusha c).word (slot r) = c.reg r := by
  rw [pusha, Cpu.word_pushWords _ c (by simp) (slot_lt r)]
  cases r <;> rfl

theorem word_pusha_add (c : Cpu) (h : 8 + k < 2 ^ 30) : (pusha c).word (8 + k) = c.word k :=
  Cpu.word_pushWords_add _ c h

theorem pusha_esp (c : Cpu) : (pusha c).reg .esp = c.reg .esp - 32#32 := Cpu.pushWords_esp _ c

theorem popa_reg (c : Cpu) {r : Reg} (h : r ≠ .esp) : (popa c).reg r = c.word (slot r) := by
  cases r <;>
    simp_all [popa, run, exec, slot, Cpu.set_of_ne, Cpu.drop_reg, Cpu.top_eq_word, Cpu.word_set,
      Cpu.word_drop]

theorem popa_esp (c : Cpu) : (popa c).reg .esp = c.reg .esp + 32#32 := by
  simp [popa, run, exec, Cpu.set_of_ne, Cpu.drop_esp, BitVec.add_assoc]

theorem word_popa (c : Cpu) (k : ℕ) : (popa c).word k = c.word (k + 8) := by
  simp [popa, run, exec, Cpu.word_set, Cpu.word_drop]

end Ia32
