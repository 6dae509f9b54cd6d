import System44.Genkfs
import System44.Uex

/-!
# The program builder

`scripts/pack_uex.py` puts a header before a flat binary. The size in memory is the size of the
binary rounded up to pages, and `struct.pack` refuses what does not fit 32 bits.
-/

namespace System44

def packUex (data : List Byte) (loadAddr : ℕ) : Option (List Byte) := do
  let fileSize := data.length
  let memSize := (fileSize + 0xFFF) / 0x1000 * 0x1000
  let entry ← packWord loadAddr
  let loadAddr ← packWord loadAddr
  let fileSize ← packWord fileSize
  let memSize ← packWord memSize
  some (wordBytes uexMagic ++ entry ++ loadAddr ++ fileSize ++ memSize ++ wordBytes 0#32 ++ data)

theorem wordAt_packed (data : List Byte) {ws : List (BitVec 32)} {k : ℕ} (hk : k < ws.length) :
    WordAt (ws.flatMap wordBytes ++ data) (4 * k) ws[k] := by
  induction ws generalizing k with
  | nil => exact absurd hk (Nat.not_lt_zero k)
  | cons w ws ih =>
      rw [List.flatMap_cons, List.append_assoc]
      cases k with
      | zero =>
          rw [← List.nil_append (wordBytes w), List.append_assoc, ← List.append_assoc]
          exact wordAt_append _ _ _ rfl
      | succ k =>
          intro t ht
          have hstep := ih (Nat.lt_of_succ_lt_succ hk) t ht
          rw [List.getD_append_right _ _ _ _ (by rw [length_wordBytes]; omega), length_wordBytes,
            List.getElem_cons_succ, ← hstep]
          congr 1
          omega

def packedWords (data : List Byte) (loadAddr : ℕ) : List (BitVec 32) :=
  [uexMagic, BitVec.ofNat 32 loadAddr, BitVec.ofNat 32 loadAddr, BitVec.ofNat 32 data.length,
    BitVec.ofNat 32 ((data.length + 0xFFF) / 0x1000 * 0x1000), 0#32]

theorem packUex_some {data bytes : List Byte} {loadAddr : ℕ}
    (h : packUex data loadAddr = some bytes) :
    bytes = (packedWords data loadAddr).flatMap wordBytes ++ data ∧
      (data.length + 0xFFF) / 0x1000 * 0x1000 < 2 ^ 32 := by
  obtain ⟨w₁, h₁, h⟩ := Option.bind_eq_some_iff.mp h
  obtain ⟨w₂, h₂, h⟩ := Option.bind_eq_some_iff.mp h
  obtain ⟨w₃, h₃, h⟩ := Option.bind_eq_some_iff.mp h
  obtain ⟨w₄, h₄, h⟩ := Option.bind_eq_some_iff.mp h
  obtain ⟨hmem, rfl⟩ := packWord_some h₄
  rw [(packWord_some h₁).2, (packWord_some h₂).2, (packWord_some h₃).2] at h
  refine ⟨(Option.some_inj.mp h).symm.trans ?_, hmem⟩
  simp only [packedWords, List.flatMap_cons, List.flatMap_nil, List.append_assoc, List.nil_append]

theorem uexHdr_packUex {data bytes : List Byte} {loadAddr : ℕ}
    (h : packUex data loadAddr = some bytes) :
    uexHdr (fun k => bytes.getD k 0#8) =
      ⟨uexMagic, BitVec.ofNat 32 loadAddr, BitVec.ofNat 32 loadAddr, BitVec.ofNat 32 data.length,
        BitVec.ofNat 32 ((data.length + 0xFFF) / 0x1000 * 0x1000), 0#32⟩ := by
  have hword (k : ℕ) (hk : k < (packedWords data loadAddr).length) :
      (leWord fun i => bytes.getD (4 * k + i) 0#8) = (packedWords data loadAddr)[k] := by
    rw [(packUex_some h).1, ← leWord_leBytes (packedWords data loadAddr)[k]]
    exact leWord_congr (wordAt_packed data hk)
  have h0 := hword 0 (Nat.succ_pos _)
  have h1 := hword 1 (by simp [packedWords])
  have h2 := hword 2 (by simp [packedWords])
  have h3 := hword 3 (by simp [packedWords])
  have h4 := hword 4 (by simp [packedWords])
  have h5 := hword 5 (by simp [packedWords])
  simp only [Nat.mul_zero, Nat.zero_add, Nat.reduceMul] at h0 h1 h2 h3 h4 h5
  rw [uexHdr, h0, h1, h2, h3, h4, h5]
  rfl

end System44
