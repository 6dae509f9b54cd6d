import System44.ByteMemory

/-!
# Blocks with gaps between them

A copy in blocks of 512 bytes whose places are 1024 bytes apart. Byte `x` of what is copied comes to
lie at offset `spread x`, and the second half of every 1024 bytes is a gap that the copy leaves
alone.
-/

/-- Where byte `x` of the blocks lies. -/
def spread (x : ℕ) : ℕ := 1024 * (x / 512) + x % 512

/-- The byte of the blocks that lies at offset `o`. -/
def gather (o : ℕ) : ℕ := 512 * (o / 1024) + o % 1024

/-- Offset `o` lies in one of the first `n` blocks and not in a gap. -/
def InBlock (n o : ℕ) : Prop := o % 1024 < 512 ∧ o / 1024 < n

instance (n o : ℕ) : Decidable (InBlock n o) := inferInstanceAs (Decidable (_ ∧ _))

/-- How far `n` blocks reach. -/
def blockReach (n : ℕ) : ℕ := 1024 * n - 512

theorem spread_of_lt {x : ℕ} (hx : x < 512) : spread x = x := by
  unfold spread
  omega

theorem spread_add (x : ℕ) : spread (512 + x) = 1024 + spread x := by
  unfold spread
  omega

theorem gather_of_lt {o : ℕ} (ho : o < 512) : gather o = o := by
  unfold gather
  omega

theorem gather_le (o : ℕ) : gather o ≤ o := by
  unfold gather
  omega

theorem gather_spread (x : ℕ) : gather (spread x) = x := by
  unfold gather spread
  omega

theorem spread_gather {n o : ℕ} (ho : InBlock n o) : spread (gather o) = o := by
  obtain ⟨hgap, -⟩ := ho
  unfold gather spread
  omega

theorem inBlock_spread {n x : ℕ} : InBlock n (spread x) ↔ x < 512 * n := by
  unfold InBlock spread
  omega

theorem gather_lt {n o : ℕ} (ho : InBlock n o) : gather o < 512 * n := by
  obtain ⟨hgap, hn⟩ := ho
  unfold gather
  omega

theorem InBlock.lt_blockReach {n o : ℕ} (ho : InBlock n o) : o < blockReach n := by
  obtain ⟨hgap, hn⟩ := ho
  unfold blockReach
  omega

theorem spread_lt_blockReach {n x : ℕ} (hx : x < 512 * n) : spread x < blockReach n :=
  (inBlock_spread.mpr hx).lt_blockReach

theorem blockReach_mono {n k : ℕ} (h : n ≤ k) : blockReach n ≤ blockReach k := by
  unfold blockReach
  omega

theorem InBlock.mono {n k o : ℕ} (ho : InBlock n o) (h : n ≤ k) : InBlock k o :=
  ⟨ho.1, ho.2.trans_le h⟩

theorem inBlock_one {o : ℕ} : InBlock 1 o ↔ o < 512 := by
  unfold InBlock
  omega

theorem not_inBlock_zero (o : ℕ) : ¬ InBlock 0 o := fun h => absurd h.2 (Nat.not_lt_zero _)

theorem inBlock_succ {n o : ℕ} : InBlock (n + 1) o ↔ o < 512 ∨ 1024 ≤ o ∧ InBlock n (o - 1024) := by
  unfold InBlock
  omega

theorem inBlock_last {n : ℕ} (hn : 0 < n) : InBlock n (blockReach n - 1) := by
  unfold InBlock blockReach
  omega

namespace Mem

def blitBlocks (m : Mem) (a : ℕ) : ℕ → (ℕ → Byte) → Mem
  | 0, _ => m
  | n + 1, src => blitBlocks (m.blit a 512 src) (a + 1024) n fun i => src (512 + i)

@[simp] theorem blitBlocks_zero (m : Mem) (a : ℕ) (src : ℕ → Byte) : m.blitBlocks a 0 src = m := rfl

theorem blitBlocks_succ (m : Mem) (a n : ℕ) (src : ℕ → Byte) :
    m.blitBlocks a (n + 1) src =
      (m.blit a 512 src).blitBlocks (a + 1024) n fun i => src (512 + i) := rfl

@[simp] theorem blitBlocks_one (m : Mem) (a : ℕ) (src : ℕ → Byte) :
    m.blitBlocks a 1 src = m.blit a 512 src := rfl

theorem blitBlocks_congr (m : Mem) (a : ℕ) {n : ℕ} {src src' : ℕ → Byte}
    (h : ∀ i < 512 * n, src i = src' i) : m.blitBlocks a n src = m.blitBlocks a n src' := by
  induction n generalizing m a src src' with
  | zero => rfl
  | succ n ih =>
      rw [blitBlocks_succ, blitBlocks_succ, blit_congr m a fun i hi => h i (by omega)]
      apply ih
      intro i hi
      exact h (512 + i) (by omega)

theorem get_blitBlocks (m : Mem) (a b : ℕ) {n : ℕ} (src : ℕ → Byte) (hn : blockReach n ≤ 2 ^ 32) :
    (m.blitBlocks a n src).get b =
      if InBlock n (offset a b) then src (gather (offset a b)) else m.get b := by
  induction n generalizing m a src with
  | zero => rw [blitBlocks_zero, if_neg (not_inBlock_zero _)]
  | succ n ih =>
      have hlt := offset_lt a b
      have hreach : blockReach n ≤ 2 ^ 32 := (blockReach_mono (Nat.le_succ n)).trans hn
      rw [blitBlocks_succ, ih _ _ _ hreach, get_blit m a b src (by decide)]
      by_cases hrest : 1024 ≤ offset a b
      · have hshift : offset (a + 1024) b = offset a b - 1024 := by
          unfold offset at *
          omega
        have hgather : 512 + gather (offset a b - 1024) = gather (offset a b) := by
          unfold gather
          omega
        have hiff : InBlock (n + 1) (offset a b) ↔ InBlock n (offset a b - 1024) := by
          rw [inBlock_succ]
          constructor
          · rintro (hfirst | ⟨-, h⟩)
            · omega
            · exact h
          · exact fun h => Or.inr ⟨hrest, h⟩
        have hfirst : ¬ offset a b < 512 := by omega
        rw [if_neg hfirst, hshift, hgather]
        simp only [hiff]
      · have hout : ¬ InBlock n (offset (a + 1024) b) := by
          intro h
          have hreach' := h.lt_blockReach
          unfold blockReach at *
          unfold offset at *
          omega
        rw [if_neg hout]
        by_cases hfirst : offset a b < 512
        · rw [if_pos hfirst, if_pos (inBlock_succ.mpr (Or.inl hfirst)), gather_of_lt hfirst]
        · have hgap : ¬ InBlock (n + 1) (offset a b) := by
            rw [inBlock_succ]
            omega
          rw [if_neg hfirst, if_neg hgap]

theorem get_blitBlocks_spread (m : Mem) (a : ℕ) {n x : ℕ} (src : ℕ → Byte)
    (hn : blockReach n ≤ 2 ^ 32) (hx : x < 512 * n) :
    (m.blitBlocks a n src).get (a + spread x) = src x := by
  have hlt := (spread_lt_blockReach hx).trans_le hn
  rw [get_blitBlocks m a _ src hn, offset_add a hlt, if_pos (inBlock_spread.mpr hx), gather_spread]

theorem get_blitBlocks_of_not (m : Mem) {a b n : ℕ} (src : ℕ → Byte) (hn : blockReach n ≤ 2 ^ 32)
    (h : ¬ InBlock n (offset a b)) : (m.blitBlocks a n src).get b = m.get b := by
  rw [get_blitBlocks m a b src hn, if_neg h]

theorem get_blitBlocks_of_le (m : Mem) {a b n : ℕ} (src : ℕ → Byte) (hn : blockReach n ≤ 2 ^ 32)
    (h : blockReach n ≤ offset a b) : (m.blitBlocks a n src).get b = m.get b :=
  get_blitBlocks_of_not m src hn fun hin => absurd hin.lt_blockReach (Nat.not_lt.mpr h)

def blockSpan (a : ℕ) : ℕ → List ℕ
  | 0 => []
  | n + 1 => blockSpan (a + 1024) n ++ span a 512

theorem mem_blockSpan {a n x : ℕ} :
    x ∈ blockSpan a n ↔ ∃ i < 512 * n, x = (a + spread i) % 2 ^ 32 := by
  induction n generalizing a with
  | zero => simp [blockSpan]
  | succ n ih =>
      rw [blockSpan, List.mem_append, ih, mem_span]
      constructor
      · rintro (⟨i, hi, hx⟩ | ⟨i, hi, hx⟩)
        · exact ⟨512 + i, by omega, by rw [hx, spread_add, Nat.add_assoc]⟩
        · exact ⟨i, by omega, by rw [hx, spread_of_lt hi]⟩
      · rintro ⟨i, hi, hx⟩
        by_cases hfirst : i < 512
        · exact Or.inr ⟨i, hfirst, by rw [hx, spread_of_lt hfirst]⟩
        · obtain ⟨j, rfl⟩ := Nat.exists_eq_add_of_le (Nat.le_of_not_lt hfirst)
          exact Or.inl ⟨j, by omega, by rw [hx, spread_add, Nat.add_assoc]⟩

theorem writes_blitBlocks (m : Mem) (a n : ℕ) (src : ℕ → Byte) :
    (m.blitBlocks a n src).writes = blockSpan a n ++ m.writes := by
  induction n generalizing m a src with
  | zero => rfl
  | succ n ih => rw [blitBlocks_succ, ih, writes_blit, blockSpan, List.append_assoc]

end Mem
