import System44.AtaTransfer

/-!
# What is written and what is read

On a disk that follows the protocol and reports no error, a write stores exactly the sectors it
names and a read stores what the disk holds, but both step over 512 bytes of memory after every
sector. So a transfer of several sectors is the copy it is meant to be only where the bytes in the
gaps happen to be the right ones, and only a transfer of one sector always is.
-/

namespace System44

/-- The sectors of a disk once `count` sectors, the `k`-th of them from `src + stride * k` on, have
been stored at `lba`. -/
def overwritten (stride : ℕ) (sector : ℕ → Sector) (m : Mem) (lba count src s : ℕ) : Sector :=
  if lba ≤ s ∧ s < lba + count then sectorAt m (src + stride * (s - lba)) else sector s

/-- Byte `j` of the sectors from `lba` on. -/
def heldByte (sector : ℕ → Sector) (lba j : ℕ) : Byte := (sector (lba + j / 512)).byte j

namespace Drive

/-- Sectors that were all kept hold what was sent. -/
theorem Written.kept {d d' : Drive} {first lba k s : ℕ} {src : ℕ → Sector}
    {stored : List (ℕ × Sector)} (h : d.Written d' first lba k src stored)
    (hlast : lba + k ≤ lbaLimit) (hkept : ∀ i < k, (d.reply (first + i)).kept = true)
    (hlo : lba ≤ s) (hhi : s < lba + k) : d'.sector s = src (s - lba) := by
  have hmem : (s, src (s - lba)) ∈ stored :=
    (h.mem_iff hlast _).mpr ⟨s - lba, by omega, hkept _ (by omega), by
      rw [Nat.add_sub_cancel' hlo]⟩
  exact h.sector _ hmem

end Drive

section

variable {d : Drive} {lba count : ℕ}

theorem Drive.ErrorFree.answer_eq (hd : d.ErrorFree) (hpos : 1 ≤ count) (hlt : count ≤ 255) :
    d.answer count = count := by
  have hmod : count % 2 ^ 8 = count := Nat.mod_eq_of_lt (by omega)
  rw [Drive.answer, hd.passed, hmod, if_pos ⟨by omega, rfl⟩]

theorem ataWriteSectors_exact (hd : d.ErrorFree) (m : Mem) (src : ℕ) (hpos : 1 ≤ count)
    (hlt : count ≤ 255) (hlast : lba + count ≤ lbaLimit) :
    ∃ d', ataWriteSectors d m lba count src = some ((count : ℤ), d') ∧ d'.ErrorFree ∧
      d'.sector = overwritten 1024 d.sector m lba count src := by
  obtain ⟨⟨r, d'⟩, hwrite⟩ :=
    Option.isSome_iff_exists.mp (ataWriteSectors_isSome_iff.mpr (hd.returns count))
  obtain ⟨hr, stored, hstored⟩ := ataWriteSectors_some hwrite
  have hmod : count % 2 ^ 8 = count := Nat.mod_eq_of_lt (by omega)
  rw [hd.passed, hmod] at hstored
  rw [hd.answer_eq hpos hlt] at hr
  refine ⟨d', hr ▸ hwrite, hd.congr hstored.reply, ?_⟩
  funext s
  unfold overwritten
  split
  · rename_i hin
    exact hstored.kept hlast (fun i _ => Reply.kept_of_taken (hd _)) hin.1 hin.2
  · exact hstored.below hlast (by omega)

theorem ataReadSectors_exact (hd : d.ErrorFree) (m : Mem) (dst : ℕ) (hpos : 1 ≤ count)
    (hlt : count ≤ 255) (hlast : lba + count ≤ lbaLimit) :
    ∃ d' m', ataReadSectors d m lba count dst = some ((count : ℤ), d', m') ∧ d'.ErrorFree ∧
      d'.sector = d.sector ∧ m' = m.blitBlocks dst count (heldByte d.sector lba) := by
  obtain ⟨⟨r, d', m'⟩, hread⟩ := ataReadSectors_of_errorFree hd m lba count dst
  obtain ⟨hr, hunw, hmem⟩ := ataReadSectors_some hread
  have hmod : count % 2 ^ 8 = count := Nat.mod_eq_of_lt (by omega)
  rw [hd.passed, hmod] at hmem
  rw [hd.answer_eq hpos hlt] at hr
  refine ⟨d', m', hr ▸ hread, hd.congr hunw.reply, hunw.sector, ?_⟩
  rw [hmem]
  apply Mem.blitBlocks_congr
  intro j hj
  rw [Drive.byteAt, heldByte, Nat.mod_eq_of_lt (by omega)]

end

/-- The write returns its count and changes exactly the sectors it names, to the bytes of its
buffer in order. -/
def WritesInOrder (d : Drive) (m : Mem) (lba count src : ℕ) : Prop :=
  ∃ d', ataWriteSectors d m lba count src = some ((count : ℤ), d') ∧
    d'.sector = overwritten 512 d.sector m lba count src

/-- The read returns its count, changes no sector and delivers the sectors it names in order. -/
def ReadsInOrder (d : Drive) (m : Mem) (lba count dst : ℕ) : Prop :=
  ∃ d' m', ataReadSectors d m lba count dst = some ((count : ℤ), d', m') ∧
    d'.sector = d.sector ∧ ∀ j < 512 * count, m'.get (dst + j) = heldByte d.sector lba j

/-- The bytes of a buffer, read with gaps, are those read without. -/
def SourceEven (m : Mem) (count src : ℕ) : Prop :=
  ∀ x < 512 * count, m.get (src + spread x) = m.get (src + x)

/-- What a read with gaps makes of a buffer is what a read without would make of it: each place
gets the byte that belongs there or, where it lies in a gap, holds it already. -/
def TargetEven (held : ℕ → Byte) (m : Mem) (count dst : ℕ) : Prop :=
  ∀ j < 512 * count, (if InBlock count j then held (gather j) else m.get (dst + j)) = held j

section

variable {d : Drive} {lba count : ℕ}

theorem sourceEven_iff (m : Mem) (count src : ℕ) :
    SourceEven m count src ↔
      ∀ k < count, sectorAt m (src + 1024 * k) = sectorAt m (src + 512 * k) := by
  constructor
  · intro h k hk
    funext i
    have hi := i.isLt
    have hx := h (512 * k + i) (by omega)
    have hspread : spread (512 * k + i) = 1024 * k + i := by
      unfold spread
      omega
    rwa [hspread, ← Nat.add_assoc, ← Nat.add_assoc] at hx
  · intro h x hx
    have hk := congrFun (h (x / 512) (by omega)) ⟨x % 512, Nat.mod_lt _ (by decide)⟩
    have hplace : src + 512 * (x / 512) + x % 512 = src + x := by omega
    unfold sectorAt at hk
    rwa [hplace, Nat.add_assoc] at hk

theorem writesInOrder_iff (hd : d.ErrorFree) (m : Mem) (src : ℕ) (hpos : 1 ≤ count)
    (hlt : count ≤ 255) (hlast : lba + count ≤ lbaLimit) :
    WritesInOrder d m lba count src ↔ SourceEven m count src := by
  obtain ⟨d₁, hwrite, -, hsector⟩ := ataWriteSectors_exact hd m src hpos hlt hlast
  rw [sourceEven_iff]
  constructor
  · rintro ⟨d', hwrite', hsector'⟩ k hk
    obtain rfl : d₁ = d' := by simpa [hwrite] using hwrite'
    have hat := congrFun (hsector.symm.trans hsector') (lba + k)
    unfold overwritten at hat
    rwa [if_pos (by omega), if_pos (by omega), Nat.add_sub_cancel_left] at hat
  · intro h
    refine ⟨d₁, hwrite, ?_⟩
    rw [hsector]
    funext s
    unfold overwritten
    split
    · exact h _ (by omega)
    · rfl

theorem readsInOrder_iff (hd : d.ErrorFree) (m : Mem) (dst : ℕ) (hpos : 1 ≤ count)
    (hlt : count ≤ 255) (hlast : lba + count ≤ lbaLimit) :
    ReadsInOrder d m lba count dst ↔ TargetEven (heldByte d.sector lba) m count dst := by
  obtain ⟨d₁, m₁, hread, -, hsame, hmem⟩ := ataReadSectors_exact hd m dst hpos hlt hlast
  have hreach : blockReach count ≤ 2 ^ 32 := by
    unfold blockReach
    omega
  have hget (j : ℕ) (hj : j < 512 * count) : m₁.get (dst + j) =
      if InBlock count j then heldByte d.sector lba (gather j) else m.get (dst + j) := by
    rw [hmem, Mem.get_blitBlocks m dst _ _ hreach, Mem.offset_add dst (by omega)]
  constructor
  · rintro ⟨d', m', hread', -, hbytes⟩ j hj
    obtain ⟨rfl, rfl⟩ : d₁ = d' ∧ m₁ = m' := by simpa [hread] using hread'
    rw [← hget j hj, hbytes j hj]
  · intro h
    refine ⟨d₁, m₁, hread, hsame, ?_⟩
    intro j hj
    rw [hget j hj, h j hj]

theorem sourceEven_one (m : Mem) (src : ℕ) : SourceEven m 1 src := by
  intro x hx
  rw [spread_of_lt (by omega)]

theorem targetEven_one (held : ℕ → Byte) (m : Mem) (dst : ℕ) : TargetEven held m 1 dst := by
  intro j hj
  rw [if_pos (inBlock_one.mpr (by omega)), gather_of_lt (by omega)]

def spotMemory (a : ℕ) (v : Byte) : Mem := ⟨fun b => if b = a then v else 0#8, []⟩

theorem exists_not_sourceEven (h : 1 < count) : ∃ m src, ¬ SourceEven m count src := by
  refine ⟨spotMemory 512 1#8, 0, ?_⟩
  intro hall
  exact absurd (hall 512 (by omega)) (by decide)

theorem exists_not_targetEven (held : ℕ → Byte) (h : 1 < count) :
    ∃ m dst, ¬ TargetEven held m count dst := by
  refine ⟨spotMemory 512 (held 512 + 1#8), 0, ?_⟩
  intro hall
  have hgap := hall 512 (by omega)
  rw [if_neg (fun hin => absurd hin.1 (by decide))] at hgap
  have hne : held 512 + 1#8 ≠ held 512 := by
    generalize held 512 = v
    bv_omega
  exact hne hgap

end

/-- The law of a write and a read after it. -/
def RoundTrip (d : Drive) (m : Mem) (lba count src : ℕ) (m₁ : Mem) (lba₁ count₁ dst : ℕ) : Prop :=
  WritesInOrder d m lba count src ∧
    ∀ d', ataWriteSectors d m lba count src = some ((count : ℤ), d') →
      ReadsInOrder d' m₁ lba₁ count₁ dst

section

variable {d : Drive} {lba count lba₁ count₁ : ℕ}

/-- The law holds of a write and a read exactly where the gaps do no harm, which is so for every
buffer only where both transfer one sector. -/
theorem ataTransfer_roundTrip_iff (hd : d.ErrorFree) (hpos : 1 ≤ count) (hlt : count ≤ 255)
    (hlast : lba + count ≤ 2 ^ 28) (hpos₁ : 1 ≤ count₁) (hlt₁ : count₁ ≤ 255)
    (hlast₁ : lba₁ + count₁ ≤ 2 ^ 28) :
    (∀ m src m₁ dst, RoundTrip d m lba count src m₁ lba₁ count₁ dst ↔
      SourceEven m count src ∧
        TargetEven (heldByte (overwritten 512 d.sector m lba count src) lba₁) m₁ count₁ dst) ∧
    ((∀ m src m₁ dst, RoundTrip d m lba count src m₁ lba₁ count₁ dst) ↔
      count = 1 ∧ count₁ = 1) := by
  have hexact (m : Mem) (src : ℕ) (m₁ : Mem) (dst : ℕ) :
      RoundTrip d m lba count src m₁ lba₁ count₁ dst ↔ SourceEven m count src ∧
        TargetEven (heldByte (overwritten 512 d.sector m lba count src) lba₁) m₁ count₁ dst := by
    obtain ⟨d₁, hwrite, hd₁, hsector⟩ := ataWriteSectors_exact hd m src hpos hlt hlast
    have hreads := readsInOrder_iff hd₁ m₁ dst hpos₁ hlt₁ hlast₁
    rw [RoundTrip, writesInOrder_iff hd m src hpos hlt hlast]
    refine and_congr_right fun heven => ?_
    have hsame : d₁.sector = overwritten 512 d.sector m lba count src := by
      obtain ⟨d', hwrite', hsector'⟩ := (writesInOrder_iff hd m src hpos hlt hlast).mpr heven
      obtain rfl : d₁ = d' := by simpa [hwrite] using hwrite'
      exact hsector'
    rw [← hsame, ← hreads]
    constructor
    · intro h
      exact h d₁ hwrite
    · intro h d' hwrite'
      obtain rfl : d₁ = d' := by simpa [hwrite] using hwrite'
      exact h
  refine ⟨hexact, ?_⟩
  constructor
  · intro hall
    constructor
    · by_contra hne
      have hlt' : 1 < count := by omega
      obtain ⟨m, src, hnot⟩ := exists_not_sourceEven hlt'
      exact hnot ((hexact m src m 0).mp (hall m src m 0)).1
    · by_contra hne
      have hlt' : 1 < count₁ := by omega
      obtain ⟨m₁, dst, hnot⟩ := exists_not_targetEven
        (heldByte (overwritten 512 d.sector (spotMemory 0 0#8) lba count 0) lba₁) hlt'
      exact hnot ((hexact _ 0 m₁ dst).mp (hall _ 0 m₁ dst)).2
  · rintro ⟨rfl, rfl⟩ m src m₁ dst
    exact (hexact m src m₁ dst).mpr ⟨sourceEven_one m src, targetEven_one _ m₁ dst⟩

end

/-- A disk of zeros that is busy for three status reads and raises `DRQ` two reads later. -/
def slowDisk : Drive := .blank ⟨3, 2, true, false, true⟩

theorem slowDisk_errorFree : slowDisk.ErrorFree := Drive.blank_errorFree rfl

def rampMemory : Mem := ⟨BitVec.ofNat 8, []⟩

theorem slowDisk_roundTrip :
    RoundTrip slowDisk rampMemory 5 1 0x1000 rampMemory 5 1 0x8000 ∧
      ¬ ∀ m src m₁ dst, RoundTrip slowDisk m 5 2 src m₁ 5 2 dst := by
  constructor
  · exact (ataTransfer_roundTrip_iff slowDisk_errorFree (by decide : 1 ≤ 1) (by decide)
      (by decide : 5 + 1 ≤ 2 ^ 28) (by decide : 1 ≤ 1) (by decide)
      (by decide : 5 + 1 ≤ 2 ^ 28)).2.mpr ⟨rfl, rfl⟩ _ _ _ _
  · intro hall
    exact absurd ((ataTransfer_roundTrip_iff slowDisk_errorFree (by decide : 1 ≤ 2) (by decide)
      (by decide : 5 + 2 ≤ 2 ^ 28) (by decide : 1 ≤ 2) (by decide)
      (by decide : 5 + 2 ≤ 2 ^ 28)).2.mp hall).1 (by decide)

/-- Of two sectors that are written to a disk, the second comes from 1024 bytes behind the first. -/
theorem slowDisk_not_roundTrip :
    ¬ RoundTrip slowDisk (spotMemory 0x1200 1#8) 5 2 0x1000 (spotMemory 0 0#8) 5 2 0x8000 := by
  rintro ⟨hwrites, -⟩
  have heven := (writesInOrder_iff slowDisk_errorFree _ 0x1000 (by decide) (by decide)
    (by decide)).mp hwrites
  exact absurd (heven 512 (by decide)) (by decide)

end System44
