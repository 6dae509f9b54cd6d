import Mathlib.Data.List.TakeWhile
import System44.Vfs

/-!
# What a write counts

On the terminal `vfs_l_write` returns the length of the piece that it has cut off and copied, and
`tty_puts` shows the copy up to its first NUL. On a file it returns what the transfer of the
superblock returned, which is 1 whatever the length.
-/

namespace System44

def StoredExactly (M M' : Machine) (sb buf k : ℕ) : Prop :=
  (fileSize M'.mem sb (fileCount M.mem sb)).toNat = k ∧ ∀ t < k,
    M'.disk.byteAt (startLba M'.mem sb (fileCount M.mem sb)).toNat t = M.mem.get (buf + t)

/-- A result `k` that is not an error counts the bytes that were delivered. -/
def CountsDelivered (M : Machine) (sb f buf : ℕ) (count : BitVec 32) (w : VfsWritten) : Prop :=
  0 ≤ w.result → ∃ k : ℕ, w.result = k ∧ k ≤ count.toNat ∧
    (f = ttyHandle → w.shown = bytesFrom M.mem buf k) ∧
    (f ≠ ttyHandle → StoredExactly M w.machine sb buf k)

section

variable {M : Machine} {sb buf : ℕ} {count : BitVec 32} {w : VfsWritten}

theorem vfsLWrite_tty (h : vfsLWrite M sb ttyHandle buf count = some w) :
    w.result = (min 511 count.toNat : ℕ) ∧ w.machine = M ∧
      w.shown = (bytesFrom M.mem buf (min 511 count.toNat)).takeWhile (· ≠ 0#8) := by
  have hlen : (if 512 ≤ count.toNat then 511 else count.toNat) = min 511 count.toNat := by
    split <;> omega
  rw [vfsLWrite, if_neg (by decide), if_pos rfl, hlen] at h
  obtain rfl := Option.some_inj.mp h
  exact ⟨rfl, rfl, rfl⟩

theorem takeWhile_bytesFrom {m : Mem} {a k : ℕ} :
    (bytesFrom m a k).takeWhile (· ≠ 0#8) = bytesFrom m a k ↔ ∀ t < k, m.get (a + t) ≠ 0#8 := by
  rw [List.takeWhile_eq_self_iff]
  constructor
  · intro h t ht
    have hb := h (m.get (a + t)) (List.mem_map.mpr ⟨t, List.mem_range.mpr ht, rfl⟩)
    exact of_decide_eq_true hb
  · intro h b hb
    obtain ⟨t, ht, rfl⟩ := List.mem_map.mp hb
    exact decide_eq_true (h t (List.mem_range.mp ht))

theorem countsDelivered_tty_iff (h : vfsLWrite M sb ttyHandle buf count = some w) :
    CountsDelivered M sb ttyHandle buf count w ↔
      ∀ t < min 511 count.toNat, M.mem.get (buf + t) ≠ 0#8 := by
  obtain ⟨hr, -, hshown⟩ := vfsLWrite_tty h
  rw [← takeWhile_bytesFrom, ← hshown]
  constructor
  · intro hcounts
    obtain ⟨k, hk, -, htty, -⟩ := hcounts (hr ▸ Int.natCast_nonneg _)
    obtain rfl : min 511 count.toNat = k := Int.ofNat_inj.mp (hr.symm.trans hk)
    exact htty rfl
  · exact fun hall _ => ⟨_, hr, Nat.min_le_right .., fun _ => hall, fun hne => absurd rfl hne⟩

end

/-- The disk's answer to the transfer of the superblock, which comes behind that of the data. -/
def superblockReply (d : Drive) (count : BitVec 32) : Reply :=
  d.reply (d.firstReply (kfsSectors count).toNat + d.passed (kfsSectors count).toNat + 1)

/-- The first byte that the new file has on the disk, if it has one sector: that of the buffer
unless the disk does not take it. -/
def firstByteKept (M : Machine) (sb f len buf : ℕ) : Byte :=
  if (M.disk.reply (M.disk.serial + 1)).taken then (entryAdded M.mem sb f len 1#32).get buf
  else M.disk.byteAt (nextLba M.mem sb (fileCount M.mem sb)).toNat 0

theorem Drive.Written.sector_one {d d' : Drive} {lba : ℕ} {src : ℕ → Sector}
    {stored : List (ℕ × Sector)} (hlba : lba < lbaLimit)
    (hw : d.Written d' (d.serial + 1) lba (d.passed 1) src stored) :
    d'.sector lba = if (d.reply (d.serial + 1)).taken then src 0 else d.sector lba := by
  have hlimit : lbaLimit = 2 ^ 28 := rfl
  have hpassed : d.passed 1 ≤ 1 := streak_le ..
  split
  · rename_i htaken
    have hone : d.passed 1 = 1 := by rw [passed_one, if_pos (Reply.good_of_taken htaken)]
    rw [hone] at hw
    exact hw.sector (lba, src 0) ((hw.mem_iff (by omega) _).mpr
      ⟨0, Nat.one_pos, Reply.kept_of_taken htaken, rfl⟩)
  · rename_i hlost
    apply hw.frame lba
    intro x hx
    obtain ⟨j, hj, hkept, rfl⟩ := (hw.mem_iff (by omega) x).mp hx
    obtain rfl : j = 0 := by omega
    rw [passed_one] at hj
    refine absurd ?_ hlost
    rw [Reply.taken, Bool.and_eq_true_iff]
    refine ⟨?_, hkept⟩
    by_contra hbad
    rw [if_neg hbad] at hj
    exact Nat.not_lt_zero 0 hj

section

variable {M M' : Machine} {sb i buf len : ℕ} {count : BitVec 32} {r : ℤ}
  (hk : fileCount M.mem sb < kfsMaxFiles) (hi : i < fileCount M.mem sb)
  (hname : StringAt M.mem (kfsFile sb i) len)
  (h : kfsWrite M sb (kfsFile sb i) buf count = some (r, M'))

include hk hi hname h

theorem kfsWrite_result : (0 ≤ r ↔ (superblockReply M.disk count).good = true) ∧
    (0 ≤ r → r = 1) := by
  obtain ⟨-, -, r', disk, hdata, hsuper⟩ := kfsWrite_again hk hi hname h
  obtain ⟨-, stored, hwd⟩ := ataWriteSectors_some hdata
  obtain ⟨rfl, -⟩ := ataWriteSectors_some hsuper
  rw [superblockReply, ← hwd.reply, ← hwd.serial, answer_one_nonneg]
  refine ⟨Iff.rfl, fun hgood => ?_⟩
  rw [Drive.answer, passed_one, if_pos hgood]
  rfl

theorem byteAt_kfsWrite_one (hone : count = 1#32) :
    M'.disk.byteAt (nextLba M.mem sb (fileCount M.mem sb)).toNat 0 =
      firstByteKept M sb (kfsFile sb i) len buf := by
  subst hone
  obtain ⟨-, hmem, r', disk, hdata, hsuper⟩ := kfsWrite_again hk hi hname h
  obtain ⟨-, stored, hwd⟩ := ataWriteSectors_some hdata
  obtain ⟨-, stored', hws⟩ := ataWriteSectors_some hsuper
  have hmax : fileCount M.mem sb < 8 := hk
  obtain ⟨hsum, hbound⟩ := toNat_nextLba M.mem sb (Nat.le_of_lt hk)
  have hlimit : lbaLimit = 2 ^ 28 := rfl
  have hsectors : (kfsSectors 1#32).toNat = 1 := rfl
  have hpassed' : disk.passed 1 ≤ 1 := streak_le ..
  have hfirst : M.disk.firstReply 1 = M.disk.serial + 1 := if_neg (by decide)
  rw [hsectors, hfirst] at hwd
  generalize hlba : (nextLba M.mem sb (fileCount M.mem sb)).toNat = lba at hsum hbound hwd ⊢
  have hlt : lba < lbaLimit := by omega
  rw [Drive.byteAt_of_lt hlt (by decide), hws.below (by omega) (Or.inr (by omega)),
    hwd.sector_one hlt, firstByteKept, hlba, ← hmem]
  split
  · rfl
  · rw [Drive.byteAt_of_lt hlt (by decide)]

theorem countsDelivered_file_iff :
    CountsDelivered M sb (kfsFile sb i) buf count ⟨r, M', []⟩ ↔
      (superblockReply M.disk count).good = false ∨
        count = 1#32 ∧ firstByteKept M sb (kfsFile sb i) len buf = M.mem.get buf := by
  obtain ⟨hgood, hone⟩ := kfsWrite_result hk hi hname h
  obtain ⟨-, hmem, -⟩ := kfsWrite_again hk hi hname h
  have hsize : fileSize M'.mem sb (fileCount M.mem sb) = count := by
    rw [hmem, fileSize_entryAdded]
  have hstart : startLba M'.mem sb (fileCount M.mem sb) =
      nextLba M.mem sb (fileCount M.mem sb) := by
    rw [hmem, startLba_entryAdded]
  by_cases hr : 0 ≤ r
  · obtain rfl := hone hr
    rw [hgood.mp hr]
    constructor
    · intro hcounts
      obtain ⟨k, hk1, -, -, hstored⟩ := hcounts hr
      obtain rfl : k = 1 := Int.ofNat_inj.mp hk1.symm
      obtain ⟨hlen, hbytes⟩ := hstored (kfsFile_ne sb i).2
      rw [hsize] at hlen
      have hcount : count = 1#32 := BitVec.eq_of_toNat_eq hlen
      have hbyte := hbytes 0 Nat.one_pos
      rw [hstart, byteAt_kfsWrite_one hk hi hname h hcount] at hbyte
      exact Or.inr ⟨hcount, hbyte⟩
    · rintro (hbad | ⟨hcount, hbyte⟩) _
      · cases hbad
      · refine ⟨1, rfl, ?_, fun htty => absurd htty (kfsFile_ne sb i).2, fun _ => ⟨?_, ?_⟩⟩
        · rw [hcount]
          decide
        · rw [hsize, hcount]
          rfl
        · intro t ht
          obtain rfl : t = 0 := Nat.lt_one_iff.mp ht
          rw [hstart, byteAt_kfsWrite_one hk hi hname h hcount, hbyte, Nat.add_zero]
  · refine iff_of_true (fun hr' => absurd hr' hr) (Or.inl ?_)
    rw [← Bool.not_eq_true, ← hgood]
    exact hr

end

def demoTtyVolume : Machine :=
  { demoFileVolume with
    mem := demoFileVolume.mem.blit 0x50000 8 fun t => ttyPath.getD t 0#8 }

def writeAll (sb f : ℕ) : ℕ → Machine → ℕ → ℕ → Option (List Byte)
  | 0, _, _, _ => some []
  | n + 1, M, buf, left =>
    if left = 0 then some []
    else do
      let w ← vfsLWrite M sb f buf (BitVec.ofNat 32 left)
      let rest ← writeAll sb f n w.machine (buf + w.result.toNat) (left - w.result.toNat)
      some (w.shown ++ rest)

/-- On the terminal the whole buffer is shown, once and in order, if it has no NUL. -/
theorem writeAll_tty (M : Machine) (sb : ℕ) {n buf left : ℕ} (hn : left ≤ n) (hleft : left < 2 ^ 32)
    (hplain : ∀ t < left, M.mem.get (buf + t) ≠ 0#8) :
    writeAll sb ttyHandle n M buf left = some (bytesFrom M.mem buf left) := by
  induction n generalizing buf left with
  | zero =>
      obtain rfl : left = 0 := Nat.le_zero.mp hn
      rfl
  | succ n ih =>
      rw [writeAll]
      by_cases h0 : left = 0
      · rw [if_pos h0, h0]
        rfl
      · have hcount : (BitVec.ofNat 32 left).toNat = left := by
          rw [BitVec.toNat_ofNat, Nat.mod_eq_of_lt hleft]
        obtain ⟨w, hw⟩ : ∃ w, vfsLWrite M sb ttyHandle buf (BitVec.ofNat 32 left) = some w :=
          ⟨_, rfl⟩
        obtain ⟨hr, hM, hshown⟩ := vfsLWrite_tty hw
        rw [hcount] at hr hshown
        have hpiece : w.shown = bytesFrom M.mem buf (min 511 left) := by
          rw [hshown]
          exact takeWhile_bytesFrom.mpr fun t ht => hplain t (by omega)
        have hsum : left = min 511 left + (left - min 511 left) := by omega
        rw [if_neg h0, hw, Option.bind_eq_bind, Option.bind_some, hM, hr, Int.toNat_natCast,
          ih (by omega) (by omega) fun t ht => ?_, hpiece, Option.bind_eq_bind, Option.bind_some,
          ← bytesFrom_append, ← hsum]
        rw [Nat.add_assoc]
        exact hplain _ (by omega)

end System44
