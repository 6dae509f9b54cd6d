import System44.Ata
import System44.Spread

/-!
# What a transfer does

The disk's answers decide how far a transfer gets: sectors go through the data port as long as the
answers are good, and `streak` counts them. The theorems about `ataReadSectors` and
`ataWriteSectors` say what then has become of the memory and of the disk, whatever the answers are.
-/

namespace System44

/-- The answer that lets a sector pass. -/
def Reply.good (r : Reply) : Bool := r.drq && !r.err

/-- How many of the answers `n`, `n + 1`, ... are good in a row, up to `limit`. -/
def streak (reply : ℕ → Reply) (n : ℕ) : ℕ → ℕ
  | 0 => 0
  | limit + 1 => if (reply n).good then streak reply (n + 1) limit + 1 else 0

theorem streak_le (reply : ℕ → Reply) (n limit : ℕ) : streak reply n limit ≤ limit := by
  induction limit generalizing n with
  | zero => exact Nat.le_refl _
  | succ limit ih =>
      rw [streak]
      have := ih (n + 1)
      split <;> omega

theorem good_of_lt_streak {reply : ℕ → Reply} {n limit i : ℕ} (h : i < streak reply n limit) :
    (reply (n + i)).good = true := by
  induction limit generalizing n i with
  | zero => exact absurd h (Nat.not_lt_zero i)
  | succ limit ih =>
      rw [streak] at h
      by_cases hgood : (reply n).good = true
      · rw [if_pos hgood] at h
        cases i with
        | zero => exact hgood
        | succ i =>
            rw [Nat.add_comm i 1, ← Nat.add_assoc]
            exact ih (by omega)
      · rw [if_neg hgood] at h
        exact absurd h (Nat.not_lt_zero i)

theorem not_good_streak {reply : ℕ → Reply} {n limit : ℕ} (h : streak reply n limit < limit) :
    (reply (n + streak reply n limit)).good = false := by
  induction limit generalizing n with
  | zero => exact absurd h (Nat.not_lt_zero _)
  | succ limit ih =>
      rw [streak] at h ⊢
      cases hgood : (reply n).good with
      | true =>
          simp only [hgood, if_true] at h ⊢
          rw [Nat.add_comm _ 1, ← Nat.add_assoc]
          exact ih (Nat.lt_of_succ_lt_succ h)
      | false => exact hgood

theorem streak_eq_iff {reply : ℕ → Reply} {n limit : ℕ} :
    streak reply n limit = limit ↔ ∀ i < limit, (reply (n + i)).good = true := by
  constructor
  · intro h i hi
    exact good_of_lt_streak (h.symm ▸ hi)
  · intro h
    induction limit generalizing n with
    | zero => rfl
    | succ limit ih =>
        have hfirst : (reply n).good = true := h 0 (Nat.succ_pos limit)
        rw [streak, if_pos hfirst, ih]
        intro i hi
        rw [Nat.add_assoc, Nat.add_comm 1 i]
        exact h (i + 1) (by omega)

namespace Drive

/-- Nothing is left to wait for. -/
def settled (d : Drive) : Drive := { d with busy := 0, pause := 0 }

/-- A status read has found the disk no longer busy. -/
def ready (d : Drive) : Drive := { d with busy := 0, pause := d.pause - 1 }

/-- Byte `i` of the sectors from `lba` on. -/
def byteAt (d : Drive) (lba i : ℕ) : Byte := (d.sector ((lba + i / 512) % lbaLimit)).byte i

/-- From `d` to `d'` the disk has stored nothing, and its last answer is now number `serial`. -/
structure Unwritten (d d' : Drive) (serial : ℕ) : Prop where
  sector : d'.sector = d.sector
  reply : d'.reply = d.reply
  accepted : d'.accepted = d.accepted
  serial : d'.serial = serial

theorem Unwritten.refl (d : Drive) : d.Unwritten d d.serial := ⟨rfl, rfl, rfl, rfl⟩

theorem settled_unwritten (d : Drive) : d.Unwritten d.settled d.serial := ⟨rfl, rfl, rfl, rfl⟩

theorem ready_unwritten (d : Drive) : d.Unwritten d.ready d.serial := ⟨rfl, rfl, rfl, rfl⟩

theorem Unwritten.byteAt {d d' : Drive} {n : ℕ} (h : d.Unwritten d' n) : d'.byteAt = d.byteAt := by
  funext lba i
  rw [Drive.byteAt, Drive.byteAt, h.sector]

theorem Unwritten.trans {d₁ d₂ d₃ : Drive} {n n' : ℕ} (h : Unwritten d₁ d₂ n)
    (h' : Unwritten d₂ d₃ n') : Unwritten d₁ d₃ n' where
  sector := h'.sector.trans h.sector
  reply := h'.reply.trans h.reply
  accepted := h'.accepted.trans h.accepted
  serial := h'.serial

/-- Each of `k` sectors has been sent to `lba`, `lba + 1`, ... on the answers from `first` on, and
those that the disk kept, now listed in `stored`, are the only ones that changed. -/
structure Written (d d' : Drive) (first lba k : ℕ) (src : ℕ → Sector)
    (stored : List (ℕ × Sector)) : Prop where
  mem_stored : ∀ x, x ∈ stored ↔
    ∃ i < k, (d.reply (first + i)).kept = true ∧ x = ((lba + i) % lbaLimit, src i)
  accepted : d'.accepted = stored ++ d.accepted
  sector : ∀ x ∈ stored, d'.sector x.1 = x.2
  frame : ∀ a, (∀ x ∈ stored, x.1 ≠ a) → d'.sector a = d.sector a
  reply : d'.reply = d.reply
  serial : d'.serial = first + k

theorem Written.of_mod {d d' : Drive} {first lba k : ℕ} {src : ℕ → Sector}
    {stored : List (ℕ × Sector)} (h : Written d d' first (lba % lbaLimit) k src stored) :
    Written d d' first lba k src stored where
  mem_stored x := by
    rw [h.mem_stored x]
    simp only [Nat.mod_add_mod]
  accepted := h.accepted
  sector := h.sector
  frame := h.frame
  reply := h.reply
  serial := h.serial

theorem Written.mem_iff {d d' : Drive} {first lba k : ℕ} {src : ℕ → Sector}
    {stored : List (ℕ × Sector)} (h : d.Written d' first lba k src stored)
    (hlast : lba + k ≤ lbaLimit) (x : ℕ × Sector) :
    x ∈ stored ↔ ∃ i < k, (d.reply (first + i)).kept = true ∧ x = (lba + i, src i) := by
  rw [h.mem_stored x]
  refine exists_congr fun i => and_congr_right fun hi => ?_
  rw [Nat.mod_eq_of_lt (by omega)]

/-- A transfer to `lba`, `lba + 1`, ... changes no sector below `lba`, unless it wraps round. -/
theorem Written.below {d d' : Drive} {first lba k s : ℕ} {src : ℕ → Sector}
    {stored : List (ℕ × Sector)} (h : d.Written d' first lba k src stored)
    (hlast : lba + k ≤ lbaLimit) (hs : s < lba ∨ lba + k ≤ s) : d'.sector s = d.sector s := by
  apply h.frame
  intro x hx
  obtain ⟨i, hi, -, rfl⟩ := (h.mem_iff hlast x).mp hx
  change lba + i ≠ s
  omega

theorem Unwritten.trans_written {d₁ d₂ d₃ : Drive} {n first lba k : ℕ} {src : ℕ → Sector}
    {stored : List (ℕ × Sector)} (h : Unwritten d₁ d₂ n)
    (h' : Written d₂ d₃ first lba k src stored) : Written d₁ d₃ first lba k src stored where
  mem_stored x := by rw [h'.mem_stored x, h.reply]
  accepted := by rw [h'.accepted, h.accepted]
  sector := h'.sector
  frame a ha := by rw [h'.frame a ha, h.sector]
  reply := h'.reply.trans h.reply
  serial := h'.serial

end Drive

theorem pollUntil_busy {done : Byte → Bool} (hdone : done ataStatusBsy = false) (fuel b : ℕ)
    (d : Drive) :
    pollUntil done (b + fuel) { d with busy := b } = pollUntil done fuel { d with busy := 0 } := by
  induction b with
  | zero => rw [Nat.zero_add]
  | succ b ih =>
      rw [Nat.add_right_comm, pollUntil]
      simp only [Drive.inbStatus, Drive.status, Drive.polled, Nat.succ_pos, if_true, hdone,
        Bool.false_eq_true, if_false, Nat.add_sub_cancel]
      exact ih

theorem pollUntil_pause {done : Byte → Bool} (hdone : done 0#8 = false) (fuel p : ℕ) (d : Drive) :
    pollUntil done (p + fuel) { d with busy := 0, pause := p } = pollUntil done fuel d.settled := by
  induction p with
  | zero =>
      rw [Nat.zero_add]
      rfl
  | succ p ih =>
      rw [Nat.add_right_comm, pollUntil]
      simp only [Drive.inbStatus, Drive.status, Drive.polled, Nat.lt_irrefl, Nat.succ_pos, if_true,
        hdone, Bool.false_eq_true, if_false, Nat.add_sub_cancel]
      exact ih

theorem Drive.status_settled (d : Drive) :
    d.settled.status = (if (d.reply d.serial).drq ∧ 0 < d.left then ataStatusDrq else 0#8) |||
      if (d.reply d.serial).err then ataStatusErr else 0#8 := rfl

theorem Drive.inbStatus_settled (d : Drive) : d.settled.inbStatus = (d.settled.status, d.settled) :=
  rfl

theorem pollUntil_settled (done : Byte → Bool) (fuel : ℕ) (d : Drive) :
    pollUntil done (fuel + 1) d.settled =
      if done d.settled.status then some d.settled else none := by
  induction fuel with
  | zero => rfl
  | succ fuel ih =>
      rw [pollUntil, Drive.inbStatus_settled]
      by_cases h : done d.settled.status = true
      · simp only [h, if_true]
      · simp only [h, Bool.false_eq_true, if_false, ih]

/-- Reading the status more often than `patience` says does not help. -/
theorem pollUntil_patience {done : Byte → Bool} (hbusy : done ataStatusBsy = false)
    (hpause : done 0#8 = false) (d : Drive) (fuel : ℕ) :
    pollUntil done (d.patience + fuel) d = pollUntil done d.patience d := by
  have hrun (extra : ℕ) : pollUntil done (d.patience + extra) d =
      pollUntil done (extra + 1) d.settled := by
    have hsplit : d.patience + extra = d.busy + (d.pause + (extra + 1)) := by
      unfold Drive.patience
      omega
    rw [hsplit]
    exact (pollUntil_busy hbusy _ d.busy d).trans (pollUntil_pause hpause _ d.pause d)
  rw [hrun fuel, ← Nat.add_zero d.patience, hrun 0, pollUntil_settled, pollUntil_settled]

theorem ataWaitBusy_eq (d : Drive) : ataWaitBusy d = some d.ready := by
  have hfuel : d.patience = d.busy + (d.pause + 1) := by
    unfold Drive.patience
    omega
  rw [ataWaitBusy, hfuel]
  refine (pollUntil_busy (by decide) _ d.busy d).trans ?_
  rw [Drive.ready]
  cases d.pause with
  | succ p =>
      rw [pollUntil]
      simp [Drive.inbStatus, Drive.status, Drive.polled]
  | zero =>
      have hready : (d.settled.status &&& ataStatusBsy == 0#8) = true := by
        rw [Drive.status_settled]
        split <;> split <;> decide
      exact (pollUntil_settled _ 0 d).trans (if_pos hready)

theorem ataWaitDrq_eq {d : Drive} (hbusy : d.busy = 0) :
    ataWaitDrq d = if (d.reply d.serial).drq ∧ 0 < d.left then some d.settled else none := by
  have hfuel : d.patience = d.pause + (0 + 1) := by
    rw [Drive.patience, hbusy, Nat.zero_add, Nat.zero_add]
  have hd : d = { d with busy := 0, pause := d.pause } := by rw [← hbusy]
  rw [ataWaitDrq, hfuel]
  nth_rewrite 2 [hd]
  rw [pollUntil_pause (by decide), pollUntil_settled, Drive.status_settled]
  by_cases h : (d.reply d.serial).drq ∧ 0 < d.left
  · rw [if_pos h, if_pos h, if_pos (by split <;> decide)]
  · rw [if_neg h, if_neg h, if_neg (by split <;> decide)]

theorem ataWaitSector_eq {d : Drive} (hleft : 0 < d.left) :
    ataWaitSector d = if (d.reply d.serial).drq then some ((d.reply d.serial).err, d.settled)
      else none := by
  rw [ataWaitSector, ataWaitBusy_eq, Option.bind_eq_bind, Option.bind_some, ataWaitDrq_eq rfl]
  by_cases h : (d.reply d.serial).drq = true
  · rw [if_pos h, if_pos ⟨h, hleft⟩]
    have herr : (d.settled.status &&& ataStatusErr != 0#8) = (d.reply d.serial).err := by
      rw [Drive.status_settled, if_pos ⟨h, hleft⟩]
      cases (d.reply d.serial).err <;> decide
    rw [← herr]
    rfl
  · rw [if_neg h, if_neg (fun hc => h hc.1)]
    rfl

theorem Sector.byte_congr (s : Sector) {i j : ℕ} (h : i % 512 = j % 512) : s.byte i = s.byte j :=
  congrArg s (Fin.ext h)

theorem byte_sectorAt (m : Mem) (a i : ℕ) : (sectorAt m a).byte i = m.get (a + i % 512) := rfl

theorem byte_sectorAt_spread {m : Mem} {a i t : ℕ} (ht : t < 512) :
    (sectorAt m (a + 1024 * i)).byte t = m.get (a + spread (512 * i + t)) := by
  have hspread : spread (512 * i + t) = 1024 * i + t := by
    unfold spread
    omega
  rw [byte_sectorAt, Nat.mod_eq_of_lt ht, hspread, Nat.add_assoc]

theorem Drive.byteAt_of_lt {d : Drive} {lba i : ℕ} (hlba : lba < lbaLimit) (hi : i < 512) :
    d.byteAt lba i = (d.sector lba).byte i := by
  rw [Drive.byteAt, Nat.div_eq_of_lt hi, Nat.add_zero, Nat.mod_eq_of_lt hlba]

theorem Drive.byteAt_add {d : Drive} {lba i : ℕ} (hi : 512 ≤ i) :
    d.byteAt lba i = d.byteAt ((lba + 1) % lbaLimit) (i - 512) := by
  have hdiv : lba + i / 512 = lba + 1 + (i - 512) / 512 := by omega
  rw [Drive.byteAt, Drive.byteAt, Nat.mod_add_mod, hdiv]
  exact Sector.byte_congr _ (by omega)

theorem transferred_unwritten (d : Drive) :
    d.Unwritten d.settled.transferred (d.serial + 1) := ⟨rfl, rfl, rfl, rfl⟩

theorem readLoop_some {n : ℕ} {d d' : Drive} {m m' : Mem} {buf : ℕ} {done : Bool}
    (hleft : n ≤ d.left) (hcur : d.cur < lbaLimit)
    (h : readLoop n d m buf = some (done, d', m')) :
    (done = true ↔ streak d.reply d.serial n = n) ∧
      d.Unwritten d' (d.serial + streak d.reply d.serial n) ∧
      m' = m.blitBlocks buf (streak d.reply d.serial n) (d.byteAt d.cur) := by
  induction n generalizing d m buf with
  | zero =>
      obtain ⟨rfl, rfl, rfl⟩ : true = done ∧ d = d' ∧ m = m' := by simpa [readLoop] using h
      exact ⟨by simp [streak], .refl d, rfl⟩
  | succ n ih =>
      rw [readLoop, ataWaitSector_eq (by omega)] at h
      cases hdrq : (d.reply d.serial).drq with
      | false => simp [hdrq] at h
      | true =>
          cases herr : (d.reply d.serial).err with
          | true =>
              obtain ⟨rfl, rfl, rfl⟩ : false = done ∧ d.settled = d' ∧ m = m' := by
                simpa [hdrq, herr] using h
              have hbad : (d.reply d.serial).good = false := by simp [Reply.good, herr]
              rw [streak, hbad, if_neg Bool.false_ne_true]
              exact ⟨by simp, d.settled_unwritten, rfl⟩
          | false =>
              have hgood : (d.reply d.serial).good = true := by simp [Reply.good, hdrq, herr]
              have hrest : readLoop n d.settled.transferred
                  (m.blit buf 512 (d.settled.sector d.settled.cur).byte) (buf + 512 + 512) =
                  some (done, d', m') := by
                simpa [hdrq, herr, Drive.insw] using h
              obtain ⟨hdone, hunw, hmem⟩ := ih (d := d.settled.transferred)
                (Nat.le_sub_one_of_lt hleft) (Nat.mod_lt _ (by decide)) hrest
              have hstreak : streak d.reply d.serial (n + 1) =
                  streak d.reply (d.serial + 1) n + 1 := by rw [streak, if_pos hgood]
              rw [hstreak]
              refine ⟨hdone.trans (Nat.succ_inj).symm, ?_, ?_⟩
              · rw [Nat.add_comm _ 1, ← Nat.add_assoc]
                exact (transferred_unwritten d).trans hunw
              · rw [hmem, Mem.blitBlocks_succ, Nat.add_assoc buf]
                have hfirst : ∀ i < 512, (d.settled.sector d.settled.cur).byte i =
                    d.byteAt d.cur i := by
                  intro i hi
                  rw [Drive.byteAt_of_lt hcur hi]
                  rfl
                rw [Mem.blit_congr m buf hfirst]
                apply Mem.blitBlocks_congr
                intro i _
                rw [Drive.byteAt_add (Nat.le_add_right 512 i), Nat.add_sub_cancel_left]
                rfl

theorem Drive.Unwritten.written {d d' : Drive} {n : ℕ} (h : d.Unwritten d' n) (lba : ℕ)
    (src : ℕ → Sector) : d.Written d' n lba 0 src [] where
  mem_stored x := by simp
  accepted := h.accepted
  sector x hx := absurd hx List.not_mem_nil
  frame a _ := congrFun h.sector a
  reply := h.reply
  serial := h.serial

/-- A sector and then the rest of the transfer. -/
theorem Drive.Written.cons {d d' : Drive} {k : ℕ} (src : ℕ → Sector) {stored : List (ℕ × Sector)}
    (h : (d.settled.stored (src 0)).Written d' (d.serial + 1) ((d.cur + 1) % lbaLimit) k
      (fun i => src (i + 1)) stored)
    (hcur : d.cur < lbaLimit) (hk : k < lbaLimit) :
    d.Written d' d.serial d.cur (k + 1) src
      (stored ++ if (d.reply d.serial).kept then [(d.cur, src 0)] else []) := by
  have hreply : (d.settled.stored (src 0)).reply = d.reply := by
    unfold Drive.stored
    split <;> rfl
  have haway : ∀ x ∈ stored, x.1 ≠ d.cur := by
    intro x hx
    obtain ⟨i, hi, -, rfl⟩ := (h.mem_stored x).mp hx
    change ((d.cur + 1) % lbaLimit + i) % lbaLimit ≠ d.cur
    unfold lbaLimit at *
    omega
  constructor
  · intro x
    rw [List.mem_append, h.mem_stored x, hreply]
    constructor
    · rintro (⟨i, hi, hkept, hx⟩ | hx)
      · refine ⟨i + 1, by omega, by rwa [Nat.add_comm i 1, ← Nat.add_assoc], ?_⟩
        rw [hx, Nat.mod_add_mod, Nat.add_assoc, Nat.add_comm 1 i]
      · split at hx
        · rename_i hkept
          refine ⟨0, Nat.succ_pos k, hkept, ?_⟩
          rw [List.mem_singleton.mp hx, Nat.add_zero, Nat.mod_eq_of_lt hcur]
        · exact absurd hx List.not_mem_nil
    · rintro ⟨i, hi, hkept, hx⟩
      cases i with
      | zero =>
          right
          have hkept' : (d.reply d.serial).kept = true := hkept
          rw [if_pos hkept', hx, Nat.add_zero, Nat.mod_eq_of_lt hcur]
          exact List.mem_singleton.mpr rfl
      | succ i =>
          left
          refine ⟨i, by omega, by rwa [Nat.add_assoc, Nat.add_comm 1 i], ?_⟩
          rw [hx, Nat.mod_add_mod, Nat.add_assoc, Nat.add_comm 1 i]
  · rw [h.accepted, List.append_assoc]
    congr 1
    unfold Drive.stored
    change (if (d.reply d.serial).kept then _ else _ : Drive).accepted = _
    split <;> rfl
  · intro x hx
    rcases List.mem_append.mp hx with hx | hx
    · exact h.sector x hx
    · split at hx
      · rename_i hkept
        obtain rfl := List.mem_singleton.mp hx
        rw [h.frame _ haway]
        have hkept' : (d.settled.reply d.settled.serial).kept = true := hkept
        rw [Drive.stored, if_pos hkept']
        exact Function.update_self ..
      · exact absurd hx List.not_mem_nil
  · intro a ha
    rw [h.frame a fun x hx => ha x (List.mem_append_left _ hx)]
    unfold Drive.stored
    split
    · rename_i hkept
      have hkept' : (d.reply d.serial).kept = true := hkept
      rw [if_pos hkept'] at ha
      have hne : d.cur ≠ a :=
        ha (d.cur, src 0) (List.mem_append_right _ (List.mem_singleton_self _))
      exact Function.update_of_ne hne.symm ..
    · rfl
  · exact h.reply.trans hreply
  · rw [h.serial]
    omega

theorem stored_registers (d : Drive) (s : Sector) :
    (d.settled.stored s).left = d.left - 1 ∧
      (d.settled.stored s).cur = (d.cur + 1) % lbaLimit ∧
      (d.settled.stored s).reply = d.reply ∧
      (d.settled.stored s).serial = d.serial + 1 := by
  unfold Drive.stored
  split <;> exact ⟨rfl, rfl, rfl, rfl⟩

theorem writeLoop_some {n : ℕ} {d d' : Drive} {m : Mem} {buf : ℕ} {done : Bool}
    (hleft : n ≤ d.left) (hcur : d.cur < lbaLimit) (hn : n ≤ lbaLimit)
    (h : writeLoop n d m buf = some (done, d')) :
    (done = true ↔ streak d.reply d.serial n = n) ∧
      ∃ stored, d.Written d' d.serial d.cur (streak d.reply d.serial n)
        (fun i => sectorAt m (buf + 1024 * i)) stored := by
  induction n generalizing d buf with
  | zero =>
      obtain ⟨rfl, rfl⟩ : true = done ∧ d = d' := by simpa [writeLoop] using h
      exact ⟨by simp [streak], [], (Drive.Unwritten.refl d).written d.cur _⟩
  | succ n ih =>
      rw [writeLoop, ataWaitSector_eq (by omega)] at h
      cases hdrq : (d.reply d.serial).drq with
      | false => simp [hdrq] at h
      | true =>
          cases herr : (d.reply d.serial).err with
          | true =>
              obtain ⟨rfl, rfl⟩ : false = done ∧ d.settled = d' := by
                simpa [hdrq, herr] using h
              have hbad : (d.reply d.serial).good = false := by simp [Reply.good, herr]
              rw [streak, hbad, if_neg Bool.false_ne_true]
              exact ⟨by simp, [], d.settled_unwritten.written d.cur _⟩
          | false =>
              have hgood : (d.reply d.serial).good = true := by simp [Reply.good, hdrq, herr]
              have hrest : writeLoop n (d.settled.stored (sectorAt m buf)) m (buf + 512 + 512) =
                  some (done, d') := by
                simpa [hdrq, herr, Drive.outsw] using h
              obtain ⟨hl, hc, hr, hs⟩ := stored_registers d (sectorAt m buf)
              have hstreak : streak d.reply d.serial (n + 1) =
                  streak d.reply (d.serial + 1) n + 1 := by rw [streak, if_pos hgood]
              obtain ⟨hdone, stored, hw⟩ := ih (d := d.settled.stored (sectorAt m buf))
                (by omega) (by rw [hc]; exact Nat.mod_lt _ (by decide)) (by omega) hrest
              rw [hr, hs] at hdone hw
              rw [hc] at hw
              have hle := streak_le d.reply (d.serial + 1) n
              rw [hstreak]
              have hsrc : (fun i => sectorAt m (buf + 512 + 512 + 1024 * i)) =
                  fun i => sectorAt m (buf + 1024 * (i + 1)) := by
                funext i
                congr 1
                omega
              rw [hsrc] at hw
              exact ⟨hdone.trans (Nat.succ_inj).symm, _,
                Drive.Written.cons (fun i => sectorAt m (buf + 1024 * i)) hw hcur (by omega)⟩

theorem driveHead_mod (lba : ℕ) :
    (0xE0#8 ||| BitVec.ofNat 8 (lba / 2 ^ 24 % 16)).toNat % 16 = lba / 2 ^ 24 % 16 := by
  have hlt : lba / 2 ^ 24 % 16 < 16 := Nat.mod_lt _ (by decide)
  generalize lba / 2 ^ 24 % 16 = x at hlt ⊢
  interval_cases x <;> rfl

theorem lbaReg_eq {d : Drive} {lba : ℕ}
    (hhead : d.driveHead = 0xE0#8 ||| BitVec.ofNat 8 (lba / 2 ^ 24 % 16))
    (hlo : d.lbaLo = BitVec.ofNat 8 lba) (hmid : d.lbaMid = BitVec.ofNat 8 (lba / 2 ^ 8))
    (hhi : d.lbaHi = BitVec.ofNat 8 (lba / 2 ^ 16)) : d.lbaReg = lba % lbaLimit := by
  rw [Drive.lbaReg, hhead, driveHead_mod, hlo, hmid, hhi]
  simp only [BitVec.toNat_ofNat, lbaLimit]
  omega

theorem ataCommand_registers (d : Drive) (lba : ℕ) {count : ℕ} {command : Byte}
    (hcommand : command = ataCmdReadSectors ∨ command = ataCmdWriteSectors) (h0 : 0 < count)
    (hcount : count < 256) :
    d.Unwritten (ataCommand d lba count command) (d.serial + 1) ∧
      (ataCommand d lba count command).cur = lba % lbaLimit ∧
      (ataCommand d lba count command).left = count := by
  have hnat : (BitVec.ofNat 8 count).toNat = count := by
    rw [BitVec.toNat_ofNat, Nat.mod_eq_of_lt hcount]
  have hne : BitVec.ofNat 8 count ≠ 0#8 := by
    intro h
    rw [h] at hnat
    exact absurd hnat h0.ne
  have hstart : ataCommand d lba count command =
      Drive.start { d with
        driveHead := 0xE0#8 ||| BitVec.ofNat 8 (lba / 2 ^ 24 % 16)
        seccount := BitVec.ofNat 8 count
        lbaLo := BitVec.ofNat 8 lba
        lbaMid := BitVec.ofNat 8 (lba / 2 ^ 8)
        lbaHi := BitVec.ofNat 8 (lba / 2 ^ 16) } := by
    simp [ataCommand, Drive.outb, ataPrimarySeccount, ataPrimaryLbaLo, ataPrimaryLbaMid,
      ataPrimaryLbaHi, ataPrimaryDrive, ataPrimaryCommand, hcommand]
  rw [hstart]
  refine ⟨⟨rfl, rfl, rfl, rfl⟩, lbaReg_eq rfl rfl rfl rfl, ?_⟩
  rw [Drive.start, if_neg hne]
  exact hnat

namespace Drive

/-- The number of the first answer that the next command's sectors wait for. A command for no
sectors is never given. -/
def firstReply (d : Drive) (count : ℕ) : ℕ :=
  if count % 2 ^ 8 = 0 then d.serial else d.serial + 1

/-- How many sectors of the next command will be transferred. -/
def passed (d : Drive) (count : ℕ) : ℕ := streak d.reply (d.firstReply count) (count % 2 ^ 8)

/-- What the driver then returns. -/
def answer (d : Drive) (count : ℕ) : ℤ :=
  if count % 2 ^ 8 ≠ 0 ∧ d.passed count = count % 2 ^ 8 then (count % 2 ^ 8 : ℕ) else errFailed

end Drive

section

variable {d d₁ : Drive} {count : ℕ}

theorem Drive.answer_refused (h0 : count % 2 ^ 8 = 0) :
    d.answer count = errFailed ∧ d.firstReply count = d.serial ∧ d.passed count = 0 :=
  ⟨if_neg fun hc => hc.1 h0, if_pos h0, by rw [Drive.passed, h0, streak]⟩

theorem Drive.passed_started (h0 : count % 2 ^ 8 ≠ 0) (hstart : d.Unwritten d₁ (d.serial + 1)) :
    d.firstReply count = d₁.serial ∧
      d.passed count = streak d₁.reply d₁.serial (count % 2 ^ 8) := by
  have hfirst : d.firstReply count = d₁.serial := by
    rw [Drive.firstReply, if_neg h0, hstart.serial]
  exact ⟨hfirst, by rw [Drive.passed, hfirst, hstart.reply]⟩

theorem Drive.answer_done {done : Bool} (h0 : count % 2 ^ 8 ≠ 0)
    (hdone : done = true ↔ d.passed count = count % 2 ^ 8) :
    d.answer count = if done then ((count % 2 ^ 8 : ℕ) : ℤ) else errFailed := by
  cases done with
  | true => exact if_pos ⟨h0, hdone.mp rfl⟩
  | false => exact if_neg fun hc => Bool.false_ne_true (hdone.mpr hc.2)

end

theorem ataReadSectors_some {d d' : Drive} {m m' : Mem} {lba count buffer : ℕ} {r : ℤ}
    (h : ataReadSectors d m lba count buffer = some (r, d', m')) :
    r = d.answer count ∧ d.Unwritten d' (d.firstReply count + d.passed count) ∧
      m' = m.blitBlocks buffer (d.passed count) (d.byteAt lba) := by
  rw [ataReadSectors] at h
  by_cases h0 : count % 2 ^ 8 = 0
  · rw [if_pos h0] at h
    obtain ⟨rfl, rfl, rfl⟩ : errFailed = r ∧ d = d' ∧ m = m' := by simpa using h
    obtain ⟨hanswer, hfirst, hpassed⟩ := Drive.answer_refused (d := d) h0
    rw [hanswer, hfirst, hpassed]
    exact ⟨rfl, .refl d, rfl⟩
  · have hlt : count % 2 ^ 8 < 256 := Nat.mod_lt _ (by decide)
    rw [if_neg h0, ataWaitBusy_eq, Option.bind_eq_bind, Option.bind_some] at h
    obtain ⟨hcmd, hcur, hleft⟩ := ataCommand_registers d.ready lba (.inl rfl)
      (Nat.pos_of_ne_zero h0) hlt
    have hstart : d.Unwritten _ (d.serial + 1) := d.ready_unwritten.trans hcmd
    generalize ataCommand _ lba (count % 2 ^ 8) ataCmdReadSectors = d₁ at h hcur hleft hstart
    obtain ⟨⟨done, d₂, m₂⟩, hloop, hr⟩ := Option.bind_eq_some_iff.mp h
    obtain ⟨hdone, hunw, hmem⟩ := readLoop_some hleft.ge
      (hcur ▸ Nat.mod_lt _ (by decide)) hloop
    obtain ⟨hfirst, hpassed⟩ := Drive.passed_started h0 hstart
    have hbytes : d₁.byteAt d₁.cur = d.byteAt lba := by
      funext i
      rw [Drive.byteAt, Drive.byteAt, hcur, hstart.sector, Nat.mod_add_mod]
    rw [hbytes, ← hpassed] at hmem
    rw [← hpassed] at hunw hdone
    rw [← hfirst] at hunw
    rw [Drive.answer_done h0 hdone]
    cases done with
    | true =>
        obtain ⟨rfl, rfl, rfl⟩ : (count % 2 ^ 8 : ℕ) = r ∧ d₂ = d' ∧ m₂ = m' := by simpa using hr
        exact ⟨rfl, hstart.trans hunw, hmem⟩
    | false =>
        obtain ⟨rfl, rfl, rfl⟩ : errFailed = r ∧ d₂ = d' ∧ m₂ = m' := by simpa using hr
        exact ⟨rfl, hstart.trans hunw, hmem⟩

theorem ataWriteSectors_some {d d' : Drive} {m : Mem} {lba count buffer : ℕ} {r : ℤ}
    (h : ataWriteSectors d m lba count buffer = some (r, d')) :
    r = d.answer count ∧ ∃ stored, d.Written d' (d.firstReply count) lba (d.passed count)
      (fun i => sectorAt m (buffer + 1024 * i)) stored := by
  rw [ataWriteSectors] at h
  by_cases h0 : count % 2 ^ 8 = 0
  · rw [if_pos h0] at h
    obtain ⟨rfl, rfl⟩ : errFailed = r ∧ d = d' := by simpa using h
    obtain ⟨hanswer, hfirst, hpassed⟩ := Drive.answer_refused (d := d) h0
    rw [hanswer, hfirst, hpassed]
    exact ⟨rfl, [], (Drive.Unwritten.refl d).written lba _⟩
  · have hlt : count % 2 ^ 8 < 256 := Nat.mod_lt _ (by decide)
    rw [if_neg h0, ataWaitBusy_eq, Option.bind_eq_bind, Option.bind_some] at h
    obtain ⟨hcmd, hcur, hleft⟩ := ataCommand_registers d.ready lba (.inr rfl)
      (Nat.pos_of_ne_zero h0) hlt
    have hstart : d.Unwritten _ (d.serial + 1) := d.ready_unwritten.trans hcmd
    generalize ataCommand _ lba (count % 2 ^ 8) ataCmdWriteSectors = d₁ at h hcur hleft hstart
    obtain ⟨⟨done, d₂⟩, hloop, hr⟩ := Option.bind_eq_some_iff.mp h
    obtain ⟨hdone, stored, hw⟩ := writeLoop_some hleft.ge
      (hcur ▸ Nat.mod_lt _ (by decide)) (by unfold lbaLimit; omega) hloop
    obtain ⟨hfirst, hpassed⟩ := Drive.passed_started h0 hstart
    rw [← hpassed, ← hfirst, hcur] at hw
    rw [← hpassed] at hdone
    have hwritten := hstart.trans_written hw.of_mod
    rw [Drive.answer_done h0 hdone]
    cases done with
    | true =>
        obtain ⟨rfl, rfl⟩ : (count % 2 ^ 8 : ℕ) = r ∧ d₂ = d' := by simpa using hr
        exact ⟨rfl, stored, hwritten⟩
    | false =>
        obtain ⟨rfl, rfl⟩ : errFailed = r ∧ d₂ = d' := by simpa using hr
        exact ⟨rfl, stored, hwritten⟩

theorem passed_zero (d : Drive) : d.passed 0 = 0 := rfl

theorem passed_eq (d : Drive) (count : ℕ) :
    d.passed count = streak d.reply (d.serial + 1) (count % 2 ^ 8) := by
  rw [Drive.passed, Drive.firstReply]
  split
  · rename_i h0
    rw [h0]
    rfl
  · rfl

theorem passed_one (d : Drive) :
    d.passed 1 = if (d.reply (d.serial + 1)).good then 1 else 0 := rfl

theorem answer_one_nonneg {d : Drive} :
    0 ≤ d.answer 1 ↔ (d.reply (d.serial + 1)).good = true := by
  rw [Drive.answer, passed_one]
  cases (d.reply (d.serial + 1)).good <;> decide

/-- The answer to a sector that is really stored. -/
def Reply.taken (r : Reply) : Bool := r.good && r.kept

theorem Reply.good_of_taken {r : Reply} (h : r.taken = true) : r.good = true :=
  (Bool.and_eq_true_iff.mp h).1

theorem Reply.kept_of_taken {r : Reply} (h : r.taken = true) : r.kept = true :=
  (Bool.and_eq_true_iff.mp h).2

/-- The disk never reports an error and loses nothing. -/
def Drive.ErrorFree (d : Drive) : Prop := ∀ n, (d.reply n).taken = true

theorem Drive.ErrorFree.congr {d d' : Drive} (h : d.ErrorFree) (hreply : d'.reply = d.reply) :
    d'.ErrorFree := by
  intro n
  rw [hreply]
  exact h n

theorem Drive.ErrorFree.passed {d : Drive} (h : d.ErrorFree) (count : ℕ) :
    d.passed count = count % 2 ^ 8 :=
  streak_eq_iff.mpr fun _ _ => Reply.good_of_taken (h _)

theorem Drive.ErrorFree.answer_nonneg {d : Drive} (h : d.ErrorFree) {count : ℕ} :
    0 ≤ d.answer count ↔ count % 2 ^ 8 ≠ 0 := by
  rw [Drive.answer, h.passed]
  by_cases h0 : count % 2 ^ 8 = 0
  · simp only [h0, ne_eq, not_true, false_and, if_false, iff_false]
    decide
  · rw [if_pos ⟨h0, rfl⟩]
    exact iff_of_true (Int.natCast_nonneg _) h0

/-- A disk of zeros that gives the same answer every time. -/
def Drive.blank (answer : Reply) : Drive where
  sector _ _ := 0#8
  reply _ := answer
  serial := 0
  busy := 0
  pause := 0
  left := 0
  cur := 0
  driveHead := 0#8
  seccount := 0#8
  lbaLo := 0#8
  lbaMid := 0#8
  lbaHi := 0#8
  accepted := []

theorem Drive.blank_errorFree {answer : Reply} (h : answer.taken = true) :
    (Drive.blank answer).ErrorFree := fun _ => h

theorem readLoop_isSome_iff {n : ℕ} {d : Drive} (m : Mem) (buf : ℕ) (hleft : n ≤ d.left) :
    (readLoop n d m buf).isSome ↔ streak d.reply d.serial n = n ∨
      (d.reply (d.serial + streak d.reply d.serial n)).drq = true := by
  induction n generalizing d m buf with
  | zero => exact iff_of_true rfl (Or.inl rfl)
  | succ n ih =>
      rw [readLoop, ataWaitSector_eq (by omega), streak]
      cases hdrq : (d.reply d.serial).drq with
      | false => simp [Reply.good, hdrq]
      | true =>
          cases herr : (d.reply d.serial).err with
          | true => simp [Reply.good, hdrq, herr]
          | false =>
              have hgood : (d.reply d.serial).good = true := by simp [Reply.good, hdrq, herr]
              have hnext := ih (d := d.settled.transferred)
                (m.blit buf 512 (d.settled.sector d.settled.cur).byte) (buf + 512 + 512)
                (Nat.le_sub_one_of_lt hleft)
              have hserial : d.serial + (streak d.reply (d.serial + 1) n + 1) =
                  d.serial + 1 + streak d.reply (d.serial + 1) n := by omega
              rw [if_pos hgood, hserial, Nat.succ_inj]
              exact hnext

theorem writeLoop_isSome_iff {n : ℕ} {d : Drive} (m : Mem) (buf : ℕ) (hleft : n ≤ d.left) :
    (writeLoop n d m buf).isSome ↔ streak d.reply d.serial n = n ∨
      (d.reply (d.serial + streak d.reply d.serial n)).drq = true := by
  induction n generalizing d buf with
  | zero => exact iff_of_true rfl (Or.inl rfl)
  | succ n ih =>
      rw [writeLoop, ataWaitSector_eq (by omega), streak]
      cases hdrq : (d.reply d.serial).drq with
      | false => simp [Reply.good, hdrq]
      | true =>
          cases herr : (d.reply d.serial).err with
          | true => simp [Reply.good, hdrq, herr]
          | false =>
              have hgood : (d.reply d.serial).good = true := by simp [Reply.good, hdrq, herr]
              obtain ⟨hl, -, hr, hs⟩ := stored_registers d (sectorAt m buf)
              have hnext := ih (d := d.settled.stored (sectorAt m buf)) (buf + 512 + 512)
                (by omega)
              rw [hr, hs] at hnext
              have hserial : d.serial + (streak d.reply (d.serial + 1) n + 1) =
                  d.serial + 1 + streak d.reply (d.serial + 1) n := by omega
              rw [if_pos hgood, hserial, Nat.succ_inj]
              exact hnext

def Drive.Returns (d : Drive) (count : ℕ) : Prop :=
  d.passed count = count % 2 ^ 8 ∨
    (d.reply (d.firstReply count + d.passed count)).drq = true

theorem Drive.returns_refused {d : Drive} {count : ℕ} (h0 : count % 2 ^ 8 = 0) :
    d.Returns count := by
  left
  rw [(Drive.answer_refused h0).2.2, h0]

theorem ataReadSectors_isSome_iff {d : Drive} {m : Mem} {lba count buffer : ℕ} :
    (ataReadSectors d m lba count buffer).isSome ↔ d.Returns count := by
  rw [ataReadSectors]
  by_cases h0 : count % 2 ^ 8 = 0
  · rw [if_pos h0]
    exact iff_of_true rfl (Drive.returns_refused h0)
  · rw [if_neg h0, ataWaitBusy_eq, Option.bind_eq_bind, Option.bind_some]
    obtain ⟨hcmd, -, hleft⟩ := ataCommand_registers d.ready lba (.inl rfl)
      (Nat.pos_of_ne_zero h0) (Nat.mod_lt _ (by decide))
    have hstart : d.Unwritten _ (d.serial + 1) := d.ready_unwritten.trans hcmd
    obtain ⟨hfirst, hpassed⟩ := Drive.passed_started h0 hstart
    rw [Drive.Returns, hfirst, hpassed, ← hstart.reply, ← readLoop_isSome_iff m buffer hleft.ge]
    dsimp only
    cases readLoop (count % 2 ^ 8) (ataCommand d.ready lba (count % 2 ^ 8) ataCmdReadSectors) m
      buffer with
    | none => exact Iff.rfl
    | some out =>
        obtain ⟨done, d', m'⟩ := out
        cases done <;> exact iff_of_true rfl rfl

theorem ataWriteSectors_isSome_iff {d : Drive} {m : Mem} {lba count buffer : ℕ} :
    (ataWriteSectors d m lba count buffer).isSome ↔ d.Returns count := by
  rw [ataWriteSectors]
  by_cases h0 : count % 2 ^ 8 = 0
  · rw [if_pos h0]
    exact iff_of_true rfl (Drive.returns_refused h0)
  · rw [if_neg h0, ataWaitBusy_eq, Option.bind_eq_bind, Option.bind_some]
    obtain ⟨hcmd, -, hleft⟩ := ataCommand_registers d.ready lba (.inr rfl)
      (Nat.pos_of_ne_zero h0) (Nat.mod_lt _ (by decide))
    have hstart : d.Unwritten _ (d.serial + 1) := d.ready_unwritten.trans hcmd
    obtain ⟨hfirst, hpassed⟩ := Drive.passed_started h0 hstart
    rw [Drive.Returns, hfirst, hpassed, ← hstart.reply, ← writeLoop_isSome_iff m buffer hleft.ge]
    dsimp only
    cases writeLoop (count % 2 ^ 8) (ataCommand d.ready lba (count % 2 ^ 8) ataCmdWriteSectors) m
      buffer with
    | none => exact Iff.rfl
    | some out =>
        obtain ⟨done, d'⟩ := out
        cases done <;> exact iff_of_true rfl rfl

theorem Drive.ErrorFree.returns {d : Drive} (h : d.ErrorFree) (count : ℕ) : d.Returns count :=
  Or.inl (h.passed count)

theorem ataReadSectors_of_errorFree {d : Drive} (h : d.ErrorFree) (m : Mem)
    (lba count buffer : ℕ) : ∃ out, ataReadSectors d m lba count buffer = some out :=
  Option.isSome_iff_exists.mp (ataReadSectors_isSome_iff.mpr (h.returns count))

end System44
