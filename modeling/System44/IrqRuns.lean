import System44.Interrupts
import System44.Keyboard
import System44.Pic8259
import System44.Sleep

/-!
# The interrupt controllers and the timer in a run

What `pitsetfreq` and `int_init` leave in the devices, and what follows from it for every order of
timer periods, requests of other devices, interrupts and calls of `pic_unm`. Only the handlers of
the timer and of the keyboard end their interrupt. The stub that all other vectors lead to does not,
so that each other line is served once at most.
-/

namespace System44

/-- Channel 0 of the timer, in the mode in which its output rises once in each period. -/
structure Pit where
  /-- The byte that has come first. -/
  low : BitVec 8
  highNext : Bool
  reload : BitVec 16
  count : ℕ

namespace Pit

/-- A count of zero stands for the largest one. -/
def period (p : Pit) : ℕ := if p.reload = 0#16 then 65536 else p.reload.toNat

def writeControl (p : Pit) (v : BitVec 8) : Pit :=
  if v &&& 0xF0#8 = 0x30#8 then { p with highNext := false } else p

def writeCount (p : Pit) (v : BitVec 8) : Pit :=
  if p.highNext then
    let p := { p with reload := v ++ p.low, highNext := false }
    { p with count := p.period }
  else { p with low := v, highNext := true }

/-- One tick of its input clock, and whether the output rises. -/
def clock (p : Pit) : Pit × Bool :=
  if p.count ≤ 1 then ({ p with count := p.period }, true)
  else ({ p with count := p.count - 1 }, false)

end Pit

/-- The devices, and what the kernel keeps for them. The request of the slave is line 2 of the
master. -/
structure IrqMachine where
  master : Pic8259
  slave : Pic8259
  pit : Pit
  idt : ℕ → IdtEntry
  picMasterMask : BitVec 8
  picSlaveMask : BitVec 8
  ticks : BitVec 32
  keyboard : KeyboardRun

def pic1Cmd : ℕ := 0x20

def pic1Data : ℕ := 0x21

def pic2Cmd : ℕ := 0xA0

def pic2Data : ℕ := 0xA1

def picEndOfInterrupt : BitVec 8 := 0x20#8

def pitCmd : ℕ := 0x43

def pitCh0 : ℕ := 0x40

def pitBase : BitVec 32 := 1193182#32

namespace IrqMachine

def outb (m : IrqMachine) (port : ℕ) (val : BitVec 8) : IrqMachine :=
  if port = pic1Cmd then { m with master := m.master.writeCommand val }
  else if port = pic1Data then { m with master := m.master.writeData val }
  else if port = pic2Cmd then { m with slave := m.slave.writeCommand val }
  else if port = pic2Data then { m with slave := m.slave.writeData val }
  else if port = pitCmd then { m with pit := m.pit.writeControl val }
  else if port = pitCh0 then { m with pit := m.pit.writeCount val }
  else m

def inb (m : IrqMachine) (port : ℕ) : BitVec 8 :=
  if port = pic1Data then m.master.readData
  else if port = pic2Data then m.slave.readData
  else 0#8

def pitsetfreq (m : IrqMachine) (hz : BitVec 32) : IrqMachine :=
  if hz = 0#32 then m
  else
    let div : BitVec 16 := (pitBase / hz).setWidth 16
    let m := m.outb pitCmd 0x36#8
    let m := m.outb pitCh0 ((div &&& 0xFF#16).setWidth 8)
    m.outb pitCh0 ((div >>> 8 &&& 0xFF#16).setWidth 8)

def picRemap (m : IrqMachine) (offset1 offset2 : BitVec 8) : IrqMachine :=
  let a1 := m.inb pic1Data
  let a2 := m.inb pic2Data
  let m := m.outb pic1Cmd 0x11#8
  let m := m.outb pic2Cmd 0x11#8
  let m := m.outb pic1Data offset1
  let m := m.outb pic2Data offset2
  let m := m.outb pic1Data 4#8
  let m := m.outb pic2Data 2#8
  let m := m.outb pic1Data 0x01#8
  let m := m.outb pic2Data 0x01#8
  let m := m.outb pic1Data a1
  let m := m.outb pic2Data a2
  { m with picMasterMask := a1, picSlaveMask := a2 }

def picSetm (m : IrqMachine) (mask1 mask2 : BitVec 8) : IrqMachine :=
  let m := { m with picMasterMask := mask1, picSlaveMask := mask2 }
  let m := m.outb pic1Data mask1
  m.outb pic2Data mask2

def picUnm (m : IrqMachine) (irq : BitVec 8) : IrqMachine :=
  if irq < 8#8 then
    let m := { m with
      picMasterMask := m.picMasterMask &&& ~~~(1#32 <<< irq.toNat).setWidth 8 }
    m.outb pic1Data m.picMasterMask
  else
    let irq := irq - 8#8
    let m := { m with
      picSlaveMask := m.picSlaveMask &&& ~~~(1#32 <<< irq.toNat).setWidth 8 }
    m.outb pic2Data m.picSlaveMask

def picEoi (m : IrqMachine) (irq : BitVec 8) : IrqMachine :=
  let m := if 8#8 ≤ irq then m.outb pic2Cmd picEndOfInterrupt else m
  m.outb pic1Cmd picEndOfInterrupt

def irq0h (m : IrqMachine) : IrqMachine :=
  picEoi { m with ticks := System44.irq0h m.ticks } 0#8

def irq1h (m : IrqMachine) (status sc : Byte) : IrqMachine :=
  picEoi { m with keyboard := keyboardStep m.keyboard (.irq status sc) } 1#8

def intInit (m : IrqMachine) (addr : Stub → BitVec 32) : IrqMachine :=
  let m := { m with idt := System44.intInit addr m.idt }
  let m := m.picRemap 0x20#8 0x28#8
  m.picSetm 0xFC#8 0xFF#8

def cascade (m : IrqMachine) : IrqMachine :=
  if m.slave.request.isSome then { m with master := m.master.raise 2 } else m

/-- The processor acknowledges the request, if there is one: the line of the master and the vector.
A slave that has none gives its last line. -/
def acknowledge (m : IrqMachine) : Option (ℕ × BitVec 8 × IrqMachine) :=
  m.master.request.map fun line =>
    let m := { m with master := m.master.acknowledge line }
    if line = 2 then
      match m.slave.request with
      | some j =>
        (line, m.slave.base + BitVec.ofNat 8 j, { m with slave := m.slave.acknowledge j })
      | none => (line, m.slave.base + 7#8, m)
    else (line, m.master.base + BitVec.ofNat 8 line, m)

/-- What the stub that a gate leads to calls. What the system call prints is left out, and a
division by zero does not return. -/
def handle (m : IrqMachine) (addr : Stub → BitVec 32) (vector : BitVec 8) (status sc : Byte) :
    Option IrqMachine := do
  let stub ← stubAt addr (m.idt vector.toNat).offset
  match stub with
  | .irq0 => some m.irq0h
  | .irq1 => some (m.irq1h status sc)
  | .isrDefault => some m
  | .syscall => some m
  | .isr0 => none

end IrqMachine

/-- What comes next. Line 0 is the timer's, and the devices have the other fifteen. -/
inductive IrqInput
  | clock
  | device (i : Fin 15)
  | interrupt (status sc : Byte)
  | getKey (tailFirst : Bool)
  | unmask (irq : Fin 16)
  deriving DecidableEq

/-- A line that rises is remembered, or it was already. A line of the master is served, with a
vector. -/
inductive IrqEvent
  | latched (irq : ℕ)
  | merged (irq : ℕ)
  | served (line : ℕ) (vector : BitVec 8)
  deriving DecidableEq

namespace IrqMachine

def rise (m : IrqMachine) (irq : ℕ) : IrqMachine × IrqEvent :=
  if irq < 8 then
    ({ m with master := m.master.raise irq },
      if m.master.irr.getLsbD irq then .merged irq else .latched irq)
  else
    ({ m with slave := m.slave.raise (irq - 8) },
      if m.slave.irr.getLsbD (irq - 8) then .merged irq else .latched irq)

/-- One tick of the timer's input clock. -/
def clock (m : IrqMachine) : IrqMachine × List IrqEvent :=
  let (pit, rises) := m.pit.clock
  let m := { m with pit := pit }
  if rises then
    let (m, e) := m.rise 0
    (m, [e])
  else (m, [])

end IrqMachine

structure IrqRun where
  machine : IrqMachine
  log : List IrqEvent

def irqStep (addr : Stub → BitVec 32) (r : IrqRun) : IrqInput → Option IrqRun
  | .clock =>
    let (m, es) := r.machine.clock
    some ⟨m, r.log ++ es⟩
  | .device i =>
    let (m, e) := r.machine.rise (i + 1)
    some ⟨m.cascade, r.log ++ [e]⟩
  | .interrupt status sc =>
    match r.machine.acknowledge with
    | none => some r
    | some (line, vector, m) =>
      (m.handle addr vector status sc).map fun m => ⟨m.cascade, r.log ++ [.served line vector]⟩
  | .getKey tailFirst => some
    { r with machine :=
      { r.machine with keyboard := keyboardStep r.machine.keyboard (.getKey tailFirst) } }
  | .unmask irq => some
    { r with machine := (r.machine.picUnm (BitVec.ofNat 8 irq)).cascade }

def irqRun (addr : Stub → BitVec 32) (inputs : List IrqInput) (r : IrqRun) : Option IrqRun :=
  inputs.foldlM (irqStep addr) r

/-- `kmain` sets the frequency, some time passes, and it sets the interrupts up. -/
def irqBoot (addr : Stub → BitVec 32) (m : IrqMachine) (hz : BitVec 32) (k : ℕ) : IrqRun :=
  ⟨((fun m => m.clock.1)^[k] (m.pitsetfreq hz)).intInit addr, []⟩

/-- The lines without a handler that were served. -/
def unhandled (log : List IrqEvent) : List ℕ :=
  log.filterMap fun
    | .served line _ => if 2 ≤ line then some line else none
    | _ => none

/-- What the kernel relies on, `n` clock ticks after `k` more. -/
structure IrqService (ticks : BitVec 32) (period k n : ℕ) (r : IrqRun) : Prop where
  masks : r.machine.master.imr = r.machine.picMasterMask ∧
    r.machine.slave.imr = r.machine.picSlaveMask
  /-- The timer asks once in each period. -/
  periods : r.log.count (.latched 0) + r.log.count (.merged 0) = (k + n) / period - k / period
  ticks : r.machine.ticks = ticks + BitVec.ofNat 32 (r.log.count (.served 0 0x20#8))
  /-- Nothing that is remembered is lost, and nothing is served twice. -/
  served : ∀ i < 2, r.log.count (.latched i) =
    r.log.count (.served i (0x20#8 + BitVec.ofNat 8 i)) + (r.machine.master.irr.getLsbD i).toNat
  /-- The timer is served first, and the keyboard before all others. -/
  next : ∀ i < 2, r.machine.master.irr.getLsbD i = true → ∃ j ≤ i, r.machine.master.request = some j
  /-- Of the lines without a handler none is served twice, and none after one that comes before it
  has been. -/
  unhandled : (unhandled r.log).Pairwise (· > ·)
  keyboard : ∃ q, Refines r.machine.keyboard q

section

variable {p : Pit} {d n e : ℕ}

/-- The timer counts `d` down, and after `n` ticks its output has risen `e` times. -/
structure Pit.At (p : Pit) (d n e : ℕ) : Prop where
  period : p.period = d
  pos : 1 ≤ p.count
  le : p.count ≤ d
  passed : n + p.count = d * (e + 1)

theorem Pit.At.rises (h : p.At d n e) : e = n / d := by
  have hpos := h.pos
  have hle := h.le
  have hpassed := h.passed
  symm
  rw [Nat.mul_add, Nat.mul_one] at hpassed
  apply Nat.div_eq_of_lt_le
  · rw [Nat.mul_comm]
    omega
  · rw [Nat.mul_comm, Nat.mul_add]
    omega

theorem Pit.At.clock (h : p.At d n e) :
    p.clock.1.At d (n + 1) (if p.clock.2 then e + 1 else e) := by
  have hpos := h.pos
  have hle := h.le
  have hpassed := h.passed
  by_cases hlast : p.count ≤ 1
  · have hclock : p.clock = ({ p with count := p.period }, true) := if_pos hlast
    rw [hclock]
    refine ⟨h.period, ?_, h.period.le, ?_⟩
    · exact hpos.trans (hle.trans h.period.ge)
    · dsimp only
      rw [h.period, if_pos rfl, Nat.mul_add d (e + 1)]
      omega
  · have hclock : p.clock = ({ p with count := p.count - 1 }, false) := if_neg hlast
    rw [hclock]
    refine ⟨h.period, ?_, ?_, ?_⟩
    · dsimp only
      omega
    · dsimp only
      omega
    · dsimp only
      rw [if_neg Bool.false_ne_true]
      omega

theorem IrqMachine.clock_eq (m : IrqMachine) : m.clock =
    if m.pit.clock.2 then
      (({ m with pit := m.pit.clock.1 }.rise 0).1, [({ m with pit := m.pit.clock.1 }.rise 0).2])
    else ({ m with pit := m.pit.clock.1 }, []) := rfl

theorem IrqMachine.pit_clock (m : IrqMachine) : m.clock.1.pit = m.pit.clock.1 := by
  simp only [clock]
  split <;> rfl

theorem IrqMachine.pit_iterate_clock {m : IrqMachine} (h : ∃ e, m.pit.At d n e) (k : ℕ) :
    ∃ e, ((fun m => m.clock.1)^[k] m).pit.At d (n + k) e := by
  induction k with
  | zero => exact h
  | succ k ih =>
      obtain ⟨e, he⟩ := ih
      rw [Function.iterate_succ_apply', pit_clock]
      exact ⟨_, he.clock⟩

theorem append_bytes (x : BitVec 16) :
    (x >>> 8 &&& 0xFF#16).setWidth 8 ++ (x &&& 0xFF#16).setWidth 8 = x := by
  apply BitVec.eq_of_getLsbD_eq
  intro i hi
  rw [BitVec.getLsbD_append]
  by_cases hlow : i < 8
  · simp [hlow]
    interval_cases i <;> simp
  · interval_cases i <;> simp_all

/-- The timer can count what the frequency asks for, and takes it, between 19 Hz and half of its
input clock. Below it only gets the rest modulo `2 ^ 16`. -/
theorem pitsetfreq_at {m : IrqMachine} {hz : BitVec 32} (hlo : 19 ≤ hz.toNat)
    (hhi : hz.toNat ≤ 596591) : (m.pitsetfreq hz).pit.At (1193182 / hz.toNat) 0 0 := by
  have hne : hz ≠ 0#32 := by
    rintro rfl
    exact absurd hlo (by decide)
  have hcount : 2 ≤ 1193182 / hz.toNat := by
    rw [Nat.le_div_iff_mul_le (by omega)]
    omega
  have hle : 1193182 / hz.toNat ≤ 1193182 / 19 := Nat.div_le_div_left hlo (by decide)
  set div : BitVec 16 := (pitBase / hz).setWidth 16 with hdiv
  have hnat : div.toNat = 1193182 / hz.toNat := by
    rw [hdiv, BitVec.toNat_setWidth, BitVec.toNat_udiv]
    exact Nat.mod_eq_of_lt (hle.trans_lt (by decide))
  have hreload : (m.pitsetfreq hz).pit.reload = div := by
    rw [IrqMachine.pitsetfreq, if_neg hne]
    exact append_bytes div
  have hperiod : (m.pitsetfreq hz).pit.period = 1193182 / hz.toNat := by
    rw [Pit.period, hreload, hnat, if_neg]
    intro hzero
    rw [hzero] at hnat
    exact absurd hnat (by simp; omega)
  have hstart : (m.pitsetfreq hz).pit.count = (m.pitsetfreq hz).pit.period := by
    rw [IrqMachine.pitsetfreq, if_neg hne]
    rfl
  rw [hperiod] at hstart
  exact ⟨hperiod, by omega, by omega, by omega⟩

end

section

variable {addr : Stub → BitVec 32} {t : BitVec 32} {m : IrqMachine} {log : List IrqEvent}

/-- What holds of the controllers between two steps. -/
structure IrqInv (addr : Stub → BitVec 32) (t : BitVec 32) (m : IrqMachine) (log : List IrqEvent) :
    Prop where
  idt : ∀ vector < 256, (m.idt vector).offset = addr (stubOf vector)
  ready : m.master.stage = .ready ∧ m.slave.stage = .ready
  bases : m.master.base = 0x20#8 ∧ m.slave.base = 0x28#8
  manual : m.master.autoEoi = false
  masks : m.master.imr = m.picMasterMask ∧ m.slave.imr = m.picSlaveMask
  unmasked : ∀ i < 2, m.master.imr.getLsbD i = false
  free : ∀ i < 2, m.master.isr.getLsbD i = false
  ticks : m.ticks = t + BitVec.ofNat 32 (log.count (.served 0 0x20#8))
  served : ∀ i < 2, log.count (.latched i) =
    log.count (.served i (0x20#8 + BitVec.ofNat 8 i)) + (m.master.irr.getLsbD i).toNat
  busy : ∀ i ∈ unhandled log, m.master.isr.getLsbD i = true
  descending : (unhandled log).Pairwise (· > ·)
  keyboard : ∃ q, Refines m.keyboard q

theorem IrqInv.next (h : IrqInv addr t m log) :
    ∀ i < 2, m.master.irr.getLsbD i = true → ∃ j ≤ i, m.master.request = some j := by
  have hwants (i : ℕ) (hi : i < 2) : m.master.wants i = m.master.irr.getLsbD i := by
    simp [Pic8259.wants, h.unmasked i hi]
  intro i hi hirr
  by_cases hfirst : m.master.irr.getLsbD 0 = true
  · refine ⟨0, Nat.zero_le i, Pic8259.request_eq_some_iff.mpr ⟨by decide, ?_, ?_, ?_⟩⟩
    · rw [hwants 0 (by decide), hfirst]
    · simp
    · simpa using h.free 0 (by decide)
  · refine ⟨i, Nat.le_refl i, Pic8259.request_eq_some_iff.mpr ⟨by omega, ?_, ?_, ?_⟩⟩
    · rw [hwants i hi, hirr]
    · intro j hj
      obtain rfl : j = 0 := by omega
      rw [hwants 0 (by decide)]
      exact Bool.eq_false_iff.mpr hfirst
    · exact fun j hj => h.free j (by omega)

theorem IrqInv.cascade (h : IrqInv addr t m log) : IrqInv addr t m.cascade log := by
  unfold IrqMachine.cascade
  split
  · refine { h with served := fun i hi => ?_ }
    rw [h.served i hi, Pic8259.irr_raise (by decide)]
    have hne : i ≠ 2 := by omega
    simp [hne]
  · exact h

theorem IrqInv.edge (h : IrqInv addr t m log) (v w : BitVec 8) {e : IrqEvent}
    (he : ∀ line vector, e ≠ .served line vector)
    (hirr : ∀ i < 2, [e].count (.latched i) + (m.master.irr.getLsbD i).toNat =
      (v.getLsbD i).toNat) :
    IrqInv addr t { m with
      master := { m.master with irr := v }
      slave := { m.slave with irr := w } } (log ++ [e]) := by
  have hcount (line : ℕ) (vector : BitVec 8) :
      (log ++ [e]).count (.served line vector) = log.count (.served line vector) := by
    simp [List.count_append, he]
  have hsame : unhandled (log ++ [e]) = unhandled log := by
    cases e with
    | served line vector => exact absurd rfl (he line vector)
    | _ => simp [unhandled]
  refine { h with
    ticks := ?_
    served := fun i hi => ?_
    busy := ?_
    descending := ?_ }
  · rw [hcount]
    exact h.ticks
  · rw [hcount, List.count_append, h.served i hi, Nat.add_right_comm, Nat.add_assoc, hirr i hi]
  · rw [hsame]
    exact h.busy
  · rw [hsame]
    exact h.descending

theorem IrqInv.rise (h : IrqInv addr t m log) (irq : ℕ) :
    IrqInv addr t (m.rise irq).1 (log ++ [(m.rise irq).2]) := by
  unfold IrqMachine.rise
  by_cases hmaster : irq < 8
  · rw [if_pos hmaster]
    apply h.edge _ m.slave.irr
    · intro line vector
      dsimp only
      split <;> simp
    · intro i _
      rw [Pic8259.getLsbD_set _ hmaster]
      by_cases heq : i = irq
      · subst heq
        cases hset : m.master.irr.getLsbD i <;> simp
      · have hne : irq ≠ i := Ne.symm heq
        dsimp only
        split <;> simp [heq, hne]
  · rw [if_neg hmaster]
    apply h.edge m.master.irr
    · intro line vector
      dsimp only
      split <;> simp
    · intro i hi
      have hne : irq ≠ i := by omega
      dsimp only
      split <;> simp [hne]

theorem stubOf_default {vector : ℕ} (hlo : 0x22 ≤ vector) (hhi : vector < 0x80) :
    stubOf vector = .isrDefault := by
  rw [stubOf, if_neg (by omega), if_neg (by omega), if_neg (by omega), if_neg (by omega)]

theorem IrqInv.handled (h : IrqInv addr t m log) {i : ℕ} (hi : i < 2)
    (hrequest : m.master.request = some i) {e : IrqEvent}
    (he : e = .served i (0x20#8 + BitVec.ofNat 8 i)) {ticks : BitVec 32} {keyboard : KeyboardRun}
    (hticks : ticks = t + BitVec.ofNat 32 ((log ++ [e]).count (.served 0 0x20#8)))
    (hkeyboard : ∃ q, Refines keyboard q) :
    IrqInv addr t { m with
      master := (m.master.acknowledge i).endOfInterrupt
      ticks := ticks
      keyboard := keyboard } (log ++ [e]) := by
  have hirr : m.master.irr.getLsbD i = true := by
    obtain ⟨-, hwants, -⟩ := Pic8259.request_eq_some_iff.mp hrequest
    simp [Pic8259.wants] at hwants
    exact hwants.1
  have hsame : unhandled (log ++ [e]) = unhandled log := by
    have hnot : ¬ 2 ≤ i := by omega
    simp [he, unhandled, hnot]
  rw [Pic8259.endOfInterrupt_acknowledge hrequest h.manual]
  refine { h with
    ticks := hticks
    served := fun j hj => ?_
    busy := ?_
    descending := ?_
    keyboard := hkeyboard }
  · have hbefore := h.served j hj
    rw [Pic8259.getLsbD_clear]
    by_cases heq : j = i
    · subst heq
      simp [he, hirr, List.count_append] at hbefore ⊢
      exact hbefore
    · have hne : i ≠ j := Ne.symm heq
      simpa [he, heq, hne, List.count_append] using hbefore
  · rw [hsame]
    exact h.busy
  · rw [hsame]
    exact h.descending

/-- Where nothing ends the interrupt, the line stays in service. -/
theorem IrqInv.held (h : IrqInv addr t m log) {i : ℕ} (hi : 2 ≤ i)
    (hrequest : m.master.request = some i) (vector : BitVec 8) (v w : BitVec 8) :
    IrqInv addr t { m with
      master := m.master.acknowledge i
      slave := { m.slave with irr := v, isr := w } } (log ++ [.served i vector]) := by
  obtain ⟨hlt, -, -, hfree⟩ := Pic8259.request_eq_some_iff.mp hrequest
  have hisr (j : ℕ) := Pic8259.isr_acknowledge (j := j) h.manual hlt
  have hmore : unhandled (log ++ [IrqEvent.served i vector]) = unhandled log ++ [i] := by
    simp [unhandled, hi]
  have hcount (line : ℕ) (v : BitVec 8) (hline : line < 2) :
      (log ++ [IrqEvent.served i vector]).count (.served line v) = log.count (.served line v) := by
    have hne : i ≠ line := by omega
    simp [List.count_append, hne]
  refine { h with
    free := fun j hj => ?_
    ticks := ?_
    served := fun j hj => ?_
    busy := ?_
    descending := ?_ }
  · have hne : j ≠ i := by omega
    simpa [hisr, hne] using h.free j hj
  · rw [hcount 0 _ (by decide)]
    exact h.ticks
  · have hne : j ≠ i := by omega
    rw [hcount j _ hj, Pic8259.irr_acknowledge]
    simpa [hne, List.count_append] using h.served j hj
  · intro j hj
    rw [hmore, List.mem_append, List.mem_singleton] at hj
    rw [hisr]
    rcases hj with hj | rfl
    · simp [h.busy j hj]
    · simp
  · rw [hmore, List.pairwise_append]
    refine ⟨h.descending, List.pairwise_singleton _ _, fun j hj k hk => ?_⟩
    obtain rfl := List.mem_singleton.mp hk
    by_contra hle
    have hbusy := h.busy j hj
    rw [hfree j (not_lt.mp hle)] at hbusy
    exact absurd hbusy Bool.false_ne_true

theorem IrqMachine.acknowledge_cases {line : ℕ} {vector : BitVec 8} {m' : IrqMachine}
    (hack : m.acknowledge = some (line, vector, m')) : m.master.request = some line ∧
      ((line ≠ 2 ∧ vector = m.master.base + BitVec.ofNat 8 line ∧
        m' = { m with master := m.master.acknowledge line }) ∨
      line = 2 ∧ ∃ j < 8, vector = m.slave.base + BitVec.ofNat 8 j ∧
        ∃ v w, m' = { m with
          master := m.master.acknowledge line
          slave := { m.slave with irr := v, isr := w } }) := by
  obtain ⟨i, hrequest, heq⟩ := Option.map_eq_some_iff.mp hack
  by_cases hcascade : i = 2
  · rw [if_pos hcascade] at heq
    dsimp only at heq
    split at heq
    · rename_i j hj
      obtain ⟨hlt, -⟩ := Pic8259.request_eq_some_iff.mp hj
      obtain ⟨rfl, rfl, rfl⟩ := heq
      exact ⟨hrequest, Or.inr ⟨hcascade, j, hlt, rfl, _, _, rfl⟩⟩
    · obtain ⟨rfl, rfl, rfl⟩ := heq
      exact ⟨hrequest, Or.inr ⟨hcascade, 7, by decide, rfl, m.slave.irr, m.slave.isr, rfl⟩⟩
  · rw [if_neg hcascade] at heq
    obtain ⟨rfl, rfl, rfl⟩ := heq
    exact ⟨hrequest, Or.inl ⟨hcascade, rfl, rfl⟩⟩

theorem toNat_vector (base : BitVec 8) {i : ℕ} (hbase : base.toNat ≤ 0x28) (hi : i < 8) :
    (base + BitVec.ofNat 8 i).toNat = base.toNat + i := by
  rw [BitVec.toNat_add, BitVec.toNat_ofNat]
  omega

section

variable (haddr : Function.Injective addr) (h : IrqInv addr t m log) (status sc : Byte)

include haddr h

/-- A gate leads to the stub of its vector, whatever else has changed. -/
theorem IrqInv.stub {m' : IrqMachine} (hidt : m'.idt = m.idt) (vector : BitVec 8) :
    stubAt addr (m'.idt vector.toNat).offset = some (stubOf vector.toNat) := by
  rw [hidt, h.idt _ vector.isLt]
  exact stubAt_addr haddr _

theorem IrqInv.handle_default {m' : IrqMachine} (hidt : m'.idt = m.idt) {vector : BitVec 8}
    (hlo : 0x22 ≤ vector.toNat) (hhi : vector.toNat < 0x80) :
    m'.handle addr vector status sc = some m' := by
  rw [IrqMachine.handle, h.stub haddr hidt, stubOf_default hlo hhi]
  rfl

/-- Every interrupt returns, and keeps what holds of the controllers. -/
theorem IrqInv.interrupt {line : ℕ} {vector : BitVec 8} {m' : IrqMachine}
    (hack : m.acknowledge = some (line, vector, m')) :
    ∃ m'', m'.handle addr vector status sc = some m'' ∧ m''.pit = m.pit ∧
      IrqInv addr t m'' (log ++ [.served line vector]) := by
  obtain ⟨hmaster, hslave⟩ := h.bases
  obtain ⟨hrequest, ⟨hne, hvector, rfl⟩ | ⟨rfl, j, hj, hvector, v, w, rfl⟩⟩ :=
    IrqMachine.acknowledge_cases hack
  · obtain ⟨hlt, -⟩ := Pic8259.request_eq_some_iff.mp hrequest
    rw [hmaster] at hvector
    have hnat := toNat_vector 0x20#8 (by decide) hlt
    rw [← hvector] at hnat
    have hbase : (0x20#8).toNat = 0x20 := rfl
    by_cases hother : 2 ≤ line
    · have hhandle (m' : IrqMachine) (hidt : m'.idt = m.idt) :
          m'.handle addr vector status sc = some m' :=
        h.handle_default haddr status sc hidt (by omega) (by omega)
      exact ⟨_, hhandle _ rfl, rfl, h.held hother hrequest vector _ _⟩
    · obtain rfl | rfl : line = 0 ∨ line = 1 := by omega
      · refine ⟨IrqMachine.irq0h { m with master := m.master.acknowledge 0 }, ?_, rfl,
          h.handled (by decide) hrequest (congrArg (IrqEvent.served 0) hvector) ?_ h.keyboard⟩
        · rw [IrqMachine.handle, h.stub haddr rfl, hvector]
          rfl
        · have hone : (log ++ [IrqEvent.served 0 vector]).count (.served 0 0x20#8) =
              log.count (.served 0 0x20#8) + 1 := by
            simp [hvector, List.count_append]
          rw [hone, BitVec.ofNat_add, ← BitVec.add_assoc, ← h.ticks]
          rfl
      · obtain ⟨q, hq⟩ := h.keyboard
        have hticks : m.ticks =
            t + BitVec.ofNat 32 ((log ++ [IrqEvent.served 1 vector]).count (.served 0 0x20#8)) := by
          rw [h.ticks]
          simp [List.count_append]
        refine ⟨IrqMachine.irq1h { m with master := m.master.acknowledge 1 } status sc, ?_, rfl,
          h.handled (by decide) hrequest (congrArg (IrqEvent.served 1) hvector) hticks
            (refines_irq hq status sc)⟩
        rw [IrqMachine.handle, h.stub haddr rfl, hvector]
        rfl
  · rw [hslave] at hvector
    have hnat := toNat_vector 0x28#8 (by decide) hj
    rw [← hvector] at hnat
    have hbase : (0x28#8).toNat = 0x28 := rfl
    have hhandle (m' : IrqMachine) (hidt : m'.idt = m.idt) :
        m'.handle addr vector status sc = some m' :=
      h.handle_default haddr status sc hidt (by omega) (by omega)
    exact ⟨_, hhandle _ rfl, rfl, h.held (by decide) hrequest vector v w⟩

end

theorem writeData_of_ready {p : Pic8259} (hready : p.stage = .ready) (v : BitVec 8) :
    p.writeData v = { p with imr := v } := by
  rw [Pic8259.writeData, hready]

theorem IrqInv.unmask (h : IrqInv addr t m log) (irq : BitVec 8) :
    IrqInv addr t (m.picUnm irq) log := by
  obtain ⟨hmaster, hslave⟩ := h.masks
  obtain ⟨hready, hready'⟩ := h.ready
  by_cases hirq : irq < 8#8
  · have hunm : m.picUnm irq = { m with
        master := { m.master with
          imr := m.picMasterMask &&& ~~~(1#32 <<< irq.toNat).setWidth 8 }
        picMasterMask := m.picMasterMask &&& ~~~(1#32 <<< irq.toNat).setWidth 8 } := by
      rw [IrqMachine.picUnm, if_pos hirq, ← writeData_of_ready hready]
      rfl
    rw [hunm]
    refine { h with
      masks := ⟨rfl, hslave⟩
      unmasked := fun i hi => ?_ }
    dsimp only
    rw [← hmaster, BitVec.getLsbD_and, h.unmasked i hi, Bool.false_and]
  · have hunm : m.picUnm irq = { m with
        slave := { m.slave with
          imr := m.picSlaveMask &&& ~~~(1#32 <<< (irq - 8#8).toNat).setWidth 8 }
        picSlaveMask := m.picSlaveMask &&& ~~~(1#32 <<< (irq - 8#8).toNat).setWidth 8 } := by
      rw [IrqMachine.picUnm, if_neg hirq, ← writeData_of_ready hready']
      rfl
    rw [hunm]
    exact { h with masks := ⟨hmaster, rfl⟩ }

/-- What `int_init` leaves, whatever the controllers did before. -/
theorem irqInv_intInit (m : IrqMachine) {c : Byte} (hkeyboard : m.keyboard = keyboardInit c) :
    IrqInv addr m.ticks (m.intInit addr) [] where
  idt _ hvector := intInit_offset addr m.idt hvector
  ready := ⟨rfl, rfl⟩
  bases := ⟨rfl, rfl⟩
  manual := rfl
  masks := ⟨rfl, rfl⟩
  unmasked i hi := by
    have hmask : (m.intInit addr).master.imr = 0xFC#8 := rfl
    rw [hmask]
    interval_cases i <;> rfl
  free i _ := BitVec.getLsbD_zero
  ticks := (BitVec.add_zero _).symm
  served i _ := by
    have hnone : (m.intInit addr).master.irr.getLsbD i = false := BitVec.getLsbD_zero
    simp [hnone]
  busy i hi := absurd hi (by simp [unhandled])
  descending := List.Pairwise.nil
  keyboard := by
    have hsame : (m.intInit addr).keyboard = m.keyboard := rfl
    rw [hsame, hkeyboard]
    exact ⟨[], refines_init c⟩

end

section

variable {addr : Stub → BitVec 32} {t : BitVec 32} {d n : ℕ} {r : IrqRun}

def edges (log : List IrqEvent) : ℕ := log.count (.latched 0) + log.count (.merged 0)

theorem edges_append (log : List IrqEvent) (e : IrqEvent) :
    edges (log ++ [e]) = edges log + edges [e] := by
  simp only [edges, List.count_append]
  omega

theorem edges_rise {m : IrqMachine} (irq : ℕ) :
    edges [(m.rise irq).2] = if irq = 0 then 1 else 0 := by
  unfold IrqMachine.rise
  by_cases hzero : irq = 0
  · subst hzero
    cases m.master.irr.getLsbD 0 <;> simp [edges]
  · rw [if_neg hzero]
    by_cases hmaster : irq < 8
    · rw [if_pos hmaster]
      dsimp only
      split <;> simp [edges, hzero]
    · rw [if_neg hmaster]
      dsimp only
      split <;> simp [edges, hzero]

/-- The controllers, and the timer after `n` ticks and `e` periods before the run. -/
structure IrqRun.Inv (addr : Stub → BitVec 32) (t : BitVec 32) (d n e : ℕ) (r : IrqRun) :
    Prop where
  irq : IrqInv addr t r.machine r.log
  pit : r.machine.pit.At d n (e + edges r.log)

theorem pit_rise (m : IrqMachine) (irq : ℕ) : (m.rise irq).1.pit = m.pit := by
  unfold IrqMachine.rise
  split <;> rfl

theorem pit_cascade (m : IrqMachine) : m.cascade.pit = m.pit := by
  unfold IrqMachine.cascade
  split <;> rfl

theorem pit_picUnm (m : IrqMachine) (irq : BitVec 8) : (m.picUnm irq).pit = m.pit := by
  unfold IrqMachine.picUnm
  split <;> rfl

theorem irqStep_inv (haddr : Function.Injective addr) {e : ℕ} (h : r.Inv addr t d n e)
    (input : IrqInput) : ∃ r', irqStep addr r input = some r' ∧
      r'.Inv addr t d (if input = .clock then n + 1 else n) e := by
  obtain ⟨m, log⟩ := r
  obtain ⟨hinv, hpit⟩ := h
  cases input with
  | clock =>
      refine ⟨⟨m.clock.1, log ++ m.clock.2⟩, rfl, ?_⟩
      have htimer : IrqInv addr t { m with pit := m.pit.clock.1 } log :=
        { hinv with idt := hinv.idt }
      have hnext : m.pit.clock.1.At d (n + 1)
        (if m.pit.clock.2 then e + edges log + 1 else e + edges log) := hpit.clock
      rw [if_pos rfl, IrqMachine.clock_eq]
      split
      · rename_i hrises
        refine ⟨htimer.rise 0, ?_⟩
        dsimp only
        rw [pit_rise, edges_append, edges_rise, if_pos rfl, ← Nat.add_assoc]
        rwa [if_pos hrises] at hnext
      · rename_i hrises
        refine ⟨?_, ?_⟩
        · rw [List.append_nil]
          exact htimer
        · dsimp only
          rw [List.append_nil]
          rwa [if_neg hrises] at hnext
  | device i =>
      refine ⟨⟨(m.rise (i + 1)).1.cascade, log ++ [(m.rise (i + 1)).2]⟩, rfl,
        (hinv.rise _).cascade, ?_⟩
      dsimp only
      rw [pit_cascade, pit_rise, edges_append, edges_rise]
      simpa using hpit
  | interrupt status sc =>
      rw [irqStep]
      cases hack : m.acknowledge with
      | none => exact ⟨_, rfl, hinv, hpit⟩
      | some ack =>
          obtain ⟨line, vector, m'⟩ := ack
          obtain ⟨m'', hhandle, hsame, hserved⟩ := hinv.interrupt haddr status sc hack
          dsimp only
          rw [hhandle]
          refine ⟨_, rfl, hserved.cascade, ?_⟩
          dsimp only
          rw [pit_cascade, hsame, edges_append]
          exact hpit
  | getKey tailFirst =>
      obtain ⟨q, hq⟩ := hinv.keyboard
      exact ⟨_, rfl, { hinv with keyboard := refines_getKey hq tailFirst }, hpit⟩
  | unmask irq =>
      refine ⟨_, rfl, (hinv.unmask _).cascade, ?_⟩
      dsimp only
      rw [pit_cascade, pit_picUnm]
      exact hpit

theorem irqRun_inv (haddr : Function.Injective addr) {e : ℕ} (inputs : List IrqInput)
    (h : r.Inv addr t d n e) : ∃ r', irqRun addr inputs r = some r' ∧
      r'.Inv addr t d (n + inputs.count .clock) e := by
  induction inputs generalizing r n with
  | nil => exact ⟨r, rfl, h⟩
  | cons input inputs ih =>
      obtain ⟨r₁, hstep, h₁⟩ := irqStep_inv haddr h input
      obtain ⟨r₂, hrun, h₂⟩ := ih h₁
      refine ⟨r₂, ?_, ?_⟩
      · rw [irqRun, List.foldlM_cons, hstep]
        exact hrun
      · have hcount : (if input = .clock then n + 1 else n) + inputs.count .clock =
            n + (input :: inputs).count .clock := by
          rw [List.count_cons]
          split
          · simp_all
            omega
          · simp_all
        rwa [hcount] at h₂

theorem kept_clock (m : IrqMachine) :
    m.clock.1.ticks = m.ticks ∧ m.clock.1.keyboard = m.keyboard := by
  rw [IrqMachine.clock_eq]
  split <;> exact ⟨rfl, rfl⟩

theorem kept_iterate_clock (m : IrqMachine) (k : ℕ) :
    ((fun m => m.clock.1)^[k] m).ticks = m.ticks ∧
      ((fun m => m.clock.1)^[k] m).keyboard = m.keyboard := by
  induction k with
  | zero => exact ⟨rfl, rfl⟩
  | succ k ih =>
      rw [Function.iterate_succ_apply', (kept_clock _).1, (kept_clock _).2]
      exact ih

theorem kept_pitsetfreq (m : IrqMachine) (hz : BitVec 32) :
    (m.pitsetfreq hz).ticks = m.ticks ∧ (m.pitsetfreq hz).keyboard = m.keyboard := by
  unfold IrqMachine.pitsetfreq
  split <;> exact ⟨rfl, rfl⟩

theorem pit_intInit (addr : Stub → BitVec 32) (m : IrqMachine) :
    (m.intInit addr).pit = m.pit := rfl

theorem irqBoot_inv {m : IrqMachine} {c : Byte} (hkeyboard : m.keyboard = keyboardInit c)
    {hz : BitVec 32} (hlo : 19 ≤ hz.toNat) (hhi : hz.toNat ≤ 596591) (k : ℕ) :
    (irqBoot addr m hz k).Inv addr m.ticks (1193182 / hz.toNat) k
      (k / (1193182 / hz.toNat)) := by
  obtain ⟨hticks, hkept⟩ := kept_iterate_clock (m.pitsetfreq hz) k
  rw [(kept_pitsetfreq m hz).1] at hticks
  rw [(kept_pitsetfreq m hz).2, hkeyboard] at hkept
  obtain ⟨e, he⟩ := IrqMachine.pit_iterate_clock ⟨0, pitsetfreq_at hlo hhi⟩ k
  rw [Nat.zero_add] at he
  constructor
  · rw [← hticks]
    exact irqInv_intInit _ hkept
  · rw [irqBoot, pit_intInit, ← he.rises]
    exact he

/-- From the start on, whatever comes: no interrupt is lost and none stops the kernel, the timer's
are counted one by one, and what has no handler can hold up neither it nor the keyboard. -/
theorem irqRun_service (haddr : Function.Injective addr) {m : IrqMachine} {c : Byte}
    (hkeyboard : m.keyboard = keyboardInit c) {hz : BitVec 32} (hlo : 19 ≤ hz.toNat)
    (hhi : hz.toNat ≤ 596591) (k : ℕ) (inputs : List IrqInput) :
    ∃ r, irqRun addr inputs (irqBoot addr m hz k) = some r ∧
      IrqService m.ticks (1193182 / hz.toNat) k (inputs.count .clock) r := by
  obtain ⟨r, hrun, hinv, hpit⟩ := irqRun_inv haddr inputs (irqBoot_inv hkeyboard hlo hhi k)
  refine ⟨r, hrun, hinv.masks, ?_, hinv.ticks, hinv.served, hinv.next, hinv.descending,
    hinv.keyboard⟩
  change edges r.log = _
  rw [← hpit.rises, Nat.add_sub_cancel_left]

end

def demoIrqMachine : IrqMachine where
  master := ⟨0#8, 0#8, 0#8, 0x08#8, .ready, true, false, false⟩
  slave := ⟨0#8, 0#8, 0#8, 0x70#8, .ready, true, false, false⟩
  pit := ⟨0#8, true, 0#16, 65536⟩
  idt _ := ⟨0#16, 0#16, 0#8, 0#8, 0#16⟩
  picMasterMask := 0xFF#8
  picSlaveMask := 0xFF#8
  ticks := 0#32
  keyboard := keyboardInit 0#8

/-- Three periods, of which the second ends before the first is served, a key and a device without
a handler. -/
def demoIrqInputs : List IrqInput :=
  [.clock, .clock, .device 0, .unmask 5, .device 4, .clock, .clock, .interrupt 0#8 0#8, .clock,
    .interrupt 1#8 0x1E#8, .clock, .interrupt 0#8 0#8, .interrupt 0#8 0#8]

theorem demoIrqs_served : ∃ r, irqRun demoAddr demoIrqInputs
      (irqBoot demoAddr demoIrqMachine 596591#32 0) = some r ∧
    r.log = [.latched 0, .latched 1, .latched 5, .merged 0, .served 0 0x20#8, .served 1 0x21#8,
      .latched 0, .served 0 0x20#8, .served 5 0x25#8] ∧
    IrqService 0#32 2 0 6 r := by
  obtain ⟨r, hrun, hservice⟩ := irqRun_service demoAddr_injective
    (m := demoIrqMachine) rfl (show 19 ≤ (596591#32).toNat by decide) (by decide) 0 demoIrqInputs
  have hlog : (irqRun demoAddr demoIrqInputs (irqBoot demoAddr demoIrqMachine 596591#32 0)).map
      IrqRun.log = some [.latched 0, .latched 1, .latched 5, .merged 0, .served 0 0x20#8,
        .served 1 0x21#8, .latched 0, .served 0 0x20#8, .served 5 0x25#8] := by decide +kernel
  rw [hrun] at hlog
  exact ⟨r, hrun, Option.some.inj hlog, hservice⟩

end System44
