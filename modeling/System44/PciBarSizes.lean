import System44.PciBars

/-!
# What is found of the base address registers

A BAR answers for a range of addresses whose size is a power of two and whose base is a multiple of
it. In its registers only the bits above the size can be written; the ones below tell its kind.
-/

namespace System44

def highBits (w e : ℕ) : BitVec w := BitVec.allOnes w <<< e

section

variable {w e : ℕ} {x y : BitVec w}

theorem and_highBits_of_dvd (h : 2 ^ e ∣ x.toNat) : x &&& highBits w e = x := by
  obtain ⟨q, hq⟩ := h
  ext i hi
  have hbit : x[i] = (decide (e ≤ i) && q.testBit (i - e)) := by
    rw [BitVec.getElem_eq_testBit_toNat, hq, Nat.testBit_two_pow_mul]
  simp only [highBits, BitVec.getElem_and, BitVec.getElem_shiftLeft, BitVec.getElem_allOnes]
  by_cases hle : e ≤ i
  · simp [Nat.not_lt.mpr hle]
  · simp [hbit, hle]

theorem and_highBits_of_lt (h : x.toNat < 2 ^ e) : x &&& highBits w e = 0#w := by
  ext i hi
  simp only [highBits, BitVec.getElem_and, BitVec.getElem_shiftLeft, BitVec.getElem_allOnes,
    BitVec.getElem_zero]
  by_cases hle : e ≤ i
  · have hbit : x[i] = false := by
      rw [BitVec.getElem_eq_testBit_toNat]
      exact Nat.testBit_lt_two_pow (h.trans_le (Nat.pow_le_pow_right (by decide) hle))
    rw [hbit, Bool.false_and]
  · simp [Nat.lt_of_not_le hle]

theorem or_and_highBits (hx : 2 ^ e ∣ x.toNat) (hy : y.toNat < 2 ^ e) :
    (x ||| y) &&& highBits w e = x := by
  rw [BitVec.and_or_distrib_right, and_highBits_of_dvd hx, and_highBits_of_lt hy, BitVec.or_zero]

theorem ones_written {v f writable : BitVec w} (hv : v &&& writable = v)
    (hf : f &&& writable = 0#w) :
    (v ||| f) &&& ~~~writable ||| BitVec.allOnes w &&& writable = f ||| writable := by
  ext i hi
  have hv' := congrArg (fun z : BitVec w => z[i]) hv
  have hf' := congrArg (fun z : BitVec w => z[i]) hf
  simp only [BitVec.getElem_and, BitVec.getElem_zero] at hv' hf'
  simp only [BitVec.getElem_or, BitVec.getElem_and, BitVec.getElem_not, BitVec.getElem_allOnes]
  revert hv' hf'
  cases v[i] <;> cases f[i] <;> cases writable[i] <;> decide

theorem or_ne_zero_left (h : x ≠ 0#w) : x ||| y ≠ 0#w := fun h0 =>
  h (BitVec.or_eq_zero_iff.mp h0).1

theorem or_ne_zero_right (h : y ≠ 0#w) : x ||| y ≠ 0#w := fun h0 =>
  h (BitVec.or_eq_zero_iff.mp h0).2

end

theorem setWidth_pair_and (hi lo : BitVec 32) :
    ((hi.setWidth 64 <<< 32 ||| lo.setWidth 64) &&& ~~~0xF#64).setWidth 32 =
      lo &&& 0xFFFFFFF0#32 := by
  have hmask : (~~~0xF#64).setWidth 32 = 0xFFFFFFF0#32 := by decide
  have hhigh : (hi.setWidth 64 <<< 32).setWidth 32 = 0#32 := by
    ext i hi
    simp
  rw [BitVec.setWidth_and, BitVec.setWidth_or, hmask, hhigh, BitVec.zero_or,
    BitVec.setWidth_setWidth_of_le _ (by decide), BitVec.setWidth_eq]

/-- A range of `w`-bit addresses of at least `2 ^ lo` bytes that has been assigned. -/
structure BarRange (w lo : ℕ) where
  exp : ℕ
  base : BitVec w
  lo_le : lo ≤ exp
  exp_lt : exp < w
  aligned : 2 ^ exp ∣ base.toNat
  assigned : base ≠ 0#w

namespace BarRange

variable {w lo : ℕ} (r : BarRange w lo)

def size : ℕ := 2 ^ r.exp

def mask : BitVec w := highBits w r.exp

theorem base_and_mask : r.base &&& r.mask = r.base := and_highBits_of_dvd r.aligned

theorem dvd_base : 2 ^ lo ∣ r.base.toNat := dvd_trans (Nat.pow_dvd_pow 2 r.lo_le) r.aligned

theorem flags_and_mask {f : BitVec w} (h : f.toNat < 2 ^ lo) : f &&& r.mask = 0#w :=
  and_highBits_of_lt (h.trans_le (Nat.pow_le_pow_right (by decide) r.lo_le))

end BarRange

/-- What takes up the registers: nothing, an I/O BAR whose upper 16 address bits may be missing, or
a memory BAR of one or of two registers. -/
inductive Bar
  | unused
  | io (r : BarRange 32 2) (wide : Bool) (narrow : wide = false → r.base.toNat < 2 ^ 16)
  | mem32 (r : BarRange 32 4) (below1M prefetch : Bool)
  | mem64 (r : BarRange 64 4) (prefetch : Bool)

namespace Bar

/-- How many registers it takes. -/
def width : Bar → ℕ
  | mem64 .. => 2
  | _ => 1

def ioBits (wide : Bool) : BitVec 32 := if wide then BitVec.allOnes 32 else 0xFFFF#32

def memFlags (type : BitVec 32) (prefetch : Bool) : BitVec 32 :=
  type <<< 1 ||| if prefetch then 8#32 else 0#32

def HasBits (config : PciConfig) (k : PciReg) (value writable : BitVec 32) : Prop :=
  config.reg k = value ∧ config.writable k = writable

def At (config : PciConfig) (bus dev func : ℕ) (b : Bar) (i : ℕ) : Prop :=
  let reg (i : ℕ) : PciReg := (bus, dev, func, 0x10 + i * 4)
  match b with
  | unused => HasBits config (reg i) 0#32 0#32
  | io r wide _ => HasBits config (reg i) (r.base ||| 1#32) (r.mask &&& ioBits wide)
  | mem32 r below1M prefetch =>
    HasBits config (reg i) (r.base ||| memFlags (if below1M then 1#32 else 0#32) prefetch) r.mask
  | mem64 r prefetch =>
    HasBits config (reg i) (r.base.setWidth 32 ||| memFlags 2#32 prefetch) (r.mask.setWidth 32) ∧
    HasBits config (reg (i + 1)) ((r.base >>> 32).setWidth 32) ((r.mask >>> 32).setWidth 32)

def Recorded (d : PciDevice) (b : Bar) (i : ℕ) : Prop :=
  match b with
  | unused => (d.barNo i).size = 0#8 ∧ (d.barNo i).isIo = false
  | io r _ _ =>
    (d.barNo i).size.toNat = r.size ∧ (d.barNo i).isIo = true ∧ (d.barNo i).addr = r.base
  | mem32 r _ _ =>
    (d.barNo i).size.toNat = r.size ∧ (d.barNo i).isIo = false ∧ (d.barNo i).addr = r.base
  | mem64 r _ =>
    (d.barNo i).size.toNat = r.size ∧ (d.barNo i).isIo = false ∧
      (d.barNo i).addr.toNat = r.base.toNat ∧ d.barNo (i + 1) = ⟨false, 0#8, 0#32⟩

/-- Its size fits the byte of the record, and its base the double word. -/
def Fits : Bar → Prop
  | unused => True
  | io r _ _ => r.size < 2 ^ 8
  | mem32 r _ _ => r.size < 2 ^ 8
  | mem64 r _ => r.size < 2 ^ 8 ∧ r.base.toNat < 2 ^ 32

theorem width_pos (b : Bar) : 0 < b.width := by cases b <;> exact Nat.succ_pos _

theorem recorded_congr {d d' : PciDevice} (b : Bar) {i : ℕ}
    (h : ∀ j < i + b.width, d.barNo j = d'.barNo j) : b.Recorded d i ↔ b.Recorded d' i := by
  have hfirst := h i (Nat.lt_add_of_pos_right b.width_pos)
  cases b with
  | unused => simp only [Recorded, hfirst]
  | io r wide narrow => simp only [Recorded, hfirst]
  | mem32 r below1M prefetch => simp only [Recorded, hfirst]
  | mem64 r prefetch => simp only [Recorded, hfirst, h (i + 1) (Nat.lt_succ_self _)]

end Bar

/-- The BARs take up the registers from the `i`-th on. -/
def Occupied (config : PciConfig) (bus dev func : ℕ) : ℕ → List Bar → Prop
  | i, [] => i = 6
  | i, b :: bs => b.At config bus dev func i ∧ Occupied config bus dev func (i + b.width) bs

/-- The record is right about all of them. -/
def AllRecorded (d : PciDevice) : ℕ → List Bar → Prop
  | _, [] => True
  | i, b :: bs => b.Recorded d i ∧ AllRecorded d (i + b.width) bs

theorem io_probe : ∀ wide : Bool, ∀ e < 32, 2 ≤ e → (wide = true ∨ e < 16) →
    let probe := 1#32 ||| highBits 32 e &&& Bar.ioBits wide
    probe ≠ 0#32 ∧ probe &&& 0x1#32 ≠ 0#32 ∧
      ((~~~(probe &&& 0xFFFFFFFC#32) + 1#32).setWidth 8).toNat = 2 ^ e % 2 ^ 8 := by
  decide

theorem mem32_probe : ∀ below1M prefetch : Bool, ∀ e < 32, 4 ≤ e →
    let probe := Bar.memFlags (if below1M then 1#32 else 0#32) prefetch ||| highBits 32 e
    probe ≠ 0#32 ∧ probe &&& 0x1#32 = 0#32 ∧ probe >>> 1 &&& 0x3#32 ≠ 0x2#32 ∧
      ((~~~(probe &&& 0xFFFFFFF0#32) + 1#32).setWidth 8).toNat = 2 ^ e % 2 ^ 8 := by
  decide

theorem mem64_probe : ∀ prefetch : Bool, ∀ e < 64, 4 ≤ e →
    let probe := Bar.memFlags 2#32 prefetch ||| (highBits 64 e).setWidth 32
    let full := ((highBits 64 e >>> 32).setWidth 32).setWidth 64 <<< 32 ||| probe.setWidth 64
    probe ≠ 0#32 ∧ probe &&& 0x1#32 = 0#32 ∧ probe >>> 1 &&& 0x3#32 = 0x2#32 ∧
      (((~~~(full &&& ~~~0xF#64) + 1#64).setWidth 32).setWidth 8).toNat = 2 ^ e % 2 ^ 8 := by
  decide

namespace BarRange

variable {w lo : ℕ} (r : BarRange w lo)

theorem size_recorded_iff : r.size % 2 ^ 8 = r.size ↔ r.size < 2 ^ 8 :=
  Nat.mod_eq_iff_lt (by decide)

theorem base_or_flags {f : BitVec w} (h : f.toNat < 2 ^ lo) :
    (r.base ||| f) &&& highBits w lo = r.base := or_and_highBits r.dvd_base h

variable (r : BarRange 32 2) {wide : Bool} (narrow : wide = false → r.base.toNat < 2 ^ 16)

include narrow

theorem and_ioBits : r.base &&& Bar.ioBits wide = r.base := by
  cases wide with
  | true => exact BitVec.and_allOnes
  | false =>
      apply BitVec.eq_of_toNat_eq
      rw [BitVec.toNat_and]
      exact (Nat.and_two_pow_sub_one_eq_mod _ 16).trans (Nat.mod_eq_of_lt (narrow rfl))

theorem wide_or : wide = true ∨ r.exp < 16 := by
  cases wide with
  | true => exact Or.inl rfl
  | false =>
      right
      by_contra hle
      have hdvd : 2 ^ 16 ∣ r.base.toNat :=
        dvd_trans (Nat.pow_dvd_pow 2 (Nat.le_of_not_lt hle)) r.aligned
      have hzero : r.base.toNat = 0 := Nat.eq_zero_of_dvd_of_lt hdvd (narrow rfl)
      exact r.assigned (BitVec.eq_of_toNat_eq hzero)

end BarRange

section

variable {bus dev func : ℕ} {config : PciConfig} {s : BarProbe} {i : ℕ}

theorem barReg_eq (hbus : bus < 256) (hdev : dev < 32) (hfunc : func < 8) (hi : i < 6) :
    barReg bus dev func (0x10 + i * 4) = (bus, dev, func, 0x10 + i * 4) :=
  PciConfig.selected_configAddress hbus hdev hfunc (by omega) (by omega)

theorem Bar.HasBits.probe {k : PciReg} {v f writable : BitVec 32}
    (h : HasBits config k (v ||| f) writable) (hv : v &&& writable = v)
    (hf : f &&& writable = 0#32) :
    (config.write k 0xFFFFFFFF#32).reg k = f ||| writable := by
  rw [PciConfig.reg_write_self, h.1, h.2]
  exact ones_written hv hf

variable (hbus : bus < 256) (hdev : dev < 32) (hfunc : func < 8)

include hbus hdev hfunc

theorem readDword_bar (hi : i < 6) :
    config.readDword bus dev func (0x10 + i * 4) = config.reg (bus, dev, func, 0x10 + i * 4) := by
  rw [PciConfig.readDword_eq]
  exact congrArg config.reg (barReg_eq hbus hdev hfunc hi)

theorem probeOnes_bar (hi : i < 6) :
    probeOnes config bus dev func (0x10 + i * 4) (config.reg (bus, dev, func, 0x10 + i * 4)) =
      ((config.write (bus, dev, func, 0x10 + i * 4) 0xFFFFFFFF#32).reg
        (bus, dev, func, 0x10 + i * 4), config) := by
  have hones := probeOnes_eq bus dev func config (0x10 + i * 4)
  rwa [readDword_bar hbus hdev hfunc hi, barReg_eq hbus hdev hfunc hi] at hones

theorem pciProbeBar_unused (hi : i < 6) (hat : Bar.unused.At s.config bus dev func i) :
    pciProbeBar bus dev func s i = (⟨s.config, s.out.skipBar i⟩, i) := by
  rw [pciProbeBar, readDword_bar hbus hdev hfunc hi]
  exact if_pos hat.1

theorem pciProbeBar_io (hi : i < 6) {r : BarRange 32 2} {wide : Bool}
    {narrow : wide = false → r.base.toNat < 2 ^ 16}
    (hat : (Bar.io r wide narrow).At s.config bus dev func i) :
    ∃ size : BitVec 8, size.toNat = r.size % 2 ^ 8 ∧
      pciProbeBar bus dev func s i = (⟨s.config, s.out.setBar i ⟨true, size, r.base⟩⟩, i) := by
  have hbits : r.base &&& (r.mask &&& Bar.ioBits wide) = r.base := by
    rw [← BitVec.and_assoc, r.base_and_mask]
    exact r.and_ioBits narrow
  have hflag : 1#32 &&& (r.mask &&& Bar.ioBits wide) = 0#32 := by
    rw [← BitVec.and_assoc, r.flags_and_mask (by decide), BitVec.zero_and]
  have hprobe := hat.probe hbits hflag
  have hbase : (r.base ||| 1#32) &&& 0xFFFFFFFC#32 = r.base := r.base_or_flags (by decide)
  rw [BarRange.mask] at hprobe
  obtain ⟨hne, hio, hsize⟩ := io_probe wide r.exp r.exp_lt r.lo_le (r.wide_or narrow)
  refine ⟨_, hsize, ?_⟩
  rw [pciProbeBar]
  dsimp only
  rw [readDword_bar hbus hdev hfunc hi, probeOnes_bar hbus hdev hfunc hi, hprobe, hat.1]
  dsimp only
  rw [if_neg (or_ne_zero_left r.assigned), if_neg hne, if_pos hio, hbase]

theorem pciProbeBar_mem32 (hi : i < 6) {r : BarRange 32 4} {below1M prefetch : Bool}
    (hat : (Bar.mem32 r below1M prefetch).At s.config bus dev func i) :
    ∃ size : BitVec 8, size.toNat = r.size % 2 ^ 8 ∧
      pciProbeBar bus dev func s i = (⟨s.config, s.out.setBar i ⟨false, size, r.base⟩⟩, i) := by
  have hflags : (Bar.memFlags (if below1M then 1#32 else 0#32) prefetch).toNat < 2 ^ 4 := by
    cases below1M <;> cases prefetch <;> decide
  have hprobe := hat.probe r.base_and_mask (r.flags_and_mask hflags)
  have hbase : (r.base ||| Bar.memFlags (if below1M then 1#32 else 0#32) prefetch) &&&
      0xFFFFFFF0#32 = r.base := r.base_or_flags hflags
  rw [BarRange.mask] at hprobe
  obtain ⟨hne, hio, htype, hsize⟩ := mem32_probe below1M prefetch r.exp r.exp_lt r.lo_le
  refine ⟨_, hsize, ?_⟩
  rw [pciProbeBar]
  dsimp only
  rw [readDword_bar hbus hdev hfunc hi, probeOnes_bar hbus hdev hfunc hi, hprobe, hat.1]
  dsimp only
  rw [if_neg (or_ne_zero_left r.assigned), if_neg hne, if_neg (not_not_intro hio),
    if_neg fun h => htype h.1, hbase]

theorem pciProbeBar_mem64 (hi : i + 1 < 6) {r : BarRange 64 4} {prefetch : Bool}
    (hat : (Bar.mem64 r prefetch).At s.config bus dev func i) :
    ∃ size : BitVec 8, size.toNat = r.size % 2 ^ 8 ∧
      pciProbeBar bus dev func s i =
        (⟨s.config, (s.out.setBar i ⟨false, size, r.base.setWidth 32⟩).setBar (i + 1)
          ⟨false, 0#8, 0#32⟩⟩, i + 1) := by
  have hilt : i < 6 := Nat.lt_of_succ_lt hi
  have hflags : (Bar.memFlags 2#32 prefetch).toNat < 2 ^ 4 := by cases prefetch <;> decide
  have horig : r.base.setWidth 32 ||| Bar.memFlags 2#32 prefetch ≠ 0#32 :=
    or_ne_zero_right (by cases prefetch <;> decide)
  have hlow : r.base.setWidth 32 &&& r.mask.setWidth 32 = r.base.setWidth 32 := by
    rw [← BitVec.setWidth_and, r.base_and_mask]
  have hhigh : (r.base >>> 32).setWidth 32 &&& (r.mask >>> 32).setWidth 32 =
      (r.base >>> 32).setWidth 32 := by
    rw [← BitVec.setWidth_and, ← BitVec.ushiftRight_and_distrib, r.base_and_mask]
  have hflagged : Bar.memFlags 2#32 prefetch &&& r.mask.setWidth 32 = 0#32 := by
    have hwide : (Bar.memFlags 2#32 prefetch).setWidth 64 &&& r.mask = 0#64 :=
      r.flags_and_mask (by cases prefetch <;> decide)
    have hlow := congrArg (BitVec.setWidth 32) hwide
    rwa [BitVec.setWidth_and, BitVec.setWidth_setWidth_of_le _ (by decide),
      BitVec.setWidth_eq] at hlow
  have hprobe := hat.1.probe hlow hflagged
  have hprobeHi : (s.config.write (bus, dev, func, 0x10 + (i + 1) * 4) 0xFFFFFFFF#32).reg
      (bus, dev, func, 0x10 + (i + 1) * 4) = (r.mask >>> 32).setWidth 32 := by
    have hwritten := Bar.HasBits.probe (f := 0#32)
      (by rw [BitVec.or_zero]; exact hat.2) hhigh (BitVec.zero_and)
    rwa [BitVec.zero_or] at hwritten
  have hbase : (r.base.setWidth 32 ||| Bar.memFlags 2#32 prefetch) &&& 0xFFFFFFF0#32 =
      r.base.setWidth 32 := by
    refine or_and_highBits (e := 4) ?_ hflags
    rw [BitVec.toNat_setWidth]
    exact (Nat.dvd_mod_iff (by decide)).mpr r.dvd_base
  rw [BarRange.mask] at hprobe hprobeHi
  obtain ⟨hne, hio, htype, hsize⟩ := mem64_probe prefetch r.exp r.exp_lt r.lo_le
  refine ⟨_, hsize, ?_⟩
  rw [pciProbeBar]
  dsimp only
  rw [readDword_bar hbus hdev hfunc hilt, probeOnes_bar hbus hdev hfunc hilt, hprobe, hat.1.1]
  dsimp only
  rw [readDword_bar hbus hdev hfunc hi, probeOnes_bar hbus hdev hfunc hi, hprobeHi, hat.2.1]
  dsimp only
  rw [if_neg horig, if_neg hne, if_neg (not_not_intro hio), if_pos ⟨htype, hi⟩, setWidth_pair_and,
    hbase]

theorem pciProbeBar_recorded {b : Bar} (hi : i + b.width ≤ 6)
    (hat : b.At s.config bus dev func i) :
    ∃ out, pciProbeBar bus dev func s i = (⟨s.config, out⟩, i + b.width - 1) ∧
      (b.Recorded out i ↔ b.Fits) ∧
      ∀ j < 6, j < i ∨ i + b.width ≤ j → out.barNo j = s.out.barNo j := by
  have hwidth := b.width_pos
  cases b with
  | unused =>
      refine ⟨_, pciProbeBar_unused hbus hdev hfunc hi hat, ?_, fun j hj hout => ?_⟩
      · rw [Bar.Recorded, PciDevice.barNo_skipBar _ hi, if_pos rfl]
        exact iff_of_true ⟨rfl, rfl⟩ trivial
      · rw [PciDevice.barNo_skipBar _ hj, if_neg (by omega)]
  | io r wide narrow =>
      obtain ⟨size, hsize, hround⟩ := pciProbeBar_io hbus hdev hfunc hi hat
      refine ⟨_, hround, ?_, fun j hj hout => ?_⟩
      · rw [Bar.Recorded, PciDevice.barNo_setBar _ hi, if_pos rfl, hsize, r.size_recorded_iff]
        exact and_iff_left ⟨rfl, rfl⟩
      · rw [PciDevice.barNo_setBar _ hj, if_neg (by omega)]
  | mem32 r below1M prefetch =>
      obtain ⟨size, hsize, hround⟩ := pciProbeBar_mem32 hbus hdev hfunc hi hat
      refine ⟨_, hround, ?_, fun j hj hout => ?_⟩
      · rw [Bar.Recorded, PciDevice.barNo_setBar _ hi, if_pos rfl, hsize, r.size_recorded_iff]
        exact and_iff_left ⟨rfl, rfl⟩
      · rw [PciDevice.barNo_setBar _ hj, if_neg (by omega)]
  | mem64 r prefetch =>
      obtain ⟨size, hsize, hround⟩ := pciProbeBar_mem64 hbus hdev hfunc hi hat
      have hlt : i < 6 := Nat.lt_of_succ_lt hi
      refine ⟨_, hround, ?_, fun j hj hout => ?_⟩
      · rw [Bar.Recorded, PciDevice.barNo_setBar _ hlt, if_neg (Nat.ne_of_lt i.lt_succ_self),
          PciDevice.barNo_setBar _ hlt, if_pos rfl, PciDevice.barNo_setBar _ hi, if_pos rfl, hsize,
          r.size_recorded_iff]
        refine and_congr_right fun _ => ?_
        rw [BitVec.toNat_setWidth, Nat.mod_eq_iff_lt (by decide)]
        exact ⟨fun h => h.2.1, fun h => ⟨rfl, h, rfl⟩⟩
      · rw [Bar.width] at hout
        rw [PciDevice.barNo_setBar _ hj, if_neg (by omega), PciDevice.barNo_setBar _ hj,
          if_neg (by omega)]

omit hbus hdev hfunc in
theorem Occupied.le {bars : List Bar} (h : Occupied config bus dev func i bars) : i ≤ 6 := by
  induction bars generalizing i with
  | nil => exact Nat.le_of_eq h
  | cons b bs ih => exact (Nat.le_add_right _ _).trans (ih h.2)

/-- From the `i`-th register on the loop records all BARs rightly if they fit, and what has been
recorded of the ones before stays. -/
theorem pciProbeBarsLoop_recorded {bars : List Bar} {n : ℕ} (hn : 6 ≤ i + n)
    (h : Occupied s.config bus dev func i bars) :
    (AllRecorded (pciProbeBarsLoop bus dev func n s i).out i bars ↔ ∀ b ∈ bars, b.Fits) ∧
      ∀ j < i, (pciProbeBarsLoop bus dev func n s i).out.barNo j = s.out.barNo j := by
  induction bars generalizing s i n with
  | nil =>
      obtain rfl : i = 6 := h
      have hdone : pciProbeBarsLoop bus dev func n s 6 = s := by cases n <;> rfl
      rw [hdone]
      exact ⟨iff_of_true trivial nofun, fun _ _ => rfl⟩
  | cons b bs ih =>
      obtain ⟨hat, hrest⟩ := h
      have hle : i + b.width ≤ 6 := hrest.le
      have hwidth : 0 < b.width := b.width_pos
      obtain ⟨n, rfl⟩ : ∃ k, n = k + 1 := ⟨n - 1, by omega⟩
      obtain ⟨out, hround, hrecorded, hkeep⟩ := pciProbeBar_recorded hbus hdev hfunc hle hat
      have hnext : i + b.width - 1 + 1 = i + b.width := by omega
      have hloop : pciProbeBarsLoop bus dev func (n + 1) s i =
          pciProbeBarsLoop bus dev func n ⟨s.config, out⟩ (i + b.width) := by
        rw [pciProbeBarsLoop, if_pos (by omega), hround]
        exact congrArg _ hnext
      obtain ⟨hall, hkeep'⟩ := ih (s := ⟨s.config, out⟩) (n := n) (by omega) hrest
      rw [hloop, AllRecorded, hall, List.forall_mem_cons]
      refine ⟨and_congr_left fun _ => ?_, fun j hj => ?_⟩
      · rw [← hrecorded]
        exact b.recorded_congr fun j hj => hkeep' j hj
      · rw [hkeep' j (by omega)]
        exact hkeep j (by omega) (Or.inl hj)

/-- The sizes, bases and kinds that `pciProbeBars` records are right exactly when every size fits a
byte and every base a double word. -/
theorem pciProbeBars_recorded_iff {bars : List Bar} (out : PciDevice)
    (h : Occupied config bus dev func 0 bars) :
    AllRecorded (pciProbeBars config bus dev func out).out 0 bars ↔ ∀ b ∈ bars, b.Fits :=
  (pciProbeBarsLoop_recorded hbus hdev hfunc (s := ⟨config, out⟩) (by decide) h).1

end

/-- A function whose first base address register is the only one. -/
def demoBar (value writable : BitVec 32) : PciConfig where
  reg k := if k = (0, 3, 0, 0x10) then value else 0#32
  writable k := if k = (0, 3, 0, 0x10) then writable else 0#32

def demoPorts : Bar := .io ⟨6, 0xC040#32, by decide, by decide, by decide, by decide⟩ true nofun

/-- 4096 bytes from 0xFEBF1000 on. -/
def demoPage : Bar := .mem32 ⟨12, 0xFEBF1000#32, by decide, by decide, by decide, by decide⟩
  false false

theorem demoPorts_occupied : Occupied (demoBar 0xC041#32 0xFFFFFFC0#32) 0 3 0 0
    [demoPorts, .unused, .unused, .unused, .unused, .unused] :=
  ⟨⟨rfl, rfl⟩, ⟨rfl, rfl⟩, ⟨rfl, rfl⟩, ⟨rfl, rfl⟩, ⟨rfl, rfl⟩, ⟨rfl, rfl⟩, rfl⟩

theorem demoPage_occupied : Occupied (demoBar 0xFEBF1000#32 0xFFFFF000#32) 0 3 0 0
    [demoPage, .unused, .unused, .unused, .unused, .unused] :=
  ⟨⟨rfl, rfl⟩, ⟨rfl, rfl⟩, ⟨rfl, rfl⟩, ⟨rfl, rfl⟩, ⟨rfl, rfl⟩, ⟨rfl, rfl⟩, rfl⟩

theorem demoPorts_recorded :
    AllRecorded (pciProbeBars (demoBar 0xC041#32 0xFFFFFFC0#32) 0 3 0 PciDevice.zero).out 0
      [demoPorts, .unused, .unused, .unused, .unused, .unused] :=
  (pciProbeBars_recorded_iff (by decide) (by decide) (by decide) PciDevice.zero
    demoPorts_occupied).mpr
      (List.forall_mem_cons.mpr ⟨show 2 ^ 6 < 2 ^ 8 by decide, by simp [Bar.Fits]⟩)

/-- The size of a page is recorded as 0. -/
theorem demoPage_not_recorded :
    Occupied (demoBar 0xFEBF1000#32 0xFFFFF000#32) 0 3 0 0
      [demoPage, .unused, .unused, .unused, .unused, .unused] ∧
    ¬ AllRecorded (pciProbeBars (demoBar 0xFEBF1000#32 0xFFFFF000#32) 0 3 0 PciDevice.zero).out 0
      [demoPage, .unused, .unused, .unused, .unused, .unused] := by
  refine ⟨demoPage_occupied, fun h => ?_⟩
  exact absurd h.1.1 (by decide)

end System44
