import System44.Pci
import Mathlib.Data.Finset.Card
import Mathlib.Data.Finset.Prod
import Mathlib.Tactic.IntervalCases

/-!
# The enumeration finds every function once

A slot is probed at function 0 first, and its other functions only if the header of function 0 says
that there are some. What a probe that fails leaves in `device` is never stored, since every record
is written right after a probe that has filled the variable anew.
-/

namespace System44

theorem and_fc_eq {offset : ℕ} (hlt : offset < 256) (hword : offset % 4 = 0) :
    offset &&& 0xFC = offset := by
  have hall : ∀ k : Fin 64, 4 * k.val &&& 0xFC = 4 * k.val := by decide
  have hoffset := hall ⟨offset / 4, by omega⟩
  rwa [show 4 * (offset / 4) = offset by omega] at hoffset

theorem configAddress_eq {slot func offset : ℕ} (hslot : slot < 32) (hfunc : func < 8)
    (hlt : offset < 256) (hword : offset % 4 = 0) :
    configAddress 0 slot func offset = slot * 2 ^ 11 + (func * 2 ^ 8 + offset) + 2 ^ 31 := by
  have hlow : func <<< 8 ||| offset = func * 2 ^ 8 + offset := by
    rw [← Nat.shiftLeft_add_eq_or_of_lt (by omega), Nat.shiftLeft_eq]
  have hslotted : slot <<< 11 ||| (func * 2 ^ 8 + offset) =
      slot * 2 ^ 11 + (func * 2 ^ 8 + offset) := by
    rw [← Nat.shiftLeft_add_eq_or_of_lt (by omega), Nat.shiftLeft_eq]
  rw [configAddress, and_fc_eq hlt hword, Nat.zero_shiftLeft, Nat.zero_or,
    Nat.or_assoc (slot <<< 11), hlow, hslotted]
  exact Nat.or_two_pow_eq_add_of_lt (n := 31) (by omega)

theorem pciConfigReadDword_eq (space : PciSpace) {slot func offset : ℕ} (hslot : slot < 32)
    (hfunc : func < 8) (hlt : offset < 256) (hword : offset % 4 = 0) :
    pciConfigReadDword space 0 slot func offset = space slot func offset := by
  rw [pciConfigReadDword, configAddress_eq hslot hfunc hlt hword, configData,
    if_pos ⟨by omega, by omega⟩]
  congr 1 <;> omega

theorem setWidth_shift_and (dword mask : BitVec 32) (shift : ℕ) {w : ℕ}
    (hmask : mask.setWidth w = BitVec.allOnes w) :
    (dword >>> shift &&& mask).setWidth w = dword.extractLsb' shift w := by
  rw [BitVec.setWidth_and, hmask, BitVec.and_allOnes]
  ext i hi
  simp [BitVec.getElem_setWidth]

theorem setWidth_getByte (dword : BitVec 32) {offset : ℕ} (hlt : offset < 4) :
    (getByte dword offset).setWidth 8 = dword.extractLsb' (8 * offset) 8 := by
  have hand : (offset &&& 3) * 8 = 8 * offset := by interval_cases offset <;> rfl
  rw [getByte, hand]
  exact setWidth_shift_and dword _ _ rfl

theorem setWidth_getWord (dword : BitVec 32) {offset : ℕ} (hoffset : offset = 0 ∨ offset = 2) :
    (getWord dword offset).setWidth 16 = dword.extractLsb' (8 * offset) 16 := by
  have hand : (offset &&& 2) * 8 = 8 * offset := by rcases hoffset with rfl | rfl <;> rfl
  rw [getWord, hand]
  exact setWidth_shift_and dword _ _ rfl

namespace PciSpace

variable (space : PciSpace)

/-- The vendor field of a function. -/
def vendor (dev func : ℕ) : BitVec 16 := (space dev func 0x00).extractLsb' 0 16

def headerType (dev func : ℕ) : BitVec 8 := (space dev func 0x0C).extractLsb' 16 8

def Present (dev func : ℕ) : Prop := space.vendor dev func ≠ 0xFFFF#16

instance (dev func : ℕ) : Decidable (space.Present dev func) := inferInstanceAs (Decidable (_ ≠ _))

def MultiFunction (dev : ℕ) : Prop := (space.headerType dev 0).getLsbD 7 = true

instance (dev : ℕ) : Decidable (space.MultiFunction dev) := inferInstanceAs (Decidable (_ = _))

/-- The pairs of a slot and a function that the enumeration is meant to find. -/
def Enumerated (dev func : ℕ) : Prop :=
  dev < 32 ∧ space.Present dev 0 ∧
    (func = 0 ∨ (1 ≤ func ∧ func ≤ 7) ∧ space.MultiFunction dev ∧ space.Present dev func)

def functionsAt (dev : ℕ) : List (ℕ × ℕ) :=
  if space.Present dev 0 then
    (dev, 0) ::
      if space.MultiFunction dev then
        (List.range' 1 7).flatMap fun f => if space.Present dev f then [(dev, f)] else []
      else []
  else []

def functions : List (ℕ × ℕ) := (List.range 32).flatMap space.functionsAt

variable {space}

theorem mem_functionsAt {dev : ℕ} {x : ℕ × ℕ} :
    x ∈ space.functionsAt dev ↔ x.1 = dev ∧ space.Present dev 0 ∧
      (x.2 = 0 ∨ (1 ≤ x.2 ∧ x.2 ≤ 7) ∧ space.MultiFunction dev ∧ space.Present dev x.2) := by
  obtain ⟨dev', func⟩ := x
  have hothers : (dev', func) ∈ ((List.range' 1 7).flatMap fun f =>
      if space.Present dev f then [(dev, f)] else []) ↔
        dev' = dev ∧ (1 ≤ func ∧ func ≤ 7) ∧ space.Present dev func := by
    rw [List.mem_flatMap]
    constructor
    · rintro ⟨f, hf, hx⟩
      have hrange := List.mem_range'_1.mp hf
      split at hx
      · rename_i hpresent
        obtain ⟨rfl, rfl⟩ := Prod.mk.inj (List.mem_singleton.mp hx)
        exact ⟨rfl, ⟨hrange.1, by omega⟩, hpresent⟩
      · exact absurd hx List.not_mem_nil
    · rintro ⟨rfl, ⟨hlo, hhi⟩, hpresent⟩
      refine ⟨func, List.mem_range'_1.mpr ⟨hlo, by omega⟩, ?_⟩
      rw [if_pos hpresent]
      exact List.mem_singleton_self _
  unfold functionsAt
  by_cases hpresent : space.Present dev 0
  · by_cases hmulti : space.MultiFunction dev
    · rw [if_pos hpresent, if_pos hmulti, List.mem_cons, hothers, Prod.mk.injEq]
      simp only [hpresent, hmulti, true_and]
      tauto
    · rw [if_pos hpresent, if_neg hmulti, List.mem_singleton, Prod.mk.injEq]
      simp only [hpresent, hmulti, true_and, false_and, and_false, or_false]
  · rw [if_neg hpresent]
    simp [hpresent]

theorem mem_functions {dev func : ℕ} :
    (dev, func) ∈ space.functions ↔ space.Enumerated dev func := by
  rw [functions, List.mem_flatMap]
  constructor
  · rintro ⟨dev', hdev, hx⟩
    obtain ⟨rfl, hx⟩ := mem_functionsAt.mp hx
    exact ⟨List.mem_range.mp hdev, hx⟩
  · rintro ⟨hdev, hx⟩
    exact ⟨dev, List.mem_range.mpr hdev, mem_functionsAt.mpr ⟨rfl, hx⟩⟩

/-- The order in which slots and functions are probed. -/
def Before (x y : ℕ × ℕ) : Prop := x.1 < y.1 ∨ x.1 = y.1 ∧ x.2 < y.2

theorem functionsAt_pairwise (dev : ℕ) : (space.functionsAt dev).Pairwise Before := by
  unfold functionsAt
  split
  · refine List.pairwise_cons.mpr ⟨?_, ?_⟩
    · intro x hx
      split at hx
      · obtain ⟨f, hf, hx⟩ := List.mem_flatMap.mp hx
        have hrange := List.mem_range'_1.mp hf
        split at hx
        · obtain rfl := List.mem_singleton.mp hx
          exact Or.inr ⟨rfl, by omega⟩
        · exact absurd hx List.not_mem_nil
      · exact absurd hx List.not_mem_nil
    · split
      · refine List.pairwise_flatMap.mpr ⟨?_, ?_⟩
        · intro f _
          split
          · exact List.pairwise_singleton _ _
          · exact List.Pairwise.nil
        · refine (List.pairwise_lt_range' 1).imp ?_
          intro f g hlt x hx y hy
          split at hx <;> split at hy
          · obtain rfl := List.mem_singleton.mp hx
            obtain rfl := List.mem_singleton.mp hy
            exact Or.inr ⟨rfl, hlt⟩
          · exact absurd hy List.not_mem_nil
          · exact absurd hx List.not_mem_nil
          · exact absurd hx List.not_mem_nil
      · exact List.Pairwise.nil
  · exact List.Pairwise.nil

theorem functions_pairwise : space.functions.Pairwise Before := by
  refine List.pairwise_flatMap.mpr ⟨fun dev _ => functionsAt_pairwise dev, ?_⟩
  refine List.pairwise_lt_range.imp ?_
  intro dev dev' hlt x hx y hy
  left
  rw [(mem_functionsAt.mp hx).1, (mem_functionsAt.mp hy).1]
  exact hlt

theorem functions_nodup : space.functions.Nodup := by
  refine functions_pairwise.imp ?_
  rintro x y hbefore rfl
  rcases hbefore with hlt | ⟨-, hlt⟩
  · exact Nat.lt_irrefl _ hlt
  · exact Nat.lt_irrefl _ hlt

theorem length_functions_le : space.functions.length ≤ 256 := by
  rw [← List.toFinset_card_of_nodup functions_nodup]
  have hsubset : space.functions.toFinset ⊆ Finset.range 32 ×ˢ Finset.range 8 := by
    rintro ⟨dev, func⟩ hx
    obtain ⟨hdev, -, hfunc⟩ := mem_functions.mp (List.mem_toFinset.mp hx)
    rw [Finset.mem_product, Finset.mem_range, Finset.mem_range]
    exact ⟨hdev, by omega⟩
  calc
    space.functions.toFinset.card ≤ (Finset.range 32 ×ˢ Finset.range 8).card :=
      Finset.card_le_card hsubset
    _ = 256 := by rw [Finset.card_product, Finset.card_range, Finset.card_range]

end PciSpace

/-- The record holds the fields of the function. -/
structure RecordOf (space : PciSpace) (dev func : ℕ) (r : PciOut) : Prop where
  bus_eq : r.bus = 0
  dev_eq : r.dev = dev
  func_eq : r.func = func
  vendor_eq : r.pci.vendor = (space dev func 0x00).extractLsb' 0 16
  device_eq : r.pci.device = (space dev func 0x00).extractLsb' 16 16
  command_eq : r.pci.command = (space dev func 0x04).extractLsb' 0 16
  status_eq : r.pci.status = (space dev func 0x04).extractLsb' 16 16
  progIf_eq : r.pci.progIf = (space dev func 0x08).extractLsb' 8 8
  subclass_eq : r.pci.subclass = (space dev func 0x08).extractLsb' 16 8
  classCode_eq : r.pci.classCode = (space dev func 0x08).extractLsb' 24 8
  headerType_eq : r.pci.headerType = (space dev func 0x0C).extractLsb' 16 8

section

variable {dev func : ℕ} (hdev : dev < 32) (hfunc : func < 8)

include hdev hfunc

theorem setWidth_word (space : PciSpace) (reg offset : ℕ) (hlt : reg < 256) (hreg : reg % 4 = 0)
    (hoffset : offset = 0 ∨ offset = 2) :
    (getWord (pciConfigReadDword space 0 dev func reg) offset).setWidth 16 =
      (space dev func reg).extractLsb' (8 * offset) 16 := by
  rw [pciConfigReadDword_eq space hdev hfunc hlt hreg, setWidth_getWord _ hoffset]

theorem setWidth_byte (space : PciSpace) (reg offset : ℕ) (hlt : reg < 256) (hreg : reg % 4 = 0)
    (hoffset : offset < 4) :
    (getByte (pciConfigReadDword space 0 dev func reg) offset).setWidth 8 =
      (space dev func reg).extractLsb' (8 * offset) 8 := by
  rw [pciConfigReadDword_eq space hdev hfunc hlt hreg, setWidth_getByte _ hoffset]

variable {space : PciSpace}

theorem pciProbeDevice_absent (h : ¬ space.Present dev func) (out : PciDevice) :
    pciProbeDevice space 0 dev func out = (-1, out) := by
  have hvendor := setWidth_word hdev hfunc space 0x00 0 (by decide) (by decide) (Or.inl rfl)
  exact if_pos (hvendor.trans (not_not.mp h))

theorem pciProbeDevice_present (h : space.Present dev func) :
    ∃ pci, (∀ out, pciProbeDevice space 0 dev func out = (0, pci)) ∧
      RecordOf space dev func ⟨pci, 0, dev, func⟩ := by
  have hword {reg offset : ℕ} := setWidth_word hdev hfunc space reg offset
  have hbyte {reg offset : ℕ} := setWidth_byte hdev hfunc space reg offset
  have hvendor : (getWord (pciConfigReadDword space 0 dev func 0x00) 0).setWidth 16 ≠
      0xFFFF#16 := by
    rw [hword (by decide) (by decide) (Or.inl rfl)]
    exact h
  refine ⟨(pciProbeDevice space 0 dev func PciDevice.zero).2, ?_, ?_⟩
  · intro out
    unfold pciProbeDevice probeRecord
    simp only [if_neg hvendor]
    split <;> rfl
  · unfold pciProbeDevice probeRecord
    simp only [if_neg hvendor]
    -- the fields are read before the header type is looked at
    split <;>
      exact ⟨rfl, rfl, rfl, hword (by decide) (by decide) (Or.inl rfl),
        hword (by decide) (by decide) (Or.inr rfl), hword (by decide) (by decide) (Or.inl rfl),
        hword (by decide) (by decide) (Or.inr rfl), hbyte (by decide) (by decide) (by decide),
        hbyte (by decide) (by decide) (by decide), hbyte (by decide) (by decide) (by decide),
        hbyte (by decide) (by decide) (by decide)⟩

end

def pciRecord (space : PciSpace) (x : ℕ × ℕ) : PciOut :=
  ⟨(pciProbeDevice space 0 x.1 x.2 PciDevice.zero).2, 0, x.1, x.2⟩

section

variable {space : PciSpace} {dev : ℕ}

theorem recordOf_pciRecord {func : ℕ} (h : space.Enumerated dev func) :
    RecordOf space dev func (pciRecord space (dev, func)) := by
  obtain ⟨hdev, hzero, hfunc⟩ := h
  have hpresent : space.Present dev func := by
    rcases hfunc with rfl | ⟨-, -, hpresent⟩
    · exact hzero
    · exact hpresent
  obtain ⟨pci, hprobe, hrecord⟩ := pciProbeDevice_present hdev (by omega) hpresent
  rw [pciRecord, hprobe]
  exact hrecord

theorem appends_probeFunction (hdev : dev < 32) (s : PciEnum) {f : ℕ} (hf : f < 8) :
    s.records.Appends (probeFunction space dev s f).records
      ((if space.Present dev f then [(dev, f)] else []).map (pciRecord space)) := by
  unfold probeFunction
  by_cases hpresent : space.Present dev f
  · obtain ⟨pci, hprobe, -⟩ := pciProbeDevice_present hdev hf hpresent
    have hrecord : pciRecord space (dev, f) = ⟨pci, 0, dev, f⟩ := by rw [pciRecord, hprobe]
    rw [hprobe, if_pos hpresent, List.map_singleton, hrecord]
    exact Cursor.appends_push s.records _
  · rw [pciProbeDevice_absent hdev hf hpresent, if_neg hpresent]
    exact Cursor.Appends.refl s.records

theorem multiFunction_iff {headerType : BitVec 8} (h : headerType = space.headerType dev 0) :
    headerType &&& 0x80#8 ≠ 0#8 ↔ space.MultiFunction dev := by
  have hbit : ∀ v : BitVec 8, v &&& 0x80#8 ≠ 0#8 ↔ v.getLsbD 7 = true := by decide
  rw [hbit, h]
  rfl

theorem probeSlot_present (s : PciEnum) {pci : PciDevice}
    (hprobe : ∀ out, pciProbeDevice space 0 dev 0 out = (0, pci))
    (hheader : pci.headerType = space.headerType dev 0) :
    probeSlot space s dev =
      if space.MultiFunction dev then
        (List.range' 1 7).foldl (probeFunction space dev) (PciEnum.record ⟨pci, s.records⟩ dev 0)
      else PciEnum.record ⟨pci, s.records⟩ dev 0 := by
  rw [probeSlot, hprobe]
  exact (if_neg (not_not.mpr rfl)).trans (if_congr (multiFunction_iff hheader) rfl rfl)

theorem probeSlot_absent (s : PciEnum) (hdev : dev < 32) (h : ¬ space.Present dev 0) :
    (probeSlot space s dev).records = s.records := by
  rw [probeSlot, pciProbeDevice_absent hdev (by decide) h]
  rfl

theorem appends_probeSlot (s : PciEnum) (hdev : dev < 32) :
    s.records.Appends (probeSlot space s dev).records
      ((space.functionsAt dev).map (pciRecord space)) := by
  unfold PciSpace.functionsAt
  by_cases hpresent : space.Present dev 0
  · obtain ⟨pci, hprobe, hfields⟩ := pciProbeDevice_present hdev (by decide) hpresent
    have hrecord : pciRecord space (dev, 0) = ⟨pci, 0, dev, 0⟩ := by rw [pciRecord, hprobe]
    have hpush := Cursor.appends_push s.records ⟨pci, 0, dev, 0⟩
    rw [probeSlot_present s hprobe hfields.headerType_eq, if_pos hpresent, List.map_cons, hrecord]
    by_cases hmulti : space.MultiFunction dev
    · have hround : ∀ s, ∀ f ∈ List.range' 1 7,
          (PciEnum.records s).Appends (probeFunction space dev s f).records
            ((if space.Present dev f then [(dev, f)] else []).map (pciRecord space)) := by
        intro s f hf
        have hrange := List.mem_range'_1.mp hf
        exact appends_probeFunction hdev s (by omega)
      rw [if_pos hmulti, if_pos hmulti, List.map_flatMap]
      exact hpush.trans (Cursor.Appends.foldl PciEnum.records hround
        (PciEnum.record ⟨pci, s.records⟩ dev 0))
    · rw [if_neg hmulti, if_neg hmulti, List.map_nil]
      exact hpush
  · rw [probeSlot_absent s hdev hpresent, if_neg hpresent]
    exact Cursor.Appends.refl s.records

end

theorem appends_pciEnumerate (space : PciSpace) (device : PciDevice) (out : ℕ → PciOut) :
    Cursor.Appends ⟨out, 0⟩ (pciEnumerate space device out).records
      (space.functions.map (pciRecord space)) := by
  have hround : ∀ s, ∀ dev ∈ List.range 32,
      (PciEnum.records s).Appends (probeSlot space s dev).records
        ((space.functionsAt dev).map (pciRecord space)) := by
    intro s dev hdev
    exact appends_probeSlot s (List.mem_range.mp hdev)
  rw [PciSpace.functions, List.map_flatMap]
  exact Cursor.Appends.foldl PciEnum.records hround ⟨device, ⟨out, 0⟩⟩

theorem pciEnumerate_out (space : PciSpace) (device : PciDevice) (out : ℕ → PciOut) (i : ℕ) :
    (pciEnumerate space device out).records.out i =
      if h : i < space.functions.length then pciRecord space space.functions[i] else out i := by
  have happends := appends_pciEnumerate space device out
  split
  · rename_i hi
    have hstored := happends.stored i (by rwa [List.length_map])
    rw [List.getElem_map] at hstored
    rw [← hstored, Nat.zero_add]
  · rename_i hi
    exact happends.kept i (Or.inr (by
      rw [List.length_map, Nat.zero_add]
      exact Nat.le_of_not_lt hi))

/-- The records written are those of the functions that are there, in the order of the probes and
each one once; there are at most 256, and every other slot of the array is left as it was. -/
theorem pciEnumerate_exact (space : PciSpace) (device : PciDevice) (out : ℕ → PciOut) :
    ∃ found : List (ℕ × ℕ), found.Pairwise PciSpace.Before ∧ found.Nodup ∧
      (∀ dev func, (dev, func) ∈ found ↔ dev < 32 ∧ space.vendor dev 0 ≠ 0xFFFF#16 ∧
        (func = 0 ∨ (1 ≤ func ∧ func ≤ 7) ∧ (space.headerType dev 0).getLsbD 7 = true ∧
          space.vendor dev func ≠ 0xFFFF#16)) ∧
      found.length ≤ 256 ∧
      (pciEnumerate space device out).records.pos = found.length ∧
      (∀ (i : ℕ) (_ : i < found.length), RecordOf space found[i].1 found[i].2
        ((pciEnumerate space device out).records.out i)) ∧
      ∀ i, found.length ≤ i → (pciEnumerate space device out).records.out i = out i := by
  refine ⟨space.functions, PciSpace.functions_pairwise, PciSpace.functions_nodup,
    fun dev func => PciSpace.mem_functions, PciSpace.length_functions_le, ?_, ?_, ?_⟩
  · rw [(appends_pciEnumerate space device out).pos_eq, List.length_map]
    exact Nat.zero_add _
  · intro i hi
    rw [pciEnumerate_out, dif_pos hi]
    exact recordOf_pciRecord (PciSpace.mem_functions.mp (List.getElem_mem hi))
  · intro i hi
    rw [pciEnumerate_out, dif_neg (Nat.not_lt.mpr hi)]

end System44
