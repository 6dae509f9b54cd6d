import System44.PciEnumerate

/-!
# The PCI lines of the boot log

`kmain` has the devices enumerated into an array on its stack and is not told how many there are: it
goes over all 1024 slots and prints those whose vendor is not zero. So a slot that the enumeration
has not reached is printed whenever the stack happens to hold another value there.
-/

namespace System44

/-- What `printf` is called with for one device. -/
structure PciLine where
  index : ℕ
  bus : ℕ
  dev : ℕ
  func : ℕ
  vendor : BitVec 16
  device : BitVec 16
  deriving DecidableEq

def PciOut.line (r : PciOut) (i : ℕ) : PciLine :=
  ⟨i, r.bus, r.dev, r.func, r.pci.vendor, r.pci.device⟩

def printPci (pcis : ℕ → PciOut) (i : ℕ) : Option PciLine :=
  if (pcis i).pci.vendor ≠ 0#16 then some ((pcis i).line i) else none

/-- The lines that `kmain` prints; `stack` is what `pcis` holds at first, and `device` the variable
of `pciEnumerate`. -/
def bootLog (space : PciSpace) (device : PciDevice) (stack : ℕ → PciOut) : List PciLine :=
  let pcis := (pciEnumerate space device stack).records.out
  (List.range 1024).filterMap (printPci pcis)

/-- The lines of the records that `pciEnumerate` has written. -/
def writtenLines (space : PciSpace) (device : PciDevice) (stack : ℕ → PciOut) : List PciLine :=
  let records := (pciEnumerate space device stack).records
  (List.range records.pos).map fun i => (records.out i).line i

theorem filterMap_range_eq_iff {f g : ℕ → Option PciLine} (hf : ∀ i, ∀ l ∈ f i, l.index = i)
    (hg : ∀ i, ∀ l ∈ g i, l.index = i) (n : ℕ) :
    (List.range n).filterMap f = (List.range n).filterMap g ↔ ∀ i < n, f i = g i := by
  constructor
  · intro heq i hi
    have hmem : ∀ l, l ∈ f i ↔ l ∈ g i := by
      intro l
      have hlists : l ∈ (List.range n).filterMap f ↔ l ∈ (List.range n).filterMap g := by rw [heq]
      rw [List.mem_filterMap, List.mem_filterMap] at hlists
      constructor
      · intro hl
        obtain ⟨j, -, hj⟩ := hlists.mp ⟨i, List.mem_range.mpr hi, hl⟩
        obtain rfl : i = j := (hf i l hl).symm.trans (hg j l hj)
        exact hj
      · intro hl
        obtain ⟨j, -, hj⟩ := hlists.mpr ⟨i, List.mem_range.mpr hi, hl⟩
        obtain rfl : i = j := (hg i l hl).symm.trans (hf j l hj)
        exact hj
    exact Option.ext hmem
  · intro heq
    exact List.filterMap_congr fun i hi => heq i (List.mem_range.mp hi)

theorem index_of_mem_line {c : Prop} [Decidable c] {r : PciOut} {i : ℕ} :
    ∀ l ∈ (if c then some (r.line i) else none), l.index = i := by
  intro l hl
  split at hl
  · rw [← Option.some.inj hl]
    rfl
  · exact absurd hl (Option.not_mem_none l)

theorem index_of_mem_printPci {pcis : ℕ → PciOut} (i : ℕ) :
    ∀ l ∈ printPci pcis i, l.index = i := index_of_mem_line

def writtenLine (pcis : ℕ → PciOut) (n i : ℕ) : Option PciLine :=
  if i < n then some ((pcis i).line i) else none

theorem index_of_mem_writtenLine {pcis : ℕ → PciOut} {n : ℕ} (i : ℕ) :
    ∀ l ∈ writtenLine pcis n i, l.index = i := index_of_mem_line

theorem filterMap_writtenLine (pcis : ℕ → PciOut) {n N : ℕ} (h : n ≤ N) :
    (List.range N).filterMap (writtenLine pcis n) =
      (List.range n).map fun i => (pcis i).line i := by
  obtain ⟨k, rfl⟩ := Nat.exists_eq_add_of_le h
  rw [List.range_add, List.filterMap_append]
  have hbehind : ((List.range k).map (n + ·)).filterMap (writtenLine pcis n) = [] := by
    refine List.filterMap_eq_nil_iff.mpr ?_
    intro i hi
    obtain ⟨j, -, rfl⟩ := List.mem_map.mp hi
    exact if_neg (Nat.not_lt.mpr (Nat.le_add_right n j))
  rw [hbehind, List.append_nil, ← List.filterMap_eq_map]
  exact List.filterMap_congr fun i hi => if_pos (List.mem_range.mp hi)

namespace PciSpace

def VendorsNonzero (space : PciSpace) : Prop :=
  ∀ dev func, space.Enumerated dev func → space.vendor dev func ≠ 0#16

def Quiet (space : PciSpace) (stack : ℕ → PciOut) : Prop :=
  ∀ i, space.functions.length ≤ i → i < 1024 → (stack i).pci.vendor = 0#16

theorem vendorsNonzero_iff {space : PciSpace} :
    space.VendorsNonzero ↔
      ∀ i (_ : i < space.functions.length),
        (pciRecord space space.functions[i]).pci.vendor ≠ 0#16 := by
  constructor
  · intro h i hi
    have henumerated : space.Enumerated space.functions[i].1 space.functions[i].2 :=
      mem_functions.mp (List.getElem_mem hi)
    rw [(recordOf_pciRecord henumerated).vendor_eq]
    exact h _ _ henumerated
  · intro h dev func henumerated
    obtain ⟨i, hi, hget⟩ := List.mem_iff_getElem.mp (mem_functions.mpr henumerated)
    have hvendor := h i hi
    rwa [hget, (recordOf_pciRecord henumerated).vendor_eq] at hvendor

end PciSpace

theorem printPci_eq_writtenLine_iff {pcis : ℕ → PciOut} {n i : ℕ} :
    printPci pcis i = writtenLine pcis n i ↔ ((pcis i).pci.vendor ≠ 0#16 ↔ i < n) := by
  unfold printPci writtenLine
  by_cases hvendor : (pcis i).pci.vendor ≠ 0#16 <;> by_cases hi : i < n <;> simp [hvendor, hi]

section

variable {space : PciSpace} {device device' : PciDevice} {stack stack' : ℕ → PciOut}

theorem records_pos : (pciEnumerate space device stack).records.pos = space.functions.length := by
  rw [(appends_pciEnumerate space device stack).pos_eq, List.length_map]
  exact Nat.zero_add _

theorem writtenLines_eq : writtenLines space device stack = writtenLines space device' stack' := by
  unfold writtenLines
  simp only [records_pos]
  apply List.map_congr_left
  intro i hi
  have hlt := List.mem_range.mp hi
  rw [pciEnumerate_out, pciEnumerate_out, dif_pos hlt, dif_pos hlt]

theorem bootLog_eq_writtenLines_iff :
    bootLog space device stack = writtenLines space device stack ↔
      space.VendorsNonzero ∧ space.Quiet stack := by
  have hlength := space.length_functions_le
  rw [bootLog, writtenLines, records_pos,
    ← filterMap_writtenLine _ (show space.functions.length ≤ 1024 by omega),
    filterMap_range_eq_iff index_of_mem_printPci index_of_mem_writtenLine,
    PciSpace.vendorsNonzero_iff]
  simp only [printPci_eq_writtenLine_iff, pciEnumerate_out]
  constructor
  · intro h
    constructor
    · intro i hi
      have hslot := h i (by omega)
      rw [dif_pos hi] at hslot
      exact hslot.mpr hi
    · intro i hlo hhi
      have hslot := h i hhi
      rw [dif_neg (Nat.not_lt.mpr hlo)] at hslot
      by_contra hvendor
      exact absurd (hslot.mp hvendor) (Nat.not_lt.mpr hlo)
  · rintro ⟨hvendors, hquiet⟩ i hhi
    by_cases hi : i < space.functions.length
    · rw [dif_pos hi]
      exact iff_of_true (hvendors i hi) hi
    · rw [dif_neg hi]
      exact iff_of_false (not_not.mpr (hquiet i (Nat.le_of_not_lt hi) hhi)) hi

/-- Two boots print the same lines if and only if the slots that the enumeration leaves as they were
print the same. -/
theorem bootLog_eq_bootLog_iff :
    bootLog space device stack = bootLog space device' stack' ↔
      ∀ i, space.functions.length ≤ i → i < 1024 → printPci stack i = printPci stack' i := by
  have hslot : ∀ (device : PciDevice) (stack : ℕ → PciOut) i, space.functions.length ≤ i →
      printPci (pciEnumerate space device stack).records.out i = printPci stack i := by
    intro device stack i hi
    rw [printPci, printPci, pciEnumerate_out, dif_neg (Nat.not_lt.mpr hi)]
  rw [bootLog, bootLog, filterMap_range_eq_iff index_of_mem_printPci index_of_mem_printPci]
  constructor
  · intro h i hlo hhi
    rw [← hslot device stack i hlo, ← hslot device' stack' i hlo]
    exact h i hhi
  · intro h i hhi
    by_cases hi : i < space.functions.length
    · rw [printPci, printPci, pciEnumerate_out, pciEnumerate_out, dif_pos hi, dif_pos hi]
    · rw [hslot device stack i (Nat.le_of_not_lt hi), hslot device' stack' i (Nat.le_of_not_lt hi)]
      exact h i (Nat.le_of_not_lt hi) hhi

end

/-- Two boots whose stacks may differ print exactly the records that were written, and so the same
lines, if and only if no function has the vendor 0 and both stacks are zero behind the records. -/
theorem bootLog_exact_iff (space : PciSpace) (device device' : PciDevice)
    (stack stack' : ℕ → PciOut) :
    (bootLog space device stack = writtenLines space device stack ∧
      bootLog space device' stack' = writtenLines space device' stack' ∧
      bootLog space device stack = bootLog space device' stack') ↔
    (∀ dev func, space.Enumerated dev func → space.vendor dev func ≠ 0#16) ∧
      (∀ i, space.functions.length ≤ i → i < 1024 → (stack i).pci.vendor = 0#16) ∧
      ∀ i, space.functions.length ≤ i → i < 1024 → (stack' i).pci.vendor = 0#16 := by
  constructor
  · rintro ⟨h, h', -⟩
    have hexact := bootLog_eq_writtenLines_iff.mp h
    have hexact' := bootLog_eq_writtenLines_iff.mp h'
    exact ⟨hexact.1, hexact.2, hexact'.2⟩
  · rintro ⟨hvendors, hquiet, hquiet'⟩
    have h : bootLog space device stack = writtenLines space device stack :=
      bootLog_eq_writtenLines_iff.mpr ⟨hvendors, hquiet⟩
    have h' : bootLog space device' stack' = writtenLines space device' stack' :=
      bootLog_eq_writtenLines_iff.mpr ⟨hvendors, hquiet'⟩
    exact ⟨h, h', h.trans (writtenLines_eq.trans h'.symm)⟩

/-- A bus on which nothing answers. -/
def emptyBus : PciSpace := fun _ _ _ => BitVec.allOnes 32

/-- A stack with the same vendor in all slots. -/
def stackOf (vendor : BitVec 16) : ℕ → PciOut := fun _ => ⟨{ PciDevice.zero with vendor }, 0, 0, 0⟩

/-- Nothing is enumerated, and yet a boot whose stack is not zero prints lines, which another boot
does not. -/
theorem emptyBus_prints_stack :
    bootLog emptyBus PciDevice.zero (stackOf 0x8086#16) ≠
        writtenLines emptyBus PciDevice.zero (stackOf 0x8086#16) ∧
      bootLog emptyBus PciDevice.zero (stackOf 0x8086#16) ≠
        bootLog emptyBus PciDevice.zero (stackOf 0#16) := by
  have hlength : emptyBus.functions.length ≤ 0 := by decide
  constructor
  · intro h
    have hquiet := (bootLog_eq_writtenLines_iff.mp h).2
    exact absurd (hquiet 0 hlength (by decide)) (by decide)
  · intro h
    have hslot := bootLog_eq_bootLog_iff.mp h 0 hlength (by decide)
    exact absurd hslot (by decide)

end System44
