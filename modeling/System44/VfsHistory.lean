import System44.KfsHistory
import System44.Vfs

/-!
# Open files in the history of a volume

A handle for a file is the address of the oldest entry of its name, and it stays that, whatever is
written to the volume. What is written through it becomes a new file of that name, behind it, so
nobody ever reads it.
-/

namespace System44

section

variable {sb : ℕ} {V V' : Volume} {M : Machine} {c : Files}

theorem Represents.kfsFind_index (h : Represents sb M c) {path i : ℕ} {name : List Byte}
    (hpath : Spells M.mem path name) : kfsFind M.mem sb path = some (some i) ↔
      ∃ hi : i < c.items.length, c.items[i].name = name ∧
        ∀ (j : ℕ) (hj : j < i), c.items[j].name ≠ name := by
  rw [kfsFind_eq_some_iff h.namedDirectory hpath, h.count]
  constructor
  · rintro ⟨hi, hname, hfirst⟩
    rw [List.getD_eq_getElem _ _ hi] at hname
    refine ⟨hi, hname, fun j hj => ?_⟩
    have hne := hfirst j hj
    rwa [List.getD_eq_getElem _ _ (hj.trans hi)] at hne
  · rintro ⟨hi, hname, hfirst⟩
    refine ⟨hi, ?_, fun j hj => ?_⟩
    · rw [List.getD_eq_getElem _ _ hi, hname]
    · rw [List.getD_eq_getElem _ _ (hj.trans hi)]
      exact hfirst j hj

theorem vfsLWrite_file (h : KfsRun sb V) {i : ℕ} (hi : i < V.files.items.length) {f : StoredFile}
    (hname : V.files.items[i].name = f.name) {buf : ℕ}
    (hbytes : ∀ x < f.data.length, V.machine.mem.get (buf + spread x) = f.data.getD x 0#8)
    (happart : fileCount V.machine.mem sb < kfsMaxFiles →
      ∀ x < f.data.length, OffSlot sb (fileCount V.machine.mem sb) (buf + spread x)) :
    ∃ w, vfsLWrite V.machine sb (kfsFile sb i) buf f.size = some w ∧
      w.result = (if V.files.items.length < kfsMaxFiles then 1 else -1) ∧ w.shown = [] ∧
      KfsWork sb V ⟨w.machine, V.files.add f⟩ := by
  have hrep := kfsRun_represents h
  have hspells : Spells V.machine.mem (kfsFile sb i) f.name := hname ▸ (hrep.entry i hi).name
  have hshort := f.short
  have hargs : WriteArgs V.machine.mem sb (kfsFile sb i) buf f := by
    refine ⟨hspells, fun hroom t ht => ?_, hbytes, happart⟩
    have hlt := hrep.lt_count hi
    exact offSlot_kfsFile (hlt.trans hroom) (Nat.ne_of_lt hlt) (by unfold sizeofKfsFile; omega)
  obtain ⟨r, M', hw⟩ := exists_kfsWrite buf f.size hrep.errorFree hargs.nameAt
  refine ⟨⟨r, M', []⟩, ?_, ?_, rfl, .write hargs hw⟩
  · rw [vfsLWrite, if_neg (kfsFile_ne sb i).1, if_neg (kfsFile_ne sb i).2, hw]
    rfl
  · rcases Nat.lt_or_ge V.files.items.length kfsMaxFiles with hroom | hfull
    · rw [if_pos hroom]
      rw [← hrep.count] at hroom
      obtain ⟨-, -, r', disk, hdata, hsuper⟩ := kfsWrite_entered hroom (hargs.nameAt hroom) hw
      obtain ⟨-, stored, hwd⟩ := ataWriteSectors_some hdata
      have hdisk : disk.ErrorFree := hrep.errorFree.congr hwd.reply
      rw [(ataWriteSectors_some hsuper).1, Drive.answer, hdisk.passed]
      rfl
    · rw [if_neg (Nat.not_lt.mpr hfull)]
      rw [← hrep.count] at hfull
      exact (kfsWrite_full hfull hw).1

end

def zeroFile : StoredFile :=
  ⟨letterFile.name, [0#8], letterFile.short, letterFile.ne_zero, letterFile.small⟩

end System44
