import System44.KfsLayout

/-!
# The sector and the superblock

The superblock has 328 bytes and a sector 512. A mount therefore stores 184 bytes behind the object,
and a write of the superblock sends the 184 bytes that lie behind it to the disk.
-/

namespace System44

/-- The address is not in the object `superblock`. -/
def OffSuperblock (sb a : ℕ) : Prop := sizeofKfsSuperblock ≤ Mem.offset sb a

/-- The two memories hold the same superblock. -/
def SameSuperblock (m m' : Mem) (sb : ℕ) : Prop :=
  ∀ x < sizeofKfsSuperblock, m.get (sb + x) = m'.get (sb + x)

/-- What lies between the end of the superblock and the end of its sector is the same. -/
def SameSpill (m m' : Mem) (sb : ℕ) : Prop :=
  ∀ x, sizeofKfsSuperblock ≤ x → x < kfsSectorSize → m.get (sb + x) = m'.get (sb + x)

/-- The disk keeps every sector that it does not report as failed. -/
def Drive.Honest (d : Drive) : Prop := ∀ n, (d.reply n).good = true → (d.reply n).kept = true

theorem sectorAt_eq_iff {m m' : Mem} {sb : ℕ} (h : SameSuperblock m m' sb) :
    sectorAt m sb = sectorAt m' sb ↔ SameSpill m m' sb := by
  constructor
  · intro heq x _ hx
    exact congrFun heq ⟨x, hx⟩
  · intro hspill
    funext i
    rcases Nat.lt_or_ge i.val sizeofKfsSuperblock with hlt | hge
    · exact h i.val hlt
    · exact hspill i.val hge i.isLt

theorem SameSpill.congr {m m' n n' : Mem} {sb : ℕ}
    (h : ∀ x, sizeofKfsSuperblock ≤ x → x < kfsSectorSize → n.get (sb + x) = m.get (sb + x))
    (h' : ∀ x, sizeofKfsSuperblock ≤ x → x < kfsSectorSize → n'.get (sb + x) = m'.get (sb + x)) :
    SameSpill n n' sb ↔ SameSpill m m' sb := by
  refine forall_congr' fun x => forall₂_congr fun hle hlt => ?_
  rw [h x hle hlt, h' x hle hlt]

theorem sector_zero_of_write {d d' : Drive} {m : Mem} {sb : ℕ} {r : ℤ} (hdisk : d.Honest)
    (h : ataWriteSectors d m 0 1 sb = some (r, d')) (hr : 0 ≤ r) :
    d'.sector 0 = sectorAt m sb := by
  obtain ⟨rfl, stored, hw⟩ := ataWriteSectors_some h
  have hgood := answer_one_nonneg.mp hr
  rw [passed_one, if_pos hgood] at hw
  exact hw.sector (0, sectorAt m sb) ((hw.mem_stored _).mpr ⟨0, Nat.one_pos, hdisk _ hgood, rfl⟩)

theorem kfsMount_inside_iff {M M' : Machine} {sb : ℕ} {r : ℤ}
    (h : kfsMount M sb = some (.ok (r, M'))) :
    (∀ a, OffSuperblock sb a → M'.mem.get a = M.mem.get a) ↔
      ∀ x, sizeofKfsSuperblock ≤ x → x < kfsSectorSize →
        (M.disk.sector 0).byte x = M.mem.get (sb + x) := by
  have hmem := (kfsMount_some h).1
  have hin : ∀ x < 512, M'.mem.get (sb + x) = (M.disk.sector 0).byte x := by
    intro x hx
    rw [hmem, Mem.get_blit_add _ _ _ (by decide) hx, Drive.byteAt_of_lt (by decide) hx]
  constructor
  · intro hframe x hle hlt
    rw [← hin x hlt]
    apply hframe
    rw [OffSuperblock, Mem.offset_add sb (hlt.trans (by decide))]
    exact hle
  · intro hsame a ha
    rcases Nat.lt_or_ge (Mem.offset sb a) 512 with hlt | hge
    · rw [← Mem.get_congr M'.mem (Mem.mod_add_offset sb a),
        ← Mem.get_congr M.mem (Mem.mod_add_offset sb a), hin _ hlt]
      exact hsame _ ha hlt
    · rw [hmem]
      exact Mem.get_blit_of_le _ _ (by decide) hge

theorem kfsMkfs_sector {M M' : Machine} {sb : ℕ} {r : ℤ} (hdisk : M.disk.Honest)
    (h : kfsMkfs M sb = some (r, M')) (hr : 0 ≤ r) :
    M'.disk.sector 0 = sectorAt M'.mem sb ∧
      (∀ x < sizeofKfsSuperblock, M'.mem.get (sb + x) = if x < 4 then leBytes kfsMagic x else 0#8) ∧
      ∀ x, sizeofKfsSuperblock ≤ x → x < kfsSectorSize →
        M'.mem.get (sb + x) = M.mem.get (sb + x) := by
  obtain ⟨⟨r', disk⟩, hwrite, h⟩ := Option.bind_eq_some_iff.mp h
  obtain ⟨rfl, rfl⟩ := Prod.mk.inj (Option.some_inj.mp h)
  refine ⟨sector_zero_of_write hdisk hwrite hr, fun x hx => ?_, fun x hle hlt => ?_⟩
  · have hoff : Mem.offset sb (sb + x) = x :=
      Mem.offset_add sb (hx.trans (by decide))
    by_cases h4 : x < 4
    · rw [if_pos h4]
      exact Mem.get_blit_add _ _ _ (by decide) h4
    · rw [if_neg h4]
      refine (Mem.get_store32_of_le _ _ (by omega)).trans ?_
      exact Mem.get_blit_add _ _ _ (by decide) hx
  · have hoff : Mem.offset sb (sb + x) = x :=
      Mem.offset_add sb (hlt.trans (by decide))
    unfold sizeofKfsSuperblock at hle
    refine (Mem.get_store32_of_le _ _ (by omega)).trans ?_
    exact Mem.get_blit_of_le _ _ (by decide) (by unfold sizeofKfsSuperblock; omega)

/-- The memory once `kfs_write` has counted the new file and copied its name. -/
def NameCopied (M : Machine) (sb name : ℕ) (m : Mem) : Prop :=
  strcpy (M.mem.store32 (sb + 4) (M.mem.load32 (sb + 4) + 1#32))
    (kfsFile sb (fileCount M.mem sb)) name = some m

theorem kfsWrite_superblock {M M' : Machine} {sb name data : ℕ} {size : BitVec 32} {r : ℤ}
    (hdisk : M.disk.Honest) (hcount : fileCount M.mem sb < kfsMaxFiles)
    (h : kfsWrite M sb name data size = some (r, M')) (hr : 0 ≤ r) :
    M'.disk.sector 0 = sectorAt M'.mem sb ∧ ∃ m, NameCopied M sb name m ∧
      ∀ x, sizeofKfsSuperblock ≤ x → x < kfsSectorSize →
        M'.mem.get (sb + x) = m.get (sb + x) := by
  rw [kfsWrite, if_neg (Nat.not_le_of_lt hcount)] at h
  obtain ⟨m, hcopy, h⟩ := Option.bind_eq_some_iff.mp h
  obtain ⟨⟨r', disk⟩, hdata, h⟩ := Option.bind_eq_some_iff.mp h
  obtain ⟨⟨r'', disk'⟩, hsuper, h⟩ := Option.bind_eq_some_iff.mp h
  obtain ⟨rfl, rfl⟩ := Prod.mk.inj (Option.some_inj.mp h)
  obtain ⟨-, stored, hw⟩ := ataWriteSectors_some hdata
  have hdisk' : disk.Honest := by
    intro n
    rw [hw.reply]
    exact hdisk n
  refine ⟨sector_zero_of_write hdisk' hsuper hr, m, hcopy, fun x hle hlt => ?_⟩
  have hk : fileCount M.mem sb < 8 := hcount
  have hoff (y : ℕ) (hy : y + 4 ≤ sizeofKfsFile) :
      4 ≤ Mem.offset (kfsFile sb (fileCount M.mem sb) + y) (sb + x) := by
    unfold sizeofKfsFile at hy
    unfold sizeofKfsSuperblock at hle
    unfold kfsSectorSize at hlt
    rw [kfsFile, Nat.add_assoc]
    refine Mem.le_offset_shift ?_ (by unfold sizeofKfsFile; omega)
    rw [Mem.offset_add sb (by omega)]
    unfold sizeofKfsFile
    omega
  exact (Mem.get_store32_of_le _ _ (hoff 32 (by decide))).trans
    (Mem.get_store32_of_le _ _ (hoff 36 (by decide)))

/-- A mount stays in the superblock, and two equal superblocks are stored as the same sector,
exactly when the bytes behind the superblock, as far as the sector reaches, make no difference. -/
theorem kfs_transfers_inside_iff (sb : ℕ) :
    (∀ M r M', kfsMount M sb = some (.ok (r, M')) →
      ((∀ a, OffSuperblock sb a → M'.mem.get a = M.mem.get a) ↔
        ∀ x, sizeofKfsSuperblock ≤ x → x < kfsSectorSize →
          (M.disk.sector 0).byte x = M.mem.get (sb + x))) ∧
    (∀ M₁ r₁ M₁' M₂ r₂ M₂', M₁.disk.Honest → M₂.disk.Honest →
      kfsMkfs M₁ sb = some (r₁, M₁') → kfsMkfs M₂ sb = some (r₂, M₂') → 0 ≤ r₁ → 0 ≤ r₂ →
      SameSuperblock M₁'.mem M₂'.mem sb ∧
        (M₁'.disk.sector 0 = M₂'.disk.sector 0 ↔ SameSpill M₁.mem M₂.mem sb)) ∧
    ∀ M₁ name₁ data₁ size₁ r₁ M₁' m₁ M₂ name₂ data₂ size₂ r₂ M₂' m₂,
      M₁.disk.Honest → M₂.disk.Honest → fileCount M₁.mem sb < kfsMaxFiles →
      fileCount M₂.mem sb < kfsMaxFiles → kfsWrite M₁ sb name₁ data₁ size₁ = some (r₁, M₁') →
      kfsWrite M₂ sb name₂ data₂ size₂ = some (r₂, M₂') → 0 ≤ r₁ → 0 ≤ r₂ →
      NameCopied M₁ sb name₁ m₁ → NameCopied M₂ sb name₂ m₂ →
      SameSuperblock M₁'.mem M₂'.mem sb →
      (M₁'.disk.sector 0 = M₂'.disk.sector 0 ↔ SameSpill m₁ m₂ sb) := by
  refine ⟨fun M r M' h => kfsMount_inside_iff h, ?_, ?_⟩
  · intro M₁ r₁ M₁' M₂ r₂ M₂' hd₁ hd₂ h₁ h₂ hr₁ hr₂
    obtain ⟨hs₁, hin₁, hout₁⟩ := kfsMkfs_sector hd₁ h₁ hr₁
    obtain ⟨hs₂, hin₂, hout₂⟩ := kfsMkfs_sector hd₂ h₂ hr₂
    have hsame : SameSuperblock M₁'.mem M₂'.mem sb := fun x hx => by rw [hin₁ x hx, hin₂ x hx]
    refine ⟨hsame, ?_⟩
    rw [hs₁, hs₂, sectorAt_eq_iff hsame]
    exact SameSpill.congr hout₁ hout₂
  · intro M₁ name₁ data₁ size₁ r₁ M₁' m₁ M₂ name₂ data₂ size₂ r₂ M₂' m₂ hd₁ hd₂ hc₁ hc₂ h₁ h₂
      hr₁ hr₂ hm₁ hm₂ hsame
    obtain ⟨hs₁, n₁, hn₁, hout₁⟩ := kfsWrite_superblock hd₁ hc₁ h₁ hr₁
    obtain ⟨hs₂, n₂, hn₂, hout₂⟩ := kfsWrite_superblock hd₂ hc₂ h₂ hr₂
    obtain rfl : n₁ = m₁ := Option.some_inj.mp (hn₁.symm.trans hm₁)
    obtain rfl : n₂ = m₂ := Option.some_inj.mp (hn₂.symm.trans hm₂)
    rw [hs₁, hs₂, sectorAt_eq_iff hsame]
    exact SameSpill.congr hout₁ hout₂

def busyMachine : Machine :=
  { demoMachine with
    mem := ⟨fun a =>
      if a = demoName then 0x61#8 else if a = demoName + 2 then 0x62#8 else 0#8, []⟩ }

def busyVolume : ℤ × Machine := (kfsMkfs busyMachine demoSuperblock).get (by decide +kernel)

theorem busyVolume_eq :
    kfsMkfs busyMachine demoSuperblock = some (busyVolume.1, busyVolume.2) := by
  rw [Prod.mk.eta]
  exact (Option.some_get _).symm

def SameBytes (m m' : Mem) (a n : ℕ) : Prop := ∀ t < n, m.get (a + t) = m'.get (a + t)

instance (m m' : Mem) (a n : ℕ) : Decidable (SameBytes m m' a n) :=
  inferInstanceAs (Decidable (∀ t < n, _))

theorem SameBytes.sameSpill {m m' : Mem} {sb : ℕ} (h : SameBytes m m' (sb + 328) 184) :
    SameSpill m m' sb := by
  intro x hle hlt
  obtain ⟨t, rfl⟩ : ∃ t, x = 328 + t := Nat.exists_eq_add_of_le hle
  rw [← Nat.add_assoc]
  exact h t (by unfold kfsSectorSize at hlt; omega)

theorem demoMkfs_pair : kfsMkfs demoMachine demoSuperblock = some (demoMkfs.1, demoVolume) := by
  rw [demoVolume, Prod.mk.eta, demoMkfs_eq]

theorem busyVolume_free : fileCount busyVolume.2.mem demoSuperblock < kfsMaxFiles := by
  decide +kernel

def nameCopied (M : Machine) : Option Mem :=
  strcpy (M.mem.store32 (demoSuperblock + 4) (M.mem.load32 (demoSuperblock + 4) + 1#32))
    (kfsFile demoSuperblock (fileCount M.mem demoSuperblock)) demoName

/-- The bytes of the spill are all zero here. -/
theorem spill_agrees :
    (∃ r M', kfsMount demoVolume demoSuperblock = some (.ok (r, M')) ∧
      ∀ a, OffSuperblock demoSuperblock a → M'.mem.get a = demoVolume.mem.get a) ∧
    demoVolume.disk.sector 0 = busyVolume.2.disk.sector 0 ∧
    ∃ r₁ M₁ r₂ M₂, kfsWrite demoVolume demoSuperblock demoName demoData 0#32 = some (r₁, M₁) ∧
      kfsWrite busyVolume.2 demoSuperblock demoName demoData 0#32 = some (r₂, M₂) ∧
      M₁.disk.sector 0 = M₂.disk.sector 0 := by
  obtain ⟨hmount, hmkfs, hwrite⟩ := kfs_transfers_inside_iff demoSuperblock
  have hd : demoVolume.disk.Honest := fun n _ => Reply.kept_of_taken (demoVolume_errorFree n)
  have hd' : busyVolume.2.disk.Honest := fun n _ =>
    Reply.kept_of_taken (kfsMkfs_errorFree busyVolume_eq (fun _ => rfl) n)
  refine ⟨?_, ?_, ?_⟩
  · have hrun : (kfsMount demoVolume demoSuperblock).map (fun x => x.toOption.isSome) =
        some true := by decide +kernel
    obtain ⟨x, hx, hok⟩ := Option.map_eq_some_iff.mp hrun
    cases x with
    | error e => cases hok
    | ok y =>
        have hsector := (kfsMkfs_sector (fun _ _ => rfl) demoMkfs_pair (by decide +kernel)).1
        refine ⟨y.1, y.2, hx, (hmount _ _ _ hx).mpr fun x hle hlt => ?_⟩
        rw [hsector, byte_sectorAt]
        exact congrArg _ (congrArg _ (Nat.mod_eq_of_lt hlt))
  · have hspill : SameBytes demoMachine.mem busyMachine.mem (demoSuperblock + 328) 184 := by
      decide +kernel
    exact (hmkfs _ _ _ _ _ _ (fun _ _ => rfl) (fun _ _ => rfl) demoMkfs_pair busyVolume_eq
      (by decide +kernel) (by decide +kernel)).2.mpr hspill.sameSpill
  · have hcopy : ((nameCopied demoVolume).bind fun m => (nameCopied busyVolume.2).map fun m' =>
        decide (SameBytes m m' (demoSuperblock + 328) 184)) = some true := by decide +kernel
    have hrun : ((kfsWrite demoVolume demoSuperblock demoName demoData 0#32).bind fun x =>
        (kfsWrite busyVolume.2 demoSuperblock demoName demoData 0#32).map fun y =>
          (x.1, y.1, decide (SameBytes x.2.mem y.2.mem demoSuperblock sizeofKfsSuperblock))) =
        some (1, 1, true) := by decide +kernel
    obtain ⟨m, hm, hcopy⟩ := Option.bind_eq_some_iff.mp hcopy
    obtain ⟨m', hm', hspill⟩ := Option.map_eq_some_iff.mp hcopy
    obtain ⟨⟨r₁, M₁⟩, h₁, hrun⟩ := Option.bind_eq_some_iff.mp hrun
    obtain ⟨⟨r₂, M₂⟩, h₂, hrun⟩ := Option.map_eq_some_iff.mp hrun
    obtain ⟨rfl, hrun⟩ := Prod.mk.inj hrun
    obtain ⟨rfl, hsame⟩ := Prod.mk.inj hrun
    have hsame' : SameBytes M₁.mem M₂.mem demoSuperblock sizeofKfsSuperblock :=
      of_decide_eq_true hsame
    have hspill' : SameSpill m m' demoSuperblock := (of_decide_eq_true hspill).sameSpill
    exact ⟨1, M₁, 1, M₂, h₁, h₂, (hwrite _ _ _ _ _ _ _ _ _ _ _ _ _ _ hd hd' demoVolume_free
      busyVolume_free h₁ h₂ (by decide) (by decide) hm hm' hsame').mpr hspill'⟩

/-- The name `a` lies at `demoName` and the byte `b` in the spill. -/
def spillMachine (b : Byte) : Machine :=
  { demoMachine with
    mem := ⟨fun a => if a = demoName then 0x61#8 else if a = demoSuperblock + 400 then b else 0#8,
      []⟩ }

def spillVolume (b : Byte) : Option (ℤ × Machine) := kfsMkfs (spillMachine b) demoSuperblock

/-- An empty file is created on the volume. -/
def spillFile (b : Byte) : Option (ℤ × Machine) := do
  let (_, M) ← spillVolume b
  kfsWrite M demoSuperblock demoName demoData 0#32

/-- The volume is mounted by a kernel with another byte in the spill. -/
def spillMount (b b' : Byte) : Option (Except KfsPanic (ℤ × Machine)) := do
  let (_, M) ← spillVolume b
  kfsMount { spillMachine b' with disk := M.disk } demoSuperblock

def Leaks (x y : ℤ × Machine) : Prop :=
  x.1 = 1 ∧ y.1 = 1 ∧ SameSuperblock x.2.mem y.2.mem demoSuperblock ∧
    (x.2.disk.sector 0).byte 400 ≠ (y.2.disk.sector 0).byte 400

instance (x y : ℤ × Machine) : Decidable (Leaks x y) :=
  inferInstanceAs (Decidable (_ ∧ _ ∧ (∀ t < _, _) ∧ _))

theorem leaks_of_run {f : Byte → Option (ℤ × Machine)}
    (h : ((f 0x11#8).bind fun x => (f 0x22#8).map fun y => decide (Leaks x y)) = some true) :
    ∃ x y, f 0x11#8 = some x ∧ f 0x22#8 = some y ∧ x.1 = 1 ∧ y.1 = 1 ∧
      SameSuperblock x.2.mem y.2.mem demoSuperblock ∧ x.2.disk.sector 0 ≠ y.2.disk.sector 0 := by
  obtain ⟨x, hx, h⟩ := Option.bind_eq_some_iff.mp h
  obtain ⟨y, hy, h⟩ := Option.map_eq_some_iff.mp h
  obtain ⟨hrx, hry, hsame, hne⟩ := of_decide_eq_true h
  exact ⟨x, y, hx, hy, hrx, hry, hsame, fun heq => hne (congrArg (Sector.byte · 400) heq)⟩

/-- A mount changes the spill, and the same superblock is stored as two different sectors, by
`kfs_mkfs` and by `kfs_write`. -/
theorem spill_differs :
    (∃ r M', spillMount 0x11#8 0x22#8 = some (.ok (r, M')) ∧
      OffSuperblock demoSuperblock (demoSuperblock + 400) ∧
      M'.mem.get (demoSuperblock + 400) ≠ (spillMachine 0x22#8).mem.get (demoSuperblock + 400)) ∧
    (∃ x y, spillVolume 0x11#8 = some x ∧ spillVolume 0x22#8 = some y ∧ x.1 = 1 ∧ y.1 = 1 ∧
      SameSuperblock x.2.mem y.2.mem demoSuperblock ∧ x.2.disk.sector 0 ≠ y.2.disk.sector 0) ∧
    ∃ x y, spillFile 0x11#8 = some x ∧ spillFile 0x22#8 = some y ∧ x.1 = 1 ∧ y.1 = 1 ∧
      SameSuperblock x.2.mem y.2.mem demoSuperblock ∧ x.2.disk.sector 0 ≠ y.2.disk.sector 0 := by
  refine ⟨?_, leaks_of_run (by decide +kernel), leaks_of_run (by decide +kernel)⟩
  have hrun : (spillMount 0x11#8 0x22#8).map (fun x => x.toOption.map fun y =>
      y.2.mem.get (demoSuperblock + 400)) = some (some 0x11#8) := by decide +kernel
  obtain ⟨x, hmount, hx⟩ := Option.map_eq_some_iff.mp hrun
  cases x with
  | error e => cases hx
  | ok y =>
      have hbyte : y.2.mem.get (demoSuperblock + 400) = 0x11#8 := Option.some_inj.mp hx
      refine ⟨y.1, y.2, hmount, (by decide : (328 : ℕ) ≤ 400), ?_⟩
      rw [hbyte]
      decide

end System44
