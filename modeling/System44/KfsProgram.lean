import System44.KfsHistory
import System44.PackUex
import System44.PmmLater
import System44.UexFile

/-!
# From the builder to the entry point

A program that `pack_uex.py` has packed is put on a volume, is found there under its name at any
later time and is loaded. What then lies in memory is the binary that was packed, with the gaps that
the transfer leaves if it needs more than two sectors, with zeros up to the end of its last page,
and the entry point is where it begins.
-/

namespace System44

def packedSize (data : List Byte) : ℕ := (data.length + 0xFFF) / 0x1000 * 0x1000

/-- The header that the builder puts before a binary. -/
def packedHdr (data : List Byte) (loadAddr : ℕ) : UexHdr :=
  ⟨uexMagic, BitVec.ofNat 32 loadAddr, BitVec.ofNat 32 loadAddr, BitVec.ofNat 32 data.length,
    BitVec.ofNat 32 (packedSize data), 0#32⟩

def UexHdr.reach (hdr : UexHdr) : ℕ :=
  max hdr.memSize.toNat (firstChunk + blockReach (uexSectors hdr))

/-- The directory is where neither the allocator nor the loader stores anything: its pages are
taken, or the program, with a place of its own, is apart from it. -/
def OutOfReach (M : Machine) (sb : ℕ) (hdr : UexHdr) : Prop :=
  if hdr.loadAddr = 0#32 then
    PmmBounds M.pmm ∧ hdr.reach ≤ hdr.pages * pageSize ∧ sb + sizeofKfsSuperblock ≤ 2 ^ 32 ∧
      ∀ x < sizeofKfsSuperblock, ¬ InBitmap M.pmm (sb + x) ∧
        (M.pmm.maxPages ≤ (sb + x) / pageSize ∨
          bitmapTest M.mem M.pmm ((sb + x) / pageSize) = true)
  else ∀ x < sizeofKfsSuperblock, hdr.reach ≤ Mem.offset hdr.loadAddr.toNat (sb + x)

/-- Where the program is put; 0 if there is no memory for it. -/
def programBase (M : Machine) (hdr : UexHdr) : ℕ := (uexDest M.mem M.pmm hdr).2.2

def placeOf (j : ℕ) : ℕ := if j < firstChunk then j else firstChunk + spread (j - firstChunk)

/-- The binary, with its gaps, and the zeros behind its length are in memory. -/
structure ProgramIn (m : Mem) (dest : ℕ) (data : List Byte) : Prop where
  image : ∀ j < data.length, placeOf j < data.length ∨ packedSize data ≤ placeOf j →
    m.get (dest + placeOf j) = data.getD j 0#8
  zeros : ∀ j, data.length ≤ j → j < packedSize data → m.get (dest + j) = 0#8

theorem placeOf_of_lt {j : ℕ} (hj : j < firstChunk + 512) : placeOf j = j := by
  unfold placeOf
  split
  · rfl
  · rw [spread_of_lt (by omega)]
    omega

theorem ProgramIn.get {m : Mem} {dest : ℕ} {data : List Byte} (h : ProgramIn m dest data)
    (hsize : data.length ≤ firstChunk + 512) {j : ℕ} (hj : j < data.length) :
    m.get (dest + j) = data.getD j 0#8 := by
  have hplace := placeOf_of_lt (hj.trans_le hsize)
  have himage := h.image j hj
  rw [hplace] at himage
  exact himage (Or.inl hj)

/-- What a load of the packed program leaves. -/
structure Launched (M : Machine) (data : List Byte) (loadAddr : ℕ) (x : UexExit) : Prop where
  result : x.result = errSuccess
  entry : x.entry = some (BitVec.ofNat 32 (programBase M (packedHdr data loadAddr)))
  program : ProgramIn x.machine.mem (programBase M (packedHdr data loadAddr)) data
  frame : ∀ a, (packedHdr data loadAddr).reach ≤
    Mem.offset (programBase M (packedHdr data loadAddr)) a →
      x.machine.mem.get a = (uexDest M.mem M.pmm (packedHdr data loadAddr)).1.get a

section

variable {data bytes : List Byte} {loadAddr : ℕ} (hpack : packUex data loadAddr = some bytes)

include hpack

theorem length_packUex : bytes.length = sizeofUexHdr + data.length := by
  rw [(packUex_some hpack).1, List.length_append]
  rfl

theorem getD_packUex (j : ℕ) : bytes.getD (sizeofUexHdr + j) 0#8 = data.getD j 0#8 := by
  have hlen : ((packedWords data loadAddr).flatMap wordBytes).length = sizeofUexHdr := rfl
  rw [(packUex_some hpack).1, List.getD_append_right _ _ _ _ (by omega), hlen,
    Nat.add_sub_cancel_left]

theorem packedSize_lt : packedSize data < 2 ^ 32 := (packUex_some hpack).2

theorem length_lt_of_packUex : data.length < 2 ^ 32 := by
  have hlt := packedSize_lt hpack
  unfold packedSize at hlt
  omega

theorem toNat_fileSize_packed : (packedHdr data loadAddr).fileSize.toNat = data.length :=
  Nat.mod_eq_of_lt (length_lt_of_packUex hpack)

theorem toNat_memSize_packed : (packedHdr data loadAddr).memSize.toNat = packedSize data :=
  Nat.mod_eq_of_lt (packedSize_lt hpack)

end

theorem chunk_le_reach (hdr : UexHdr) : min hdr.fileSize.toNat firstChunk ≤ hdr.reach := by
  unfold UexHdr.reach
  omega

theorem sectors_le_reach (hdr : UexHdr) :
    firstChunk + blockReach (uexSectors hdr % 2 ^ 8) ≤ hdr.reach := by
  have hle := blockReach_mono (Nat.mod_le (uexSectors hdr) (2 ^ 8))
  unfold UexHdr.reach
  omega

theorem memSize_le_reach (hdr : UexHdr) : hdr.memSize.toNat ≤ hdr.reach := Nat.le_max_left _ _

section

variable {M : Machine} {sb : ℕ} {hdr : UexHdr} (h : OutOfReach M sb hdr)

include h

theorem OutOfReach.get_uexDest {x : ℕ} (hx : x < sizeofKfsSuperblock) :
    (uexDest M.mem M.pmm hdr).1.get (sb + x) = M.mem.get (sb + x) := by
  unfold OutOfReach at h
  split at h
  · rename_i hload
    obtain ⟨hp, -, -, hout⟩ := h
    rw [uexDest_relocatable hload]
    exact get_pmmAlloc hp _ _ (hout x hx).1
  · rename_i hload
    rw [uexDest_fixed hload]

theorem OutOfReach.reach_le {x : ℕ} (hx : x < sizeofKfsSuperblock)
    (hne : (uexDest M.mem M.pmm hdr).2.2 ≠ 0) :
    hdr.reach ≤ Mem.offset (uexDest M.mem M.pmm hdr).2.2 (sb + x) := by
  unfold OutOfReach at h
  split at h
  · rename_i hload
    obtain ⟨hp, hreach, hsb, hout⟩ := h
    rw [uexDest_relocatable hload] at hne ⊢
    refine hreach.trans ?_
    have hwithheld : Withheld ((sb + x) / pageSize) M.mem M.pmm [] :=
      ⟨(hout x hx).2, fun b hb => absurd hb List.not_mem_nil⟩
    have hnot := hwithheld.not_handsOut hp hdr.pages
    obtain ⟨-, -, ⟨hnull, -⟩ | ⟨b, hptr, hle, -⟩⟩ := pmmAlloc_effect (m := M.mem) hp hdr.pages
    · exact absurd hnull hne
    · have hmax := hp.maxPages_lt
      have hend : (pmmAlloc M.mem M.pmm hdr.pages).2.2 + hdr.pages * pageSize ≤ 2 ^ 32 := by
        rw [hptr]
        unfold pageSize
        omega
      refine Mem.le_offset (by omega) ?_ hend
      by_contra hin
      exact hnot ⟨hne, by omega, by omega⟩
  · rename_i hload
    rw [uexDest_fixed hload]
    exact h x hx

end

section

variable {m : Mem} {hdr : UexHdr} {dest a t : ℕ} {bytes : ℕ → Byte}
  (ha : hdr.reach ≤ Mem.offset dest a)

include ha

theorem get_afterChunk_beyond : (afterChunk m hdr dest bytes).get a = m.get a := by
  have hsize := hdr.fileSize.isLt
  exact Mem.get_blit_of_le _ _ (by omega) ((chunk_le_reach hdr).trans ha)

theorem get_afterSectors_beyond :
    (afterSectors m dest (uexSectors hdr % 2 ^ 8) bytes).get a = m.get a := by
  have ht : uexSectors hdr % 2 ^ 8 < 2 ^ 8 := Nat.mod_lt _ (by decide)
  refine Mem.get_blitBlocks_of_le _ _ (blockReach_le_of_lt ht) (Mem.le_offset_shift (Or.inr ?_) ?_)
  · exact (sectors_le_reach hdr).trans ha
  · unfold firstChunk sizeofUexHdr blockReach
    omega

theorem get_afterZeros_beyond : (afterZeros m hdr dest).get a = m.get a := by
  have hmem := hdr.memSize.isLt
  have hle := (memSize_le_reach hdr).trans ha
  apply Mem.get_blit_of_le _ _ (by omega)
  rcases Nat.le_total hdr.memSize.toNat hdr.fileSize.toNat with hsize | hsize
  · rw [Nat.sub_eq_zero_of_le hsize]
    exact Nat.zero_le _
  · exact Mem.le_offset_shift (Or.inr (by omega)) (by omega)

end

theorem uexLoad_unwritten {m m' : Mem} {disk disk' : Drive} {sb i dest : ℕ} {hdr : UexHdr}
    {secbuf : Mem} {r : ℤ} (h : uexLoad m disk sb i hdr secbuf dest = some (r, disk', m')) :
    ∃ n, disk.Unwritten disk' n := by
  rw [uexLoad, copied_eq] at h
  obtain ⟨⟨r₁, disk₁, m₁⟩, htransfer, h⟩ := Option.bind_eq_some_iff.mp h
  have hunw : ∃ n, disk.Unwritten disk₁ n := by
    split at htransfer
    · obtain ⟨-, hunw, -⟩ := ataReadSectors_some htransfer
      exact ⟨_, hunw⟩
    · obtain rfl := (Prod.mk.inj (Prod.mk.inj (Option.some_inj.mp htransfer)).2).1
      exact ⟨_, .refl _⟩
  have hdisk : disk₁ = disk' := by
    dsimp only at h
    split at h
    · exact (Prod.mk.inj (Prod.mk.inj (Option.some_inj.mp h)).2).1
    · split at h
      · exact (Prod.mk.inj (Prod.mk.inj (Option.some_inj.mp h)).2).1
      · exact (Prod.mk.inj (Prod.mk.inj (Option.some_inj.mp h)).2).1
  exact hdisk ▸ hunw

theorem uexExec_unwritten {M : Machine} {sb name i : ℕ} {wanted : Bool} {x : UexExit}
    (hfind : kfsFind M.mem sb name = some (some i)) (h : uexExec M sb name wanted = some x) :
    ∃ n, M.disk.Unwritten x.machine.disk n := by
  rw [uexExec, hfind, Option.bind_eq_bind, Option.bind_some] at h
  dsimp only at h
  split at h
  · obtain rfl := Option.some_inj.mp h
    exact ⟨_, .refl _⟩
  · obtain ⟨⟨r, disk, secbuf⟩, hread, h⟩ := Option.bind_eq_some_iff.mp h
    obtain ⟨-, hunw, -⟩ := ataReadSectors_some hread
    dsimp only at h
    split at h
    · obtain rfl := Option.some_inj.mp h
      exact ⟨_, hunw⟩
    · split at h
      · obtain rfl := Option.some_inj.mp h
        exact ⟨_, hunw⟩
      · split at h
        · obtain rfl := Option.some_inj.mp h
          exact ⟨_, hunw⟩
        · obtain ⟨⟨r', disk', m'⟩, hload, h⟩ := Option.bind_eq_some_iff.mp h
          obtain ⟨n, hunw'⟩ := uexLoad_unwritten hload
          dsimp only at h
          split at h
          · obtain rfl := Option.some_inj.mp h
            exact ⟨n, hunw.trans hunw'⟩
          · obtain rfl := Option.some_inj.mp h
            exact ⟨n, hunw.trans hunw'⟩

section

variable {M : Machine} {sb name i : ℕ} {c : Files} {data bytes : List Byte} {loadAddr : ℕ}
  (h : Represents sb M c) (hi : i < c.items.length)

include h hi

theorem Represents.fileByte {x : ℕ} (hfits : ceilSectors c.items[i].data.length ≤ 255)
    (hx : x < c.items[i].data.length) : fileByte M sb i x = c.items[i].data.getD x 0#8 :=
  h.data i hi x hx (hx.trans_le (c.items[i].length_le_moved hfits))

variable (hpack : packUex data loadAddr = some c.items[i].data)

include hpack

theorem Represents.fileSize_packed :
    (fileSize M.mem sb i).toNat = sizeofUexHdr + data.length := by
  rw [(h.entry i hi).size, StoredFile.toNat_size, length_packUex hpack]

variable (hfits : ceilSectors c.items[i].data.length ≤ 255)

include hfits

theorem Represents.fileByte_packed {j : ℕ} (hj : j < data.length) :
    System44.fileByte M sb i (sizeofUexHdr + j) = data.getD j 0#8 := by
  have hlen := length_packUex hpack
  rw [h.fileByte hi hfits (by omega), getD_packUex hpack]

theorem Represents.fileHdr_packed : fileHdr M sb i = packedHdr data loadAddr := by
  have hlen := length_packUex hpack
  have hhead : fileHdr M sb i = uexHdr fun k => c.items[i].data.getD k 0#8 :=
    uexHdr_congr fun k hk => h.fileByte hi hfits (by omega)
  rw [hhead, uexHdr_packUex hpack]
  rfl

end

theorem uexSectors_packed {data bytes : List Byte} {loadAddr : ℕ}
    (hpack : packUex data loadAddr = some bytes) (hfits : ceilSectors bytes.length ≤ 255) :
    uexSectors (packedHdr data loadAddr) = (data.length - firstChunk + 511) / 512 ∧
      uexSectors (packedHdr data loadAddr) % 2 ^ 8 = (data.length - firstChunk + 511) / 512 := by
  have hlen := length_packUex hpack
  rw [ceilSectors, hlen] at hfits
  have hsectors : uexSectors (packedHdr data loadAddr) =
      (data.length - firstChunk + 511) / 512 := by
    rw [uexSectors, toNat_fileSize_packed hpack, BitVec.toNat_udiv, BitVec.toNat_add,
      BitVec.toNat_ofNat, show (511#32).toNat = 511 from rfl, show (512#32).toNat = 512 from rfl]
    unfold firstChunk sizeofUexHdr at *
    omega
  refine ⟨hsectors, ?_⟩
  rw [hsectors]
  unfold firstChunk sizeofUexHdr at *
  omega

theorem uexEntry_packed (M : Machine) (data : List Byte) (loadAddr : ℕ) :
    uexEntry (packedHdr data loadAddr) (programBase M (packedHdr data loadAddr)) =
      BitVec.ofNat 32 (programBase M (packedHdr data loadAddr)) := by
  rw [uexEntry, programBase]
  split
  · rename_i hload
    have hentry : (packedHdr data loadAddr).entry = 0#32 := hload
    rw [hentry, BitVec.add_zero]
  · rename_i hload
    rw [uexDest_fixed hload, BitVec.ofNat_toNat, BitVec.setWidth_eq]
    rfl

theorem programIn_stores (m : Mem) (dest : ℕ) {data bytes : List Byte} {loadAddr : ℕ}
    (hpack : packUex data loadAddr = some bytes) (hfits : ceilSectors bytes.length ≤ 255)
    (first rest : ℕ → Byte) (hfirst : ∀ j < data.length, first (sizeofUexHdr + j) = data.getD j 0#8)
    (hrest : ∀ j, rest j = first (512 + j)) :
    ProgramIn (afterZeros (afterSectors (afterChunk m (packedHdr data loadAddr) dest first) dest
      (uexSectors (packedHdr data loadAddr) % 2 ^ 8) rest) (packedHdr data loadAddr) dest)
      dest data := by
  have hfile := toNat_fileSize_packed hpack
  have hmem := toNat_memSize_packed hpack
  have hlen := length_lt_of_packUex hpack
  have ht : uexSectors (packedHdr data loadAddr) % 2 ^ 8 < 2 ^ 8 := Nat.mod_lt _ (by decide)
  have hsectors := (uexSectors_packed hpack hfits).2
  have hreach := blockReach_le_of_lt ht
  refine ⟨fun j hj hkeep => ?_, fun j hlo hhi => ?_⟩
  · rcases Nat.lt_or_ge j firstChunk with hchunk | hchunk
    · rw [placeOf, if_pos hchunk, get_afterZeros_of_lt _ _ _ (by omega),
        get_afterSectors_of _ _ _ ht (fun hle => absurd hchunk (Nat.not_lt.mpr hle)) (by omega),
        get_afterChunk _ _ _ _ (by omega) hchunk, hfirst j hj]
    · have hplace : placeOf j = firstChunk + spread (j - firstChunk) :=
        if_neg (Nat.not_lt.mpr hchunk)
      have hin : InBlock (uexSectors (packedHdr data loadAddr) % 2 ^ 8)
          (firstChunk + spread (j - firstChunk) - firstChunk) := by
        rw [Nat.add_sub_cancel_left, inBlock_spread, hsectors]
        omega
      have hlt := hin.lt_blockReach
      have hlt' : firstChunk + spread (j - firstChunk) < 2 ^ 32 := by
        unfold blockReach at hlt
        unfold firstChunk sizeofUexHdr at *
        omega
      have hpos : 512 + (j - firstChunk) = sizeofUexHdr + j := by
        unfold firstChunk sizeofUexHdr at *
        omega
      rw [hplace] at hkeep ⊢
      rw [get_afterZeros_of _ _ _ (by omega) hlt', get_afterSectors _ _ _ ht (by omega) hin,
        Nat.add_sub_cancel_left, gather_spread, hrest, hpos, hfirst j hj]
  · exact get_afterZeros _ _ _ (by omega) (by omega)

theorem Represents.uexExec_packed {M : Machine} {sb name i : ℕ} {c : Files} {data : List Byte}
    {loadAddr : ℕ} (h : Represents sb M c) (hi : i < c.items.length)
    (hpack : packUex data loadAddr = some c.items[i].data)
    (hfits : ceilSectors c.items[i].data.length ≤ 255)
    (hfind : kfsFind M.mem sb name = some (some i))
    (hout : OutOfReach M sb (packedHdr data loadAddr)) (wanted : Bool) :
    ∃ x n, uexExec M sb name wanted = some x ∧ M.disk.Unwritten x.machine.disk n ∧
      (∀ t < sizeofKfsSuperblock, x.machine.mem.get (sb + t) = M.mem.get (sb + t)) ∧
      if programBase M (packedHdr data loadAddr) = 0 then x.result = errOom
      else Launched M data loadAddr x := by
  obtain ⟨x, hx, hview⟩ := uexExec_view h.errorFree hfind wanted
  obtain ⟨n, hunw⟩ := uexExec_unwritten hfind hx
  have hhdr := h.fileHdr_packed hi hpack hfits
  have hsize : ¬ (fileSize M.mem sb i).toNat < sizeofUexHdr := by
    rw [h.fileSize_packed hi hpack]
    omega
  have hmagic : ¬ (packedHdr data loadAddr).magic ≠ uexMagic := fun hne => hne rfl
  have hfile : uexHdr (System44.fileByte M sb i) = packedHdr data loadAddr := hhdr
  rw [uexOutcome, hfile] at hview
  dsimp only at hview
  rw [if_neg hsize, if_neg hmagic] at hview
  refine ⟨x, n, hx, hunw, ?_⟩
  by_cases hdest : programBase M (packedHdr data loadAddr) = 0
  · rw [if_pos hdest]
    rw [programBase] at hdest
    rw [if_pos hdest] at hview
    obtain ⟨hresult, -, hmem⟩ := UexView.mk.inj hview
    refine ⟨fun t ht => ?_, hresult⟩
    rw [hmem]
    exact hout.get_uexDest ht
  · rw [if_neg hdest]
    have hcut : ¬ (packedHdr data loadAddr).Cut := by
      rintro ⟨hchunk, hnone⟩
      rw [toNat_fileSize_packed hpack] at hchunk
      rw [(uexSectors_packed hpack hfits).2] at hnone
      omega
    rw [programBase] at hdest
    rw [if_neg hdest, if_neg hcut] at hview
    obtain ⟨hresult, hentry, hmem⟩ := UexView.mk.inj hview
    have hreach : ∀ t < sizeofKfsSuperblock, (packedHdr data loadAddr).reach ≤
        Mem.offset (programBase M (packedHdr data loadAddr)) (sb + t) :=
      fun t ht => hout.reach_le ht hdest
    have hstart : startLba (afterChunk (uexDest M.mem M.pmm (packedHdr data loadAddr)).1
        (packedHdr data loadAddr) (programBase M (packedHdr data loadAddr))
        (System44.fileByte M sb i)) sb i = startLba M.mem sb i := by
      have hmax : c.items.length ≤ 8 := c.length_le
      refine Mem.load32_congr fun t ht => ?_
      rw [kfsFile, Nat.add_assoc, Nat.add_assoc]
      unfold sizeofKfsFile
      have hin : 8 + 40 * i + (32 + t) < sizeofKfsSuperblock := by
        unfold sizeofKfsSuperblock
        omega
      rw [get_afterChunk_beyond (hreach _ hin), hout.get_uexDest hin]
    rw [programBase] at hstart
    rw [hstart] at hmem
    have hframe : ∀ a, (packedHdr data loadAddr).reach ≤
        Mem.offset (programBase M (packedHdr data loadAddr)) a →
          x.machine.mem.get a = (uexDest M.mem M.pmm (packedHdr data loadAddr)).1.get a := by
      intro a ha
      rw [programBase] at ha
      rw [hmem, get_afterZeros_beyond ha, get_afterSectors_beyond ha, get_afterChunk_beyond ha]
    refine ⟨fun t ht => ?_, hresult, ?_, ?_, hframe⟩
    · rw [hframe _ (hreach t ht), hout.get_uexDest ht]
    · rw [hentry, ← uexEntry_packed]
      rfl
    · have hprogram := programIn_stores (uexDest M.mem M.pmm (packedHdr data loadAddr)).1
        (programBase M (packedHdr data loadAddr)) hpack hfits
        (System44.fileByte M sb i) (M.disk.byteAt (startLba M.mem sb i + 1#32).toNat)
        (fun j hj => h.fileByte_packed hi hpack hfits hj) fun j => byteAt_succ _ _ _
      exact ⟨fun j hj hkeep => (congrFun hmem _).trans (hprogram.image j hj hkeep),
        fun j hlo hhi => (congrFun hmem _).trans (hprogram.zeros j hlo hhi)⟩

def retFile : StoredFile :=
  { letterFile with
    data := (packUex [0xC3#8] 0x200000).getD []
    small := by
      unfold SmallSize
      decide +kernel }

theorem retFile_packed : packUex [0xC3#8] 0x200000 = some retFile.data := by decide +kernel

theorem retFile_outOfReach (M : Machine) :
    OutOfReach M demoSuperblock (packedHdr [0xC3#8] 0x200000) := by
  have hload : (packedHdr [0xC3#8] 0x200000).loadAddr ≠ 0#32 := by decide
  have hreach : (packedHdr [0xC3#8] 0x200000).reach = 0x1000 := by decide
  rw [OutOfReach, if_neg hload, hreach]
  intro x hx
  unfold sizeofKfsSuperblock at hx
  change 0x1000 ≤ Mem.offset 0x200000 (0x18000 + x)
  unfold Mem.offset
  omega

theorem exists_mount_image {M : Machine} {dir : List HostFile} {img : List Byte} (sb : ℕ)
    (hfree : M.disk.ErrorFree) (himg : genkfs dir = some img) (hholds : M.disk.Holds img) :
    ∃ M', kfsMount M sb = some (.ok (errSuccess, M')) := by
  have hof := genkfs_image himg
  have hfits := hof.fits
  apply kfsMount_ok hfree
  rw [← leWord_leBytes kfsMagic]
  refine leWord_congr fun i hi => ?_
  rw [hholds i (by omega), ← hof.magic i hi, Nat.zero_add]

end System44
