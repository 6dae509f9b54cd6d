import System44.ShellCommands

/-!
# A session with the shell

For its user the shell works on a catalogue of files: `touch` adds one, `ls` lists them and `cat`
shows the oldest of a name, with the gaps that the transfer leaves in its buffer. What is typed
determines what is on the screen and which files there are, and the kernel's memory and disk follow,
line after line.
-/

namespace System44

theorem ne_zero_of_all {name : List Byte} (h : (name.all fun b => b ≠ 0#8) = true) :
    ∀ b ∈ name, b ≠ 0#8 := by
  simpa using h

namespace Files

variable (c : Files)

/-- An empty file of that name, if it is a name. -/
def touch (name : List Byte) : Files :=
  if h : name.length ≤ 31 ∧ (name.all fun b => b ≠ 0#8) = true then
    c.add ⟨name, [], h.1, ne_zero_of_all h.2, smallSize_zero⟩
  else c

def ls : List Byte := c.items.flatMap fun f => f.name ++ [0x0A#8]

/-- What `cat` shows of a file: sector `k` lies 1024 * k bytes behind the start of the buffer, and
behind each sector nothing was ever stored. -/
def catShown (data : List Byte) : List Byte :=
  (List.range data.length).map fun o => if o % 1024 < 512 then data.getD (gather o) 0#8 else 0#8

/-- An empty file cannot be read. -/
def cat (name : List Byte) : List Byte :=
  match c.lookup StoredFile.name name with
  | none => catNotFound (expand name)
  | some f =>
    if maxCatSize < f.data.length then catTooLarge
    else if f.data = [] then kfsIoerr
    else catShown f.data ++ [0x0A#8]

/-- A file of one sector is shown as it is. -/
theorem catShown_eq {data : List Byte} (h : data.length ≤ 512) : catShown data = data := by
  apply List.ext_getElem
  · rw [catShown, List.length_map, List.length_range]
  · intro o ho ho'
    simp only [catShown, List.getElem_map, List.getElem_range]
    rw [if_pos (by omega), gather_of_lt (by omega), List.getD_eq_getElem _ _ ho']

/-- There is no file of that name, or it is too large to be shown or small enough for the buffer. -/
def CatFits (name : List Byte) : Prop :=
  ∀ f, c.lookup StoredFile.name name = some f →
    blockReach (ceilSectors f.data.length) ≤ maxCatSize ∨ maxCatSize < f.data.length

theorem catFits_of_items (h : ∀ f ∈ c.items, f.data.length ≤ 4096) (name : List Byte) :
    c.CatFits name := by
  intro f hlookup
  obtain ⟨i, hi, rfl, -⟩ := Catalog.lookup_eq_some_iff.mp hlookup
  have hle := h _ (List.getElem_mem hi)
  left
  unfold blockReach ceilSectors maxCatSize
  omega

def NotProgram (name : List Byte) : Prop :=
  ∀ f, c.lookup StoredFile.name name = some f → f.data.length < sizeofUexHdr ∨
    f.moved ≠ 0 ∧ (leWord fun i => f.data.getD i 0#8) ≠ uexMagic

/-- What is printed for a line and the files there are then. -/
def run (token arg : List Byte) : Branch → List Shown × Files
  | .builtin .version => (shown (infoKernelVersion ++ [0x0A#8]), c)
  | .builtin .ls => (shown c.ls, c)
  | .builtin .clear => ([.clear], c)
  | .builtin .touch => ([], c.touch arg)
  | .builtin .cat => (shown (c.cat arg), c)
  | .builtin .exec => (shown execFormatError, c)
  | .builtin .help => (shown helpText, c)
  | .builtin .reboot => ([], c)
  | .builtin .shutdown => ([], c)
  | .notFound => (shown (commandNotFound (expand token)), c)
  | .nothing => ([], c)

end Files

/-- The line, the superblock and the buffer of `cat` are apart. -/
structure ShellPlace.Apart (P : ShellPlace) : Prop where
  line : ∀ x < sizeofKfsSuperblock, 128 ≤ Mem.offset P.chars (P.superblock + x)
  buffer : ∀ x < sizeofKfsSuperblock, maxCatSize ≤ Mem.offset P.catBuffer (P.superblock + x)
  lineBuffer : ∀ o < maxCatSize, 128 ≤ Mem.offset P.chars (P.catBuffer + o)

theorem ShellPlace.Apart.offset_line {P : ShellPlace} (h : P.Apart) {t : ℕ} (ht : t < 128) :
    sizeofKfsSuperblock ≤ Mem.offset P.superblock (P.chars + t) := by
  by_contra hlt
  have hmod := Mem.mod_add_offset P.superblock (P.chars + t)
  have hline := h.line _ (not_le.mp hlt)
  rw [Mem.offset_congr P.chars hmod, Mem.offset_add P.chars (by omega)] at hline
  omega

theorem ShellPlace.Apart.offset_buffer {P : ShellPlace} (h : P.Apart) {o : ℕ}
    (ho : o < maxCatSize) :
    sizeofKfsSuperblock ≤ Mem.offset P.superblock (P.catBuffer + o) := by
  by_contra hlt
  have hmod := Mem.mod_add_offset P.superblock (P.catBuffer + o)
  have hbuffer := h.buffer _ (not_le.mp hlt)
  unfold maxCatSize at *
  rw [Mem.offset_congr P.catBuffer hmod, Mem.offset_add P.catBuffer (by omega)] at hbuffer
  omega

def ShellPlace.GapsClear (P : ShellPlace) (m : Mem) : Prop :=
  ∀ o < maxCatSize, 512 ≤ o % 1024 → m.get (P.catBuffer + o) = 0#8

theorem ShellPlace.GapsClear.congr {P : ShellPlace} {m m' : Mem} (h : P.GapsClear m)
    (hm : ∀ o < maxCatSize, 512 ≤ o % 1024 →
      m'.get (P.catBuffer + o) = m.get (P.catBuffer + o)) : P.GapsClear m' := by
  intro o ho hgap
  rw [hm o ho hgap, h o ho hgap]

/-- A machine at a prompt: its volume has the files, and `cat` finds the gaps clear. -/
structure ShellAt (P : ShellPlace) (M : Machine) (c : Files) : Prop where
  run : KfsRun P.superblock ⟨M, c⟩
  gaps : P.GapsClear M.mem

/-- What the line in memory tells a command. -/
structure LineRead (m : Mem) (chars : ℕ) (token arg : List Byte) (branch : Branch) : Prop where
  tokenAt : Spells m chars token
  argAt : ∀ b offset, branch = .builtin b → b.argument = some offset → Spells m (chars + offset) arg
  short : arg.length ≤ 126

section

variable {P : ShellPlace} {M : Machine} {c : Files} {token arg : List Byte} {V : Volume}

theorem lsLoop_of_represents (h : Represents P.superblock M c) {n j : ℕ}
    (hn : j + n = c.items.length) : lsLoop M.mem P.superblock n j =
      some ((c.items.drop j).flatMap fun f => f.name ++ [0x0A#8]) := by
  induction n generalizing j with
  | zero =>
      rw [List.drop_of_length_le (by omega)]
      rfl
  | succ n ih =>
      have hj : j < c.items.length := by omega
      have hname := cString_of_spells (h.entry j hj).name
      rw [lsLoop, hname, Option.bind_eq_bind, Option.bind_some, ih (by omega), Option.bind_some,
        List.drop_eq_getElem_cons hj, List.flatMap_cons, List.append_assoc]
      rfl

theorem fileSize_congr {m m' : Mem} {sb i : ℕ}
    (h : ∀ x < sizeofKfsSuperblock, m'.get (sb + x) = m.get (sb + x)) (hi : i < kfsMaxFiles) :
    fileSize m' sb i = fileSize m sb i := by
  have hmax : i < 8 := hi
  refine Mem.load32_congr fun t ht => ?_
  rw [kfsFile, Nat.add_assoc, Nat.add_assoc]
  unfold sizeofKfsFile
  exact h _ (by unfold sizeofKfsSuperblock; omega)

theorem ShellPlace.Apart.kept_of_blocks (hplace : P.Apart) {m m' : Mem} {n : ℕ}
    (hroom : blockReach n ≤ maxCatSize)
    (hframe : ∀ a, ¬ InBlock n (Mem.offset P.catBuffer a) → m'.get a = m.get a) :
    (∀ x < sizeofKfsSuperblock, m'.get (P.superblock + x) = m.get (P.superblock + x)) ∧
      ∀ o < maxCatSize, 512 ≤ o % 1024 →
        m'.get (P.catBuffer + o) = m.get (P.catBuffer + o) := by
  constructor
  · intro x hx
    apply hframe
    intro hin
    exact absurd (hin.lt_blockReach.trans_le hroom) (Nat.not_lt.mpr (hplace.buffer x hx))
  · intro o ho hgap
    have hoffset : Mem.offset P.catBuffer (P.catBuffer + o) = o :=
      Mem.offset_add _ (ho.trans (by decide))
    apply hframe
    rw [hoffset]
    intro hin
    exact absurd hin.1 (Nat.not_lt.mpr hgap)

theorem bytesFrom_catShown {m m' : Mem} {data : List Byte} (hgaps : P.GapsClear m)
    (hlarge : data.length ≤ maxCatSize)
    (hbytes : ∀ x < data.length, m'.get (P.catBuffer + spread x) = data.getD x 0#8)
    (hframe : ∀ o < maxCatSize, 512 ≤ o % 1024 →
      m'.get (P.catBuffer + o) = m.get (P.catBuffer + o)) :
    bytesFrom m' P.catBuffer data.length = Files.catShown data := by
  apply List.map_congr_left
  intro o ho
  have hlt := List.mem_range.mp ho
  by_cases hgap : o % 1024 < 512
  · have hspread : spread (gather o) = o := spread_gather (n := o + 1) ⟨hgap, by omega⟩
    rw [if_pos hgap, ← hbytes (gather o) ((gather_le o).trans_lt hlt), hspread]
  · have hge : 512 ≤ o % 1024 := Nat.le_of_not_lt hgap
    rw [if_neg hgap, hframe o (hlt.trans_le hlarge) hge, hgaps o (hlt.trans_le hlarge) hge]

theorem shCat_of_represents (hplace : P.Apart) (h : Represents P.superblock M c)
    (hgaps : P.GapsClear M.mem) (harg : Spells M.mem (P.chars + 4) arg) (hfits : c.CatFits arg) :
    ∃ M' n, shCat P M = some (c.cat arg, M') ∧ M.disk.Unwritten M'.disk n ∧
      P.GapsClear M'.mem ∧
      ∀ x < sizeofKfsSuperblock, M'.mem.get (P.superblock + x) = M.mem.get (P.superblock + x) := by
  rw [shCat, Files.cat]
  cases hlookup : c.lookup StoredFile.name arg with
  | none =>
      rw [h.kfsFind_none harg hlookup, Option.bind_eq_bind, Option.bind_some]
      dsimp only
      rw [printfString_of_spells harg harg.length_lt]
      exact ⟨M, _, rfl, .refl _, hgaps, fun _ _ => rfl⟩
  | some f =>
      obtain ⟨i, hi, rfl, hfind⟩ := h.kfsFind_some harg hlookup
      have hsize : (fileSize M.mem P.superblock i).toNat = c.items[i].data.length := by
        rw [(h.entry i hi).size, StoredFile.toNat_size]
      rw [hfind, Option.bind_eq_bind, Option.bind_some]
      dsimp only
      rw [hsize]
      by_cases hlarge : maxCatSize < c.items[i].data.length
      · rw [if_pos hlarge, if_pos hlarge]
        exact ⟨M, _, rfl, .refl _, hgaps, fun _ _ => rfl⟩
      · have hentry : Spells M.mem (kfsFile P.superblock i) arg :=
          Catalog.key_of_lookup hlookup ▸ (h.entry i hi).name
        obtain ⟨M', n, hread, hunw, -, hbytes, hframe⟩ :=
          h.kfsRead_some hentry hlookup P.catBuffer
        have hsectors : ceilSectors c.items[i].data.length ≤ 255 := by
          unfold maxCatSize at hlarge
          unfold ceilSectors
          omega
        have hmoved := c.items[i].moved_eq hsectors
        obtain ⟨hsuper, hkept⟩ := hplace.kept_of_blocks
          (hmoved ▸ (hfits _ hlookup).resolve_right hlarge) hframe
        rw [if_neg hlarge, if_neg hlarge, hread, Option.bind_eq_bind, Option.bind_some]
        dsimp only
        by_cases hempty : c.items[i].data = []
        · have hneg : c.items[i].answer < 0 := by
            rw [StoredFile.answer, hmoved, hempty]
            decide
          rw [if_pos hneg, if_pos hempty]
          exact ⟨M', n, rfl, hunw, hgaps.congr hkept, hsuper⟩
        · have hpos : c.items[i].data.length ≠ 0 := fun h0 =>
            hempty (List.length_eq_zero_iff.mp h0)
          have hanswer : ¬ c.items[i].answer < 0 := by
            rw [StoredFile.answer, if_neg]
            · omega
            · rw [hmoved, ceilSectors]
              omega
          have hsize' : fileSize M'.mem P.superblock i = fileSize M.mem P.superblock i :=
            fileSize_congr hsuper (hi.trans_le c.length_le)
          have hshown := bytesFrom_catShown hgaps (not_lt.mp hlarge) (fun x hx =>
            hbytes x hx (hx.trans_le (c.items[i].length_le_moved hsectors))) hkept
          rw [if_neg hanswer, if_neg hempty, hsize', hsize, hshown]
          exact ⟨M', n, rfl, hunw, hgaps.congr hkept, hsuper⟩

theorem touch_of_represents (hplace : P.Apart) (h : Represents P.superblock M c)
    (hgaps : P.GapsClear M.mem) (harg : Spells M.mem (P.chars + 6) arg) (hshort : arg.length ≤ 31) :
    ∃ r M', kfsWrite M P.superblock (P.chars + 6) P.empty 0#32 = some (r, M') ∧
      P.GapsClear M'.mem ∧ KfsWork P.superblock ⟨M, c⟩ ⟨M', c.touch arg⟩ := by
  have hname : arg.length ≤ 31 ∧ (arg.all fun b => b ≠ 0#8) = true :=
    ⟨hshort, by simpa using harg.ne_zero⟩
  rw [Files.touch, dif_pos hname]
  have hargs : WriteArgs M.mem P.superblock (P.chars + 6) P.empty
      ⟨arg, [], hshort, harg.ne_zero, smallSize_zero⟩ :=
    ⟨harg, fun hroom i hi => by
      rw [Nat.add_assoc]
      have hi' : i ≤ arg.length := hi
      exact offSlot_of_apart hroom (hplace.offset_line (by omega)),
      fun x hx => absurd hx (Nat.not_lt_zero x), fun _ x hx => absurd hx (Nat.not_lt_zero x)⟩
  obtain ⟨r, M', hw⟩ := exists_kfsWrite P.empty 0#32 h.errorFree hargs.nameAt
  refine ⟨r, M', hw, ?_, .write hargs hw⟩
  rcases Nat.lt_or_ge (fileCount M.mem P.superblock) kfsMaxFiles with hroom | hfull
  · have hentered := (kfsWrite_entered hroom (hargs.nameAt hroom) hw).1
    apply hgaps.congr
    intro o ho _
    exact hentered.frame _ (offSlot_of_apart hroom (hplace.offset_buffer ho))
  · obtain ⟨-, rfl⟩ := kfsWrite_full hfull hw
    exact hgaps

theorem exec_notProgram (prog : Program) {sb name : ℕ} (h : Represents sb M c)
    (hname : Spells M.mem name arg) (hnot : c.NotProgram arg) :
    ∃ M' n, exec prog M sb name = some (errFormat, M') ∧ M.disk.Unwritten M'.disk n ∧
      ∀ a, M'.mem.get a = M.mem.get a := by
  rw [exec, execWith]
  cases hlookup : c.lookup StoredFile.name arg with
  | none =>
      have hload : uexExec M sb name true = some ⟨errNotFound, M, none, none⟩ := by
        rw [uexExec, h.kfsFind_none hname hlookup]
        rfl
      rw [hload]
      exact ⟨M, _, rfl, .refl _, fun _ => rfl⟩
  | some f =>
      obtain ⟨i, hi, rfl, hfind⟩ := h.kfsFind_some hname hlookup
      have hsize : (fileSize M.mem sb i).toNat = c.items[i].data.length := by
        rw [(h.entry i hi).size, StoredFile.toNat_size]
      obtain ⟨x, hx, hview⟩ := uexExec_view h.errorFree hfind true
      obtain ⟨n, hunw⟩ := uexExec_unwritten hfind hx
      have hformat : x.view = ⟨errFormat, none, M.mem.get⟩ := by
        rw [hview, uexOutcome, hsize]
        dsimp only
        by_cases hshort : c.items[i].data.length < sizeofUexHdr
        · rw [if_pos hshort]
        · obtain ⟨hmoved, hmagic⟩ := (hnot _ hlookup).resolve_left hshort
          have hbytes : (uexHdr (fileByte M sb i)).magic ≠ uexMagic := by
            refine fun heq => hmagic (Eq.trans (leWord_congr fun k hk => ?_) heq)
            unfold sizeofUexHdr at hshort
            exact (h.data i hi k (by omega) (by omega)).symm
          rw [if_neg hshort, if_pos hbytes]
      obtain ⟨hresult, -, hmem⟩ := UexView.mk.inj hformat
      have hne : ¬ x.result = 0 := by
        rw [hresult]
        decide
      rw [hx, Option.bind_eq_bind, Option.bind_some, if_neg hne]
      exact ⟨x.machine, n, rfl, hunw, congrFun hmem⟩

/-- A command that can be carried out: `touch` has a name that fits, `cat` a file for which the
buffer is large enough, and `exec` no program. -/
def Files.Allows (c : Files) (arg : List Byte) : Branch → Prop
  | .builtin .touch => arg.length ≤ 31
  | .builtin .cat => c.CatFits arg
  | .builtin .exec => c.NotProgram arg
  | .builtin .reboot => False
  | .builtin .shutdown => False
  | _ => True

theorem shBranch_works (prog : Program) (hplace : P.Apart) {branch : Branch}
    (hrep : Represents P.superblock M c) (hgaps : P.GapsClear M.mem)
    (hline : LineRead M.mem P.chars token arg branch) (hallowed : c.Allows arg branch) :
    ∃ M', shBranch prog P M branch = some ((c.run token arg branch).1, M') ∧
      P.GapsClear M'.mem ∧ KfsWork P.superblock ⟨M, c⟩ ⟨M', (c.run token arg branch).2⟩ := by
  have hidle : KfsWork P.superblock ⟨M, c⟩ ⟨M, c⟩ := .elsewhere (fun _ _ => rfl) (.refl _)
  cases branch with
  | nothing => exact ⟨M, rfl, hgaps, hidle⟩
  | notFound =>
      refine ⟨M, ?_, hgaps, hidle⟩
      rw [shBranch, printfString_of_spells hline.tokenAt hline.tokenAt.length_lt]
      rfl
  | builtin b =>
      cases b with
      | version => exact ⟨M, by rw [shBranch, shBuiltin, Files.run], hgaps, hidle⟩
      | clear => exact ⟨M, rfl, hgaps, hidle⟩
      | help => exact ⟨M, by rw [shBranch, shBuiltin, Files.run], hgaps, hidle⟩
      | reboot => exact hallowed.elim
      | shutdown => exact hallowed.elim
      | ls =>
          refine ⟨M, ?_, hgaps, hidle⟩
          have hls := lsLoop_of_represents (j := 0) hrep (Nat.zero_add _)
          rw [shBranch, shBuiltin, hrep.count, hls]
          rfl
      | touch =>
          obtain ⟨r, M', hw, hgaps', hwork⟩ :=
            touch_of_represents hplace hrep hgaps (hline.argAt _ _ rfl rfl) hallowed
          refine ⟨M', ?_, hgaps', hwork⟩
          rw [shBranch, shBuiltin, hw]
          rfl
      | cat =>
          obtain ⟨M', n, hcat, hunw, hgaps', hsuper⟩ :=
            shCat_of_represents hplace hrep hgaps (hline.argAt _ _ rfl rfl) hallowed
          refine ⟨M', ?_, hgaps', .elsewhere hsuper hunw⟩
          rw [shBranch, shBuiltin, hcat]
          rfl
      | exec =>
          obtain ⟨M', n, hexec, hunw, hmem⟩ :=
            exec_notProgram prog hrep (hline.argAt _ _ rfl rfl) hallowed
          refine ⟨M', ?_, hgaps.congr fun _ _ _ => hmem _, .elsewhere (fun _ _ => hmem _) hunw⟩
          rw [shBranch, shBuiltin, hexec]
          rfl

end

def tokenOf (keys : List Byte) : List Byte := firstToken [0x20#8] (pending keys).text

def argOf (keys : List Byte) : List Byte :=
  argumentOf (pending keys).text (pending keys).erased.tail

def commandOf (keys : List Byte) : Branch := branchOf builtins (tokenOf keys)

namespace Files

/-- The prompt, the echo and what the command prints, and the files there are then. -/
def line (c : Files) (keys : List Byte) : List Shown × Files :=
  (shown ([0x3E#8, 0x20#8] ++ echoed (keys ++ [10#8]) 0) ++
    (c.run (tokenOf keys) (argOf keys) (commandOf keys)).1,
    (c.run (tokenOf keys) (argOf keys) (commandOf keys)).2)

def session (c : Files) : List (List Byte) → List Shown × Files
  | [] => ([], c)
  | keys :: lines =>
    ((c.line keys).1 ++ ((c.line keys).2.session lines).1, ((c.line keys).2.session lines).2)

/-- Every line fits, and at its turn its command can be carried out. -/
def Accepts (c : Files) : List (List Byte) → Prop
  | [] => True
  | keys :: lines => Typed ⟨[], []⟩ keys ∧ c.Allows (argOf keys) (commandOf keys) ∧
    (c.line keys).2.Accepts lines

end Files

section

variable {P : ShellPlace} {s : Shell} {c : Files}

theorem lineRead_of_typed (font : Font) (chars : ℕ) (m : Mem) (t : Tty) {keys : List Byte}
    (hkeys : Typed ⟨[], []⟩ keys) :
    ∃ e m', shReadLine font chars (keys ++ [10#8]) (shPrompt chars m t) = some e ∧
      e.tty = ttyPuts font t (echoed (keys ++ [10#8]) 0) ∧
      dispatch chars builtins e.mem none = some (commandOf keys, m') ∧
      LineRead m' chars (tokenOf keys) (argOf keys) (commandOf keys) ∧
      ∀ a, 128 ≤ Mem.offset chars a → m'.get a = m.get a := by
  obtain ⟨m₁, hedit, hended⟩ := editLine_typed (edited_nil m chars) hkeys
  obtain ⟨e, hread, rfl⟩ := Option.map_eq_some_iff.mp
    ((editLine_eq font chars _ (shPrompt chars m t)).symm.trans hedit)
  have htty := shReadLine_tty hread
  obtain ⟨m', hd, hkeep⟩ := dispatch_of_spells builtins hended.text
    (fun hnil => absurd hnil (by decide)) none
  have hlen : ((pending keys).text ++ (pending keys).erased).length ≤ 126 := hended.length_le
  rw [List.length_append] at hlen
  refine ⟨e, m', hread, htty, hd,
    ⟨dispatch_token hended.text hd, fun b offset hb hoffset => ?_, ?_⟩, fun a ha => ?_⟩
  · have hname : tokenOf keys = b.name := name_of_branchOf hb
    rw [argument_eq hoffset, ← hname]
    exact spells_argumentOf hended hkeep
  · have hle := argumentOf_length_le (pending keys).text (pending keys).erased.tail
    rw [List.length_tail] at hle
    exact hle.trans (by omega)
  · have htoken := firstToken_length_le [0x20#8] (pending keys).text
    have hspace : addressSpace = 2 ^ 32 := rfl
    have hoffset := Mem.offset_lt chars a
    have hmod : m'.get a = e.mem.get a := by
      rw [← m'.get_congr (Mem.mod_add_offset chars _), ←
        e.mem.get_congr (Mem.mod_add_offset chars _)]
      refine hkeep _ (by omega) ?_
      change _ ≠ (firstToken [0x20#8] (pending keys).text).length
      omega
    rw [hmod, editLine_frame ha (Nat.zero_le _) hedit]
    exact Mem.get_blit_of_le _ _ (by decide) ha

/-- What is stored in the line does not matter to the files, nor to `cat`. -/
theorem ShellAt.congr {M : Machine} {m : Mem} (hplace : P.Apart) (h : ShellAt P M c)
    (hm : ∀ a, 128 ≤ Mem.offset P.chars a → m.get a = M.mem.get a) :
    ShellAt P { M with mem := m } c := by
  refine ⟨h.run.work (.elsewhere (fun x hx => hm _ (hplace.line x hx)) (Drive.Unwritten.refl _)),
    h.gaps.congr fun o ho _ => ?_⟩
  exact hm _ (hplace.lineBuffer o ho)

/-- A round reads the line and then does what the command does; the disk waits for that. -/
theorem shRound_works (font : Font) (prog : Program) (hplace : P.Apart)
    (h : ShellAt P s.machine c) {keys : List Byte} (hkeys : Typed ⟨[], []⟩ keys)
    (hallowed : c.Allows (argOf keys) (commandOf keys)) :
    ∃ M s', shRound font prog P s (keys ++ [10#8]) = some s' ∧ M.disk = s.machine.disk ∧
      ShellAt P M c ∧ P.GapsClear s'.machine.mem ∧
      KfsWork P.superblock ⟨M, c⟩ ⟨s'.machine, (c.line keys).2⟩ ∧
      s'.tty = (c.line keys).1.foldl (Tty.show font) s.tty := by
  obtain ⟨e, m', hread, htty, hd, hline, hframe⟩ :=
    lineRead_of_typed font P.chars s.machine.mem (ttyPuts font s.tty [0x3E#8, 0x20#8]) hkeys
  have hat := h.congr hplace hframe
  obtain ⟨M', hbranch, hgaps, hwork⟩ :=
    shBranch_works prog hplace (kfsRun_represents hat.run) hat.gaps hline hallowed
  refine ⟨{ s.machine with mem := m' },
    ⟨M', (c.run (tokenOf keys) (argOf keys) (commandOf keys)).1.foldl (Tty.show font) e.tty⟩,
    ?_, rfl, hat, hgaps, hwork, ?_⟩
  · rw [shRound]
    dsimp only
    rw [hread, Option.bind_eq_bind, Option.bind_some, hd, Option.bind_eq_bind, Option.bind_some]
    dsimp only
    rw [hbranch]
    rfl
  · rw [Files.line, List.foldl_append, foldl_shown, ttyPuts, List.foldl_append, htty]
    rfl

theorem shRound_refines (font : Font) (prog : Program) (hplace : P.Apart)
    (h : ShellAt P s.machine c) {keys : List Byte} (hkeys : Typed ⟨[], []⟩ keys)
    (hallowed : c.Allows (argOf keys) (commandOf keys)) :
    ∃ s', shRound font prog P s (keys ++ [10#8]) = some s' ∧
      ShellAt P s'.machine (c.line keys).2 ∧
      s'.tty = (c.line keys).1.foldl (Tty.show font) s.tty := by
  obtain ⟨M, s', hround, -, hat, hgaps, hwork, htty⟩ :=
    shRound_works font prog hplace h hkeys hallowed
  exact ⟨s', hround, ⟨hat.run.work hwork, hgaps⟩, htty⟩

theorem shRounds_cons {font : Font} {prog : Program} {s₁ : Shell} {keys : List Byte}
    (hround : shRound font prog P s (keys ++ [10#8]) = some s₁) (lines : List (List Byte)) :
    shRounds font prog P s ((keys :: lines).map (· ++ [10#8])) =
      shRounds font prog P s₁ (lines.map (· ++ [10#8])) := by
  rw [shRounds, List.map_cons, List.foldlM_cons, hround]
  rfl

theorem exists_shRounds (font : Font) (prog : Program) (hplace : P.Apart)
    (h : ShellAt P s.machine c) {lines : List (List Byte)} (hlines : c.Accepts lines) :
    ∃ s', shRounds font prog P s (lines.map (· ++ [10#8])) = some s' ∧
      ShellAt P s'.machine (c.session lines).2 ∧
      s'.tty = (c.session lines).1.foldl (Tty.show font) s.tty := by
  induction lines generalizing s c with
  | nil => exact ⟨s, rfl, h, rfl⟩
  | cons keys lines ih =>
      obtain ⟨hkeys, hallowed, hlines⟩ := hlines
      obtain ⟨s₁, hround, hrun, htty⟩ := shRound_refines font prog hplace h hkeys hallowed
      obtain ⟨s', hrounds, hrun', htty'⟩ := ih hrun hlines
      refine ⟨s', ?_, hrun', ?_⟩
      · rwa [shRounds_cons hround]
      · rw [htty', htty, Files.session, List.foldl_append]

theorem Files.le_run (c : Files) (token arg : List Byte) (branch : Branch) :
    c ≤ (c.run token arg branch).2 := by
  rcases branch with b | - | -
  · cases b
    case touch =>
        change c ≤ c.touch arg
        unfold touch
        split
        · exact Catalog.le_add c _
        · exact le_refl c
    all_goals exact le_refl c
  · exact le_refl c
  · exact le_refl c

theorem Files.le_session (c : Files) (lines : List (List Byte)) : c ≤ (c.session lines).2 := by
  induction lines generalizing c with
  | nil => exact le_refl c
  | cons keys lines ih => exact (c.le_run _ _ _).trans (ih _)

/-- What is typed determines what is on the screen and which files there are, and the machine
follows: at every prompt it stands for the files, and none of them is ever lost. -/
theorem shRounds_refines (font : Font) (prog : Program) (hplace : P.Apart)
    (h : ShellAt P s.machine c) {lines : List (List Byte)} (hlines : c.Accepts lines) :
    c ≤ (c.session lines).2 ∧ ∃ s', shRounds font prog P s (lines.map (· ++ [10#8])) = some s' ∧
      ShellAt P s'.machine (c.session lines).2 ∧
      s'.tty = (c.session lines).1.foldl (Tty.show font) s.tty :=
  ⟨c.le_session lines, exists_shRounds font prog hplace h hlines⟩

end

def demoPlace : ShellPlace := ⟨0x40000, demoSuperblock, 0x50000, 0x60000⟩

theorem demoPlace_apart : demoPlace.Apart := by
  refine ⟨fun x hx => ?_, fun x hx => ?_, fun o ho => ?_⟩
  · change 128 ≤ Mem.offset 0x40000 (0x18000 + x)
    unfold Mem.offset
    unfold sizeofKfsSuperblock at hx
    omega
  · change maxCatSize ≤ Mem.offset 0x50000 (0x18000 + x)
    unfold Mem.offset maxCatSize
    unfold sizeofKfsSuperblock at hx
    omega
  · change 128 ≤ Mem.offset 0x40000 (0x50000 + o)
    unfold Mem.offset
    unfold maxCatSize at ho
    omega

def demoLines : List (List Byte) :=
  ["touch a", "ls", "cat a", "cat b"].map fun line => asciiBytes line.toList

def demoShell : Shell := ⟨demoVolume, ttyInit mode118 Fb.boot 0x7E00⟩

theorem kfsMkfs_frame {M M' : Machine} {sb a : ℕ} {r : ℤ} (h : kfsMkfs M sb = some (r, M'))
    (ha : sizeofKfsSuperblock ≤ Mem.offset sb a) : M'.mem.get a = M.mem.get a := by
  obtain ⟨⟨r', disk⟩, -, h⟩ := Option.bind_eq_some_iff.mp h
  obtain ⟨-, rfl⟩ := Prod.mk.inj (Option.some_inj.mp h)
  have hword : 4 ≤ Mem.offset sb a := le_trans (by decide) ha
  change ((M.mem.blit sb sizeofKfsSuperblock fun _ => 0#8).store32 sb kfsMagic).get a = _
  rw [Mem.get_store32_of_le _ _ hword, Mem.get_blit_of_le _ _ (by decide) ha]

theorem demoShell_at : ShellAt demoPlace demoShell.machine Catalog.empty := by
  refine ⟨demoVolume_run, fun o ho _ => ?_⟩
  have hframe := kfsMkfs_frame demoMkfs_eq (demoPlace_apart.offset_buffer ho)
  refine Eq.trans hframe (if_neg ?_)
  change ¬ (0x50000 + o) % 2 ^ 32 = 0x20000
  unfold maxCatSize at ho
  omega

theorem demoLines_session : (Files.session Catalog.empty demoLines).1 = shown (asciiBytes
    "> touch a\n> ls\na\n> cat a\nkfs: ioerr\n> cat b\ncat: b: not found\n".toList) := by
  decide +kernel

theorem demoLines_accepted : Files.Accepts Catalog.empty demoLines := by
  have htyped : ∀ keys ∈ demoLines, Typed ⟨[], []⟩ keys := by
    intro keys hkeys
    apply typed_of_inits
    · revert keys
      decide
    · revert keys
      decide +kernel
  refine ⟨htyped _ (by decide), ?_, htyped _ (by decide), ?_, htyped _ (by decide), ?_,
    htyped _ (by decide), ?_, trivial⟩
  · have hcommand : commandOf (asciiBytes "touch a".toList) = .builtin .touch := by decide +kernel
    rw [hcommand]
    change (argOf (asciiBytes "touch a".toList)).length ≤ 31
    decide +kernel
  · have hcommand : commandOf (asciiBytes "ls".toList) = .builtin .ls := by decide +kernel
    rw [hcommand]
    trivial
  · have hcommand : commandOf (asciiBytes "cat a".toList) = .builtin .cat := by decide +kernel
    rw [hcommand]
    apply Files.catFits_of_items
    decide +kernel
  · have hcommand : commandOf (asciiBytes "cat b".toList) = .builtin .cat := by decide +kernel
    rw [hcommand]
    apply Files.catFits_of_items
    decide +kernel

theorem demoLines_shown : ∃ s',
    shRounds blockFont (fun _ _ _ => none) demoPlace demoShell (demoLines.map (· ++ [10#8])) =
      some s' ∧ s'.tty = ttyPuts blockFont demoShell.tty (asciiBytes
        "> touch a\n> ls\na\n> cat a\nkfs: ioerr\n> cat b\ncat: b: not found\n".toList) := by
  obtain ⟨-, s', hrounds, -, htty⟩ := shRounds_refines (s := demoShell) blockFont
    (fun _ _ _ => none) demoPlace_apart demoShell_at demoLines_accepted
  rw [demoLines_session, foldl_shown] at htty
  exact ⟨s', hrounds, htty⟩

end System44
