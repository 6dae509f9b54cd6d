import System44.Exec
import System44.KfsProgram
import System44.Printf
import System44.ShellEcho
import System44.TtyScreen

/-!
# The commands of the shell

What the shell does once it knows which command a line is. The line, the superblock, the buffer of
`cat` and the empty string lie in the memory of the machine; what is printed goes to the console.
Of a program that is run only what it does to the machine is here, not what it prints.
-/

namespace System44

/-- Where `chars`, `superblock`, `cat_buffer` and the string `""` are. -/
structure ShellPlace where
  chars : ℕ
  superblock : ℕ
  catBuffer : ℕ
  empty : ℕ

def maxCatSize : ℕ := 8192

def infoKernelVersion : List Byte := asciiBytes "2.10.0".toList

def helpText : List Byte := asciiBytes (String.toList <|
  "Available commands:\n" ++
  " version      - show kernel version\n" ++
  " ls           - list files in kfs\n" ++
  " cat <file>   - display file contents\n" ++
  " exec <file>  - execute UEX file\n" ++
  " clear        - clear the screen\n" ++
  " help         - show this help message\n" ++
  " touch <file> - create an empty file\n" ++
  " reboot       - reboot the system\n" ++
  " shutdown     - power off the system\n")

def catNotFound (name : List Byte) : List Byte :=
  asciiBytes "cat: ".toList ++ name ++ asciiBytes ": not found\n".toList

def catTooLarge : List Byte :=
  asciiBytes "cat: file too large (max ".toList ++ intNumeral maxCatSize ++
    asciiBytes " bytes)\n".toList

def kfsIoerr : List Byte := asciiBytes "kfs: ioerr\n".toList

def execFormatError : List Byte := asciiBytes "exec: format error\n".toList

def commandNotFound (name : List Byte) : List Byte :=
  name ++ asciiBytes ": command not found\n".toList

def lsLoop (m : Mem) (sb : ℕ) : ℕ → ℕ → Option (List Byte)
  | 0, _ => some []
  | n + 1, j => do
    let name ← cString m (kfsFile sb j)
    let rest ← lsLoop m sb n (j + 1)
    some (name ++ 0x0A#8 :: rest)

def shCat (P : ShellPlace) (M : Machine) : Option (List Byte × Machine) := do
  match ← kfsFind M.mem P.superblock (P.chars + 4) with
  | none =>
    let name ← printfString M.mem addressSpace (P.chars + 4)
    some (catNotFound name, M)
  | some i =>
    if maxCatSize < (fileSize M.mem P.superblock i).toNat then some (catTooLarge, M)
    else
      let (r, M) ← kfsRead M P.superblock (kfsFile P.superblock i) P.catBuffer
      if r < 0 then some (kfsIoerr, M)
      else
        let size := (fileSize M.mem P.superblock i).toNat
        some (bytesFrom M.mem P.catBuffer size ++ [0x0A#8], M)

/-- What a command prints and what it leaves; `reboot` and `shutdown` do not come back. -/
def shBuiltin (prog : Program) (P : ShellPlace) (M : Machine) :
    Builtin → Option (List Shown × Machine)
  | .version => some (shown (infoKernelVersion ++ [0x0A#8]), M)
  | .ls => do
    let names ← lsLoop M.mem P.superblock (fileCount M.mem P.superblock) 0
    some (shown names, M)
  | .clear => some ([.clear], M)
  | .touch => do
    let (_, M) ← kfsWrite M P.superblock (P.chars + 6) P.empty 0#32
    some ([], M)
  | .cat => do
    let (text, M) ← shCat P M
    some (shown text, M)
  | .exec => do
    let (r, M) ← exec prog M P.superblock (P.chars + 5)
    some (if r = errFormat then shown execFormatError else [], M)
  | .help => some (shown helpText, M)
  | .reboot => none
  | .shutdown => none

def shBranch (prog : Program) (P : ShellPlace) (M : Machine) :
    Branch → Option (List Shown × Machine)
  | .builtin b => shBuiltin prog P M b
  | .notFound => do
    let name ← printfString M.mem addressSpace P.chars
    some (shown (commandNotFound name), M)
  | .nothing => some ([], M)

/-- The machine and the console between two prompts. -/
structure Shell where
  machine : Machine
  tty : Tty

def shReadLine (font : Font) (chars : ℕ) : List Byte → Editor → Option Editor
  | [], _ => none
  | c :: keys, s =>
    match shKey font chars s c with
    | (true, s) => some s
    | (false, s) => shReadLine font chars keys s

/-- One round of `sh` on the keys of a line. `strtok` is given the line at each call, so what it
has kept from the last round does not matter. -/
def shRound (font : Font) (prog : Program) (P : ShellPlace) (s : Shell) (keys : List Byte) :
    Option Shell := do
  let prompt := shPrompt P.chars s.machine.mem (ttyPuts font s.tty [0x3E#8, 0x20#8])
  let e ← shReadLine font P.chars keys prompt
  let (branch, m) ← dispatch P.chars builtins e.mem none
  let (text, M) ← shBranch prog P { s.machine with mem := m } branch
  some ⟨M, text.foldl (Tty.show font) e.tty⟩

/-- The rounds for line after line. -/
def shRounds (font : Font) (prog : Program) (P : ShellPlace) (s : Shell)
    (lines : List (List Byte)) : Option Shell :=
  lines.foldlM (shRound font prog P) s

/-- What is echoed for the keys of a line with `i` characters. -/
def echoed : List Byte → ℕ → List Byte
  | [], _ => []
  | c :: keys, i =>
    if c = 8#8 then if 0 < i then 8#8 :: echoed keys (i - 1) else echoed keys i
    else if 127 ≤ i then []
    else if c = 10#8 then [10#8]
    else c :: echoed keys (i + 1)

theorem editLine_eq (font : Font) (chars : ℕ) (keys : List Byte) (s : Editor) :
    editLine chars keys s.mem s.i = (shReadLine font chars keys s).map Editor.mem := by
  induction keys generalizing s with
  | nil => rfl
  | cons c keys ih =>
      rw [editLine, shReadLine, shKey]
      by_cases hback : c = 8#8
      · rw [if_pos hback, if_pos hback]
        by_cases hi : 0 < s.i
        · rw [if_pos hi, if_pos hi]
          exact ih { s with i := s.i - 1, tty := ttyPutc font s.tty 8#8 }
        · rw [if_neg hi, if_neg hi]
          exact ih s
      · rw [if_neg hback, if_neg hback]
        by_cases hfull : 127 ≤ s.i
        · rw [if_pos hfull, if_pos hfull]
          rfl
        · rw [if_neg hfull, if_neg hfull]
          dsimp only
          by_cases henter : c = 10#8
          · rw [if_pos henter, if_pos henter]
            rfl
          · rw [if_neg henter, if_neg henter]
            exact ih ⟨s.mem.set (chars + s.i) c, s.i + 1, ttyPutc font s.tty c⟩

theorem shReadLine_tty {font : Font} {chars : ℕ} {keys : List Byte} {s e : Editor}
    (h : shReadLine font chars keys s = some e) :
    e.tty = ttyPuts font s.tty (echoed keys s.i) := by
  induction keys generalizing s with
  | nil => cases h
  | cons c keys ih =>
      rw [shReadLine, shKey] at h
      rw [echoed]
      by_cases hback : c = 8#8
      · rw [if_pos hback] at h ⊢
        by_cases hi : 0 < s.i
        · rw [if_pos hi] at h ⊢
          exact ih (s := { s with i := s.i - 1, tty := ttyPutc font s.tty 8#8 }) h
        · rw [if_neg hi] at h ⊢
          exact ih h
      · rw [if_neg hback] at h ⊢
        by_cases hfull : 127 ≤ s.i
        · rw [if_pos hfull] at h ⊢
          rw [← Option.some_inj.mp h]
          rfl
        · rw [if_neg hfull] at h ⊢
          dsimp only at h
          by_cases henter : c = 10#8
          · rw [if_pos henter] at h ⊢
            rw [← Option.some_inj.mp h, henter]
            rfl
          · rw [if_neg henter] at h ⊢
            exact ih (s := ⟨s.mem.set (chars + s.i) c, s.i + 1, ttyPutc font s.tty c⟩) h

theorem editLine_frame {chars a : ℕ} (ha : 128 ≤ Mem.offset chars a) {keys : List Byte} {m m' : Mem}
    {i : ℕ} (hi : i ≤ 127) (h : editLine chars keys m i = some m') : m'.get a = m.get a := by
  have hset (m : Mem) (v : Byte) {k : ℕ} (hk : k ≤ 127) :
      (m.set (chars + k) v).get a = m.get a := by
    apply Mem.get_set_of_ne
    intro he
    have ho := (Mem.offset_eq_iff chars a (i := k) (by omega)).mpr he
    omega
  induction keys generalizing m i with
  | nil => cases h
  | cons c keys ih =>
      rw [editLine] at h
      split at h
      · exact ih (by split <;> omega) h
      · split at h
        · rw [← Option.some_inj.mp h, hset _ _ hi]
        · dsimp only at h
          split at h
          · rw [← Option.some_inj.mp h, hset _ _ hi, hset _ _ hi]
          · rw [ih (by omega) h, hset _ _ hi]

theorem dispatch_token {chars : ℕ} {b : Builtin} {bs : List Builtin} {m m' : Mem}
    {text : List Byte} {next : Option ℕ} {branch : Branch} (h : Spells m chars text)
    (hd : dispatch chars (b :: bs) m next = some (branch, m')) :
    Spells m' chars (firstToken [0x20#8] text) := by
  induction bs generalizing b m text next with
  | nil =>
      obtain ⟨m₁, next₁, hstrtok, htoken, -⟩ := strtok_of_spells [0x20#8] h next
      rw [dispatch, hstrtok, Option.bind_eq_bind, Option.bind_some] at hd
      dsimp only at hd
      rw [Option.bind_eq_bind, Option.bind_some] at hd
      split at hd
      · obtain ⟨-, rfl⟩ := Prod.mk.inj (Option.some_inj.mp hd)
        exact htoken
      · obtain ⟨-, rfl⟩ := Prod.mk.inj (Option.some_inj.mp hd)
        exact htoken
  | cons b' bs ih =>
      obtain ⟨m₁, next₁, hstrtok, htoken, -⟩ := strtok_of_spells [0x20#8] h next
      rw [dispatch, hstrtok, Option.bind_eq_bind, Option.bind_some] at hd
      dsimp only at hd
      rw [Option.bind_eq_bind, Option.bind_some] at hd
      split at hd
      · obtain ⟨-, rfl⟩ := Prod.mk.inj (Option.some_inj.mp hd)
        exact htoken
      · have hrest := ih htoken hd
        rwa [firstToken_firstToken] at hrest

end System44
