import CobraOS.Ramfs.Calls

/-!
# The file commands of the shell, and the files of the editor

The commands of `arch/x86/kernel/shell.c` that name files, each with what it prints, and
`fs_read_file`, `fs_write_file` of the editor.  Arguments and paths are texts.  A session of the
editor `sn` is the list of what it does to files: it loads a file, and later loads others and saves.
What is printed over the editor's screen, from `editor_run` on, is left out.
-/

namespace CobraOS.Ramfs

open Base

/-- The file system and `shell_cwd`. -/
structure Shell where
  fs : Fs
  shellCwd : Option Nat

/-- `strrchr(path, '/')`: what stands before the last slash and after it. -/
def splitLast (path : Bytes) : Option (Bytes × Bytes) :=
  if slash ∈ path then
    some ((path.reverse.dropWhile (· != slash)).tail.reverse,
      (path.reverse.takeWhile (· != slash)).reverse)
  else none

/-! ### Commands that create -/

/-- Where `mkdir` and `touch` create something: `none` for a path that is too long. -/
def targetOf (sh : Shell) (args : Bytes) : Option (List Print × Option (Option Nat × Bytes)) :=
  match splitLast args with
  | none => some ([], some (sh.shellCwd, args))
  | some ([], name) => some ([], some (sh.fs.root, name))
  | some (dir, name) =>
    if 256 ≤ dir.length then some ([], none)
    else do
      let (printed, parent) ← ramfsResolve sh.fs dir
      some (printed, some (parent, name))

/-- The texts of a command that creates. -/
structure CreateTexts where
  usage : Bytes
  tooLong : Bytes
  noParent : Bytes
  notDirectory : Bytes
  noName : Bytes
  result : Int → Bytes

/-- What `mkdir` and `touch` have in common. -/
def createCommand (texts : CreateTexts) (type : Nat) (sh : Shell) (args : Bytes)
    (answer : Option Nat) :
    Option (Shell × List Print) :=
  if args = [] then some (sh, [.viprint texts.usage])
  else do
    let (printed, target) ← targetOf sh args
    match target with
    | none => some (sh, printed ++ [.viprint texts.tooLong])
    | some (none, _) => some (sh, printed ++ [.viprint texts.noParent])
    | some (some parent, name) => do
      let p ← sh.fs.nodes parent
      if !hasFlag p.type fsDirectory then some (sh, printed ++ [.viprint texts.notDirectory])
      else if name = [] then some (sh, printed ++ [.viprint texts.noName])
      else do
        let (ret, fs) ← ramfsCreate sh.fs (some parent) name type answer
        some ({ sh with fs := fs }, printed ++ [.viprint (texts.result ret)])

def mkdirTexts : CreateTexts where
  usage := text "Usage: mkdir <path>\n"
  tooLong := text "mkdir: path too long.\n"
  noParent := text "mkdir: parent directory not found.\n"
  notDirectory := text "mkdir: parent is not a directory.\n"
  noName := text "mkdir: missing directory name.\n"
  result ret :=
    if ret = 0 then text "Directory created.\n"
    else if ret = -2 then text "mkdir: already exists.\n"
    else text "mkdir: failed.\n"

def cmdMkdir (sh : Shell) (args : Bytes) (answer : Option Nat) : Option (Shell × List Print) :=
  createCommand mkdirTexts fsDirectory sh args answer

def touchTexts : CreateTexts where
  usage := text "Usage: touch <file>\n"
  tooLong := text "touch: path too long.\n"
  noParent := text "touch: parent directory not found.\n"
  notDirectory := text "touch: parent is not a directory.\n"
  noName := text "touch: missing file name.\n"
  result ret := if ret = 0 ∨ ret = -2 then [] else text "touch: failed to create file.\n"

def cmdTouch (sh : Shell) (args : Bytes) (answer : Option Nat) : Option (Shell × List Print) :=
  createCommand touchTexts fsFile sh args answer

/-! ### The other commands -/

def cmdRm (sh : Shell) (args : Bytes) : Option (Shell × List Print) :=
  if args = [] then some (sh, [say "Usage: rm <path>\n"])
  else do
    let (printed, node) ← ramfsResolve sh.fs args
    match node with
    | none => some (sh, printed ++ [say "rm: not found.\n"])
    | some node => do
      let (ret, fs) ← ramfsDelete sh.fs (some node)
      some ({ sh with fs := fs }, printed ++ [
        if ret = 0 then say "Removed.\n"
        else if ret = -2 then say "rm: directory not empty.\n"
        else say "rm: failed.\n"])

/-- Where `cd` goes, `new_cwd`. -/
def newCwd (sh : Shell) (args : Bytes) : Option (List Print × Option Nat) :=
  if args = [] ∨ args = [slash] then some ([], sh.fs.root) else ramfsResolve sh.fs args

def cmdCd (sh : Shell) (args : Bytes) : Option (Shell × List Print) := do
  let (printed, newCwd) ← newCwd sh args
  match newCwd with
  | none => some (sh, printed ++ [say "cd: directory not found.\n"])
  | some d => do
    let n ← sh.fs.nodes d
    if !hasFlag n.type fsDirectory then some (sh, printed ++ [say "cd: not a directory.\n"])
    else some (⟨ramfsSetCwd sh.fs (some d), some d⟩, printed)

/-- The loop of `ls` over the children. -/
def listChildren (fs : Fs) : Nat → Option Nat → Option (List Print)
  | _, none => some []
  | 0, some _ => none
  | fuel + 1, some c => do
    let n ← fs.nodes c
    let rest ← listChildren fs fuel n.next
    some (.viprint n.name :: (if hasFlag n.type fsDirectory then [say "/"] else []) ++ say
      "\n" :: rest)

/-- What `ls` lists, `dir`. -/
def listed (sh : Shell) (args : Bytes) : Option (List Print × Option Nat) :=
  if args = [] then some ([], sh.shellCwd) else ramfsResolve sh.fs args

def cmdLs (sh : Shell) (args : Bytes) : Option (Shell × List Print) := do
  let (printed, dir) ← listed sh args
  match dir with
  | none => some (sh, printed ++ [say "ls: directory not found.\n"])
  | some d => do
    let n ← sh.fs.nodes d
    if !hasFlag n.type fsDirectory then some (sh, printed ++ [say "ls: not a directory.\n"])
    else if n.children.isNone then some (sh, printed ++ [say "(empty)\n"])
    else do
      let names ← listChildren sh.fs nodeFuel n.children
      some (sh, printed ++ names)

/-- `while ((n = ramfs_read(file, sizeof(buf), buf)) > 0)`, with the bytes printed. -/
def catLoop : Nat → Fs → Nat → Option (Fs × Bytes)
  | 0, _, _ => none
  | fuel + 1, fs, f => do
    let (n, bytes, fs) ← ramfsRead fs (some f) 256
    if 0 < n then do
      let (fs, rest) ← catLoop fuel fs f
      some (fs, bytes ++ rest)
    else some (fs, [])

/-- The loop reads at most as often as there are bytes in a file. -/
def cmdCat (sh : Shell) (args : Bytes) (answer : Option Nat) : Option (Shell × List Print) :=
  if args = [] then some (sh, [say "Usage: cat <file>\n"])
  else do
    let (printed, node) ← ramfsResolve sh.fs args
    match node with
    | none => some (sh, printed ++ [say "cat: file not found.\n"])
    | some node => do
      let n ← sh.fs.nodes node
      if !hasFlag n.type fsFile then some (sh, printed ++ [say "cat: not a file.\n"])
      else do
        let (file, fs) ← ramfsOpen sh.fs (some node) oRead answer
        match file with
        | none => some ({ sh with fs := fs }, printed ++ [say "cat: failed to open file.\n"])
        | some f => do
          let (fs, bytes) ← catLoop nodeFuel fs f
          let fs ← ramfsClose fs (some f)
          some ({ sh with fs := fs }, printed ++ [.cprint bytes, say "\n"])

/-! ### The editor's files -/

/-- The bytes of the file; `none` for the result `-1`. -/
def fsReadFile (fs : Fs) (path : Bytes) (ok : Bool) : Option (List Print × Option Bytes) := do
  let intro := [say "fs_read_file: path=", .viprint path, say "\n"]
  let (printed, node) ← ramfsResolve fs path
  match node with
  | none => some (intro ++ printed ++ [say "Error: fs_read_file: node not found\n"], none)
  | some node => do
    let n ← fs.nodes node
    if !hasFlag n.type fsFile then
      some (intro ++ printed ++ [say "Error: fs_read_file: node is not a file\n"], none)
    else if !ok then some (intro ++ printed, none)
    else do
      let bytes ← readData fs n.data 0 n.size
      some (intro ++ printed, some bytes)

/-- Where `fs_write_file` creates a file: its directory and its name, `none` for a path that is too
long. -/
def writeTarget (path : Bytes) : Option (Bytes × Bytes) :=
  match splitLast path with
  | none => some ([slash], path.take vfsNameMax)
  | some ([], name) => some ([slash], name.take vfsNameMax)
  | some (dir, name) => if 256 ≤ path.length then none else some (dir, name.take vfsNameMax)

/-- The file at the path, which is created when there is none; `none` for the result `-1`. -/
def fileToWrite (fs : Fs) (path : Bytes) (answer : Option Nat) : Option (Option Nat × Fs) := do
  let (_, node) ← ramfsResolve fs path
  match node with
  | some node => some (some node, fs)
  | none =>
    match writeTarget path with
    | none => some (none, fs)
    | some (dir, name) => do
      let (_, parent) ← ramfsResolve fs dir
      match parent with
      | none => some (none, fs)
      | some parent => do
        let p ← fs.nodes parent
        if !hasFlag p.type fsDirectory then some (none, fs)
        else do
          let (ret, fs) ← ramfsCreate fs (some parent) name fsFile answer
          if ret ≠ 0 then some (none, fs)
          else do
            let node ← ramfsFind fs (some parent) name
            some (node, fs)

/-- `answer` is for a new node, `data` for the data. -/
def fsWriteFile (fs : Fs) (path buf : Bytes) (answer data : Option Nat) : Option (Int × Fs) := do
  let (node, fs) ← fileToWrite fs path answer
  match node with
  | none => some (-1, fs)
  | some node => do
    let n ← fs.nodes node
    if !hasFlag n.type fsFile then some (-1, fs)
    else do
      let fs ← fs.freeData n.data
      let n := if n.data.isSome then { n with data := none, size := 0 } else n
      let fs := fs.setNode node n
      if buf = [] then some (0, fs)
      else
        match fs.granted buf.length data with
        | none => some (-1, fs)
        | some d =>
          some (0, (fs.setBuffer d (some buf)).setNode node
            { n with data := some d, size := buf.length })

/-- `editor_load`: `filename` of the editor when the file has been loaded.  `read`, `parse` and
`name` are the answers for the buffer, the lines and the copy of the path. -/
def editorLoad (fs : Fs) (path : Bytes) (read parse name : Bool) :
    Option (List Print × Option (Option Bytes)) := do
  let (printed, bytes) ← fsReadFile fs path read
  match bytes with
  | none => some (printed ++ [say "Error: fs_read_file failed\n"], none)
  | some _ =>
    if parse then some (printed, some (if name then some path else none))
    else some (printed ++ [say "Error: editor_parse_buffer failed\n"], none)

/-- What a session of the editor does to files, with what `kmalloc` answers: it loads a file, and
saves the text it holds (`buf` is the answer for the buffer, `answer` for a new node, `data` for the
data). -/
inductive EditorCall
  | load (path : Bytes) (read parse name : Bool)
  | save (text : Bytes) (buf : Bool) (answer data : Option Nat)

/-- One call, with `ed->filename`.  What it prints while the editor has the screen is left out. -/
def editorCall (fs : Fs) (filename : Option Bytes) : EditorCall → Option (Fs × Option Bytes × Bool)
  | .load path read parse name => do
    let (_, loaded) ← editorLoad fs path read parse name
    match loaded with
    | some filename => some (fs, filename, true)
    | none => some (fs, filename, false)
  | .save text buf answer data =>
    match filename with
    | none => some (fs, filename, false)
    | some path =>
      if buf then do
        let (ret, fs) ← fsWriteFile fs path text answer data
        some (fs, filename, ret = 0)
      else some (fs, filename, false)

def editorCalls (fs : Fs) (filename : Option Bytes) : List EditorCall → Option Fs
  | [] => some fs
  | c :: cs => do
    let (fs, filename, _) ← editorCall fs filename c
    editorCalls fs filename cs

/-- The session is `calls`, after the file has been loaded. -/
def cmdSn (sh : Shell) (args : Bytes) (read parse name : Bool) (calls : List EditorCall) :
    Option (Shell × List Print) :=
  let args := args.dropWhile (· == 32)
  if args = [] then some (sh, [say "Usage: sn <file-name>\n"])
  else do
    let (printed, loaded) ← editorLoad sh.fs (args.take 127) read parse name
    match loaded with
    | some filename => do
      let fs ← editorCalls sh.fs filename calls
      some ({ sh with fs := fs }, .viprint args :: printed)
    | none => some (sh, .viprint args :: printed ++ [say "Error: could not open file\n"])

/-! ### Runs -/

inductive Op
  | mkdir (args : Bytes) (answer : Option Nat)
  | touch (args : Bytes) (answer : Option Nat)
  | rm (args : Bytes)
  | cd (args : Bytes)
  | ls (args : Bytes)
  | cat (args : Bytes) (answer : Option Nat)
  | sn (args : Bytes) (read parse name : Bool) (calls : List EditorCall)
  | call (c : Call)

def command (r : Option (Shell × List Print)) : Option Shell := r.map Prod.fst

def exec (sh : Shell) : Op → Option Shell
  | .mkdir args answer => command (cmdMkdir sh args answer)
  | .touch args answer => command (cmdTouch sh args answer)
  | .rm args => command (cmdRm sh args)
  | .cd args => command (cmdCd sh args)
  | .ls args => command (cmdLs sh args)
  | .cat args answer => command (cmdCat sh args answer)
  | .sn args read parse name calls => command (cmdSn sh args read parse name calls)
  | .call c => do
    let fs ← call sh.fs c
    some { sh with fs := fs }

/-- `shell_init`, after `ramfs_init` has been given memory for the root at the address `a`. -/
def boot (a : Nat) : Shell :=
  let fs := ramfsInit empty (some a)
  ⟨if fs.root.isSome then ramfsSetCwd fs fs.root else fs, fs.root⟩

/-- Calls are about live nodes and open files; there is no condition on commands. -/
def Passes (sh : Shell) : Op → Prop
  | .call c => Allowed sh.fs c
  | _ => True

/-- Every run of commands and calls. -/
def system : System Shell Op where
  init sh := ∃ a < 4294967296, sh = boot a
  step sh op sh' := Passes sh op ∧ exec sh op = some sh'

end CobraOS.Ramfs
