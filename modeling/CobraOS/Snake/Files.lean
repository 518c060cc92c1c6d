import CobraOS.Ramfs.Shell
import CobraOS.Snake.Session

/-!
# The editor and its files, `arch/x86/snake/snake.c`

`editor_load`, `editor_save` and what they call.  They work on the file system of `Ramfs`, whose
buffers are not blocks of the editor.  A path is a text without its zero byte.
-/

namespace CobraOS.Snake

open Base
open Ramfs (Fs Bytes)

/-- `'\r'` -/
def carriageReturn : UInt8 := 13

/-- A string, with its zero byte, that is not on the heap. -/
def stringBlock (s : Bytes) : Block UInt8 := ⟨0, s.map some ++ [some 0]⟩

/-- `my_strdup` -/
def myStrdup (s : Bytes) : Alloc (Option (Block UInt8)) := do
  let copy ← kmalloc 1 (s.length + 1)
  match copy with
  | none => pure none
  | some copy => do
    let copy ← copy.copy 0 (stringBlock s) 0 (s.length + 1)
    pure (some copy)

/-- The string that a buffer holds. -/
def stringOf (b : Block UInt8) : Option Bytes :=
  if some 0 ∈ b.cells then (b.cells.takeWhile (· != some 0)).mapM id else none

/-- The first `n` items of a buffer. -/
def bytesOf (b : Block UInt8) (n : Nat) : Option Bytes :=
  if n ≤ b.cells.length then (b.cells.take n).mapM id else none

/-! ### Loading -/

/-- `if (file_size > 0 && node->data) memcpy(*buf, node->data, file_size);` -/
def readInto (fs : Fs) (n : Ramfs.VfsNode) (buf : Block UInt8) : Option (Block UInt8) :=
  match n.data with
  | none => some buf
  | some d =>
    if 0 < n.size then do
      let bytes ← fs.buffers d
      buf.copy 0 ⟨d, bytes.map some⟩ 0 n.size
    else some buf

/-- The buffer and its length, `none` for the result `-1`. -/
def fsReadFile (fs : Fs) (path : Bytes) : Alloc (Option (Block UInt8 × Nat)) := do
  let (_, node) ← Ramfs.ramfsResolve fs path
  match node with
  | none => pure none
  | some node => do
    let n ← fs.nodes node
    if !Ramfs.hasFlag n.type Ramfs.fsFile then pure none
    else do
      let buf ← kmalloc 1 (n.size + 1)
      match buf with
      | none => pure none
      | some buf => do
        let buf ← readInto fs n buf
        let buf ← buf.set n.size 0
        pure (some (buf, n.size))

/-- `if (ed->lines) { for (...) kfree(ed->lines[i].data); kfree(ed->lines); }` -/
def freeText (ed : Editor) : Alloc Unit := do
  match ed.lines with
  | none => pure ()
  | some lines => do
    freeLines lines ed.numLines 0
    kfree (some lines)

/-- `if (stack) { undo_stack_clear(stack, &top); kfree(stack); stack = NULL; }` -/
def freeStack (stack : Option (Block EditorState)) (top : Int) : Alloc Int := do
  match stack with
  | none => pure top
  | some stack => do
    let (stack, top) ← undoStackClear (some stack) top
    kfree stack
    pure top

def editorFree (ed : Editor) : Alloc Editor := do
  freeText ed
  kfree ed.filename
  let undoTop ← freeStack ed.undoStack ed.undoTop
  let redoTop ← freeStack ed.redoStack ed.redoTop
  pure ⟨none, 0, 0, 0, 0, 0, none, false, false, none, undoTop, none, redoTop⟩

/-- `len > 0 && buf[len - 1] == '\n'` -/
def endsWithNewline (buf : Block UInt8) (len : Nat) : Option Bool :=
  if 0 < len then (buf.get (len - 1)).map (· == newlineChar) else some false

/-- `i == end || buf[i] == '\n'` -/
def atLineEnd (buf : Block UInt8) (stop i : Nat) : Option Bool :=
  if i = stop then some true else (buf.get i).map (· == newlineChar)

/-- The length of the line from `start` to `i`.  The character that is compared with `'\r'` is that
of the buffer, not of the line. -/
def lineLength (buf : Block UInt8) (start i : Nat) : Option Nat :=
  if 0 < i - start then
    (buf.get (i - start - 1)).map (fun c => if c = carriageReturn then i - start - 1 else i - start)
  else some (i - start)

/-- `if (ed->lines) { memcpy(new_lines, ed->lines, ...); kfree(ed->lines); }` -/
def moveLines (ed : Editor) (newLines : Block Line) : Alloc (Block Line) := do
  match ed.lines with
  | none => pure newLines
  | some lines => do
    let newLines ← newLines.copy 0 lines 0 ed.numLines
    kfree (some lines)
    pure newLines

/-- One more line, from `start` on.  The source sets its `data` also when it is null, but does not
count the line then. -/
def addLine (ed : Editor) (buf : Block UInt8) (start len : Nat) : Alloc (Bool × Editor) := do
  let newLines ← kmalloc lineSize ((ed.numLines + 1) * lineSize)
  match newLines with
  | none => pure (false, ed)
  | some newLines => do
    let newLines ← moveLines ed newLines
    let data ← kmalloc 1 (len + 1)
    match data with
    | none => pure (false, { ed with lines := some newLines })
    | some data => do
      let data ← data.copy 0 buf start len
      let data ← data.set len 0
      let newLines ← newLines.set ed.numLines ⟨some data, len, len + 1⟩
      pure (true, { ed with lines := some newLines, numLines := ed.numLines + 1 })

/-- The loop of `editor_parse_buffer`, with the number of rounds left, from `i` on. -/
def parseLines (buf : Block UInt8) (stop : Nat) : Nat → Nat → Nat → Editor → Alloc (Bool × Editor)
  | 0, _, _, ed => pure (true, ed)
  | n + 1, i, start, ed => do
    let ends ← atLineEnd buf stop i
    if ends then do
      let len ← lineLength buf start i
      let (ok, ed) ← addLine ed buf start len
      if ok then parseLines buf stop n (i + 1) (i + 1) ed else pure (false, ed)
    else parseLines buf stop n (i + 1) start ed

/-- One empty line. -/
def oneLine (ed : Editor) : Alloc (Bool × Editor) := do
  let lines : Option (Block Line) ← kmalloc lineSize lineSize
  match lines with
  | none => pure (false, { ed with lines := none })
  | some lines => do
    let data ← kmalloc 1 1
    match data with
    | none => do
      kfree (some lines)
      pure (false, { ed with lines := none })
    | some data => do
      let data ← data.set 0 0
      let lines ← lines.set 0 ⟨some data, 0, 1⟩
      pure (true, { ed with lines := some lines, numLines := 1 })

/-- `if (ed->num_lines == 0) { ... }` -/
def orOneLine (ed : Editor) : Alloc (Bool × Editor) :=
  if ed.numLines = 0 then oneLine ed else pure (true, ed)

def editorParseBuffer (ed : Editor) (buf : Block UInt8) (len : Nat) (fileEndsWithNewline : Bool) :
    Alloc (Bool × Editor) := do
  let ends ← endsWithNewline buf len
  let stop := if ends then len - 1 else len
  let (ok, ed) ← parseLines buf stop (stop + 1) 0 0 { ed with numLines := 0, lines := none }
  if ok then do
    let (ok, ed) ← orOneLine ed
    pure (ok, if ok then { ed with fileEndsWithNewline := fileEndsWithNewline } else ed)
  else pure (false, ed)

/-- `unset` is what was in the memory of `new_ed`. -/
def editorLoad (ed unset : Editor) (fs : Fs) (path : Bytes) : Alloc (Bool × Editor) := do
  let file ← fsReadFile fs path
  match file with
  | none => pure (false, ed)
  | some (buf, len) => do
    let newEd ← editorInit unset
    let ends ← endsWithNewline buf len
    let (ok, newEd) ← editorParseBuffer newEd buf len ends
    kfree (some buf)
    if ok then do
      let _ ← editorFree ed
      let filename ← myStrdup path
      pure (true, { newEd with filename := filename, modified := false })
    else do
      let _ ← editorFree newEd
      pure (false, ed)

/-! ### Saving -/

/-- `total += ed->lines[i].len + 1` with the number of lines left, from line `i` on. -/
def totalLength (lines : Block Line) : Nat → Nat → Nat → Option Nat
  | 0, _, total => some total
  | n + 1, i, total => do
    let line ← lines.get i
    totalLength lines n (i + 1) ((total + line.len + 1) % 4294967296)

/-- The sum over all lines. -/
def textLength (ed : Editor) : Option Nat :=
  match ed.lines with
  | none => if ed.numLines = 0 then some 0 else none
  | some lines => totalLength lines ed.numLines 0 0

/-- The size of the text in the file. -/
def fileLength (ed : Editor) : Option Nat := do
  let total ← textLength ed
  some (if ed.fileEndsWithNewline then total else wsub total 1)

/-- `if (i < ed->num_lines - 1 || ed->file_ends_with_newline) buf[pos++] = '\n';` -/
def writeNewline (ed : Editor) (i pos : Nat) (buf : Block UInt8) : Option (Block UInt8 × Nat) :=
  if i < wsub ed.numLines 1 ∨ ed.fileEndsWithNewline then do
    let buf ← buf.set pos newlineChar
    some (buf, pos + 1)
  else some (buf, pos)

/-- The loop that fills the buffer at `pos`, with the number of lines left, from line `i` on. -/
def writeLines (ed : Editor) (lines : Block Line) : Nat → Nat → Nat → Block UInt8 →
    Option (Block UInt8 × Nat)
  | 0, _, pos, buf => some (buf, pos)
  | n + 1, i, pos, buf => do
    let line ← lines.get i
    let data ← line.data
    let buf ← buf.copy pos data 0 line.len
    let (buf, pos) ← writeNewline ed i (pos + line.len) buf
    writeLines ed lines n (i + 1) pos buf

/-- The loop over all lines. -/
def textInto (ed : Editor) (buf : Block UInt8) : Option (Block UInt8 × Nat) :=
  match ed.lines with
  | none => if ed.numLines = 0 then some (buf, 0) else none
  | some lines => writeLines ed lines ed.numLines 0 0 buf

/-- The buffer with the text, and `pos`. -/
def fileText (ed : Editor) (buf : Block UInt8) : Option (Block UInt8 × Nat) := do
  let (buf, pos) ← textInto ed buf
  let buf ← buf.set pos 0
  some (buf, pos)

/-- `answer` and `data` are what the heap answers in `fs_write_file`. -/
def editorSave (ed : Editor) (fs : Fs) (answer data : Option Nat) : Alloc (Bool × Editor × Fs) := do
  match ed.filename with
  | none => pure (false, ed, fs)
  | some filename => do
    let total ← fileLength ed
    let buf ← kmalloc 1 (total + 1)
    match buf with
    | none => pure (false, ed, fs)
    | some buf => do
      let (buf, pos) ← fileText ed buf
      let path ← stringOf filename
      let text ← bytesOf buf pos
      let (ret, fs) ← Ramfs.fsWriteFile fs path text answer data
      kfree (some buf)
      if ret = 0 then pure (true, { ed with modified := false }, fs) else pure (false, ed, fs)

end CobraOS.Snake
