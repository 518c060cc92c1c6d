import CobraOS.Base.Block
import CobraOS.Base.System
import CobraOS.Base.Word
import CobraOS.Heap.Alloc

/-!
# The editor, `arch/x86/snake/snake.c`

A line is a buffer with a length and a capacity; an editor holds an array of lines, a cursor, the
scroll offsets of its window and two stacks of saved states.  All arrays are blocks from `kmalloc`,
a null pointer is `none`, and a pointer that is followed carries the block it points to: every block
has one owner, and handing a pointer over hands over its contents.

The programs are `Alloc` programs, so that an access outside a block, to a cell that was never
written or through a null pointer is a program without a result.  Sizes that are passed to `kmalloc`
are 32-bit words.  The other counts are natural numbers, and a difference that the source does not
guard is `wsub`.
-/

namespace CobraOS.Snake

open Base

/-- `SCREEN_WIDTH` -/
def screenWidth : Nat := 80

/-- `TEXT_HEIGHT` -/
def textHeight : Nat := 24

/-- `MAX_UNDO_LEVELS` -/
def maxUndoLevels : Nat := 100

/-- The largest request that `kmalloc` can grant: a block of `MAX_BLOCK_SIZE` without its header. -/
def maxRequest : Nat := 4194288

structure Line where
  data : Option (Block UInt8)
  len : Nat
  cap : Nat

/-- `sizeof(Line)` -/
def lineSize : Nat := 12

structure EditorState where
  lines : Option (Block Line)
  numLines : Nat
  cursorX : Nat
  cursorY : Nat
  scrollX : Nat
  scrollY : Nat

/-- `sizeof(EditorState)` -/
def editorStateSize : Nat := 24

structure Editor where
  lines : Option (Block Line)
  numLines : Nat
  cursorX : Nat
  cursorY : Nat
  scrollX : Nat
  scrollY : Nat
  filename : Option (Block UInt8)
  modified : Bool
  fileEndsWithNewline : Bool
  undoStack : Option (Block EditorState)
  undoTop : Int
  redoStack : Option (Block EditorState)
  redoTop : Int

/-- `SpecialKey` -/
inductive SpecialKey
  | up
  | down
  | left
  | right
  | home
  | «end»
  | pageUp
  | pageDown
  | delete
  | backspace
  | enter
  | tab
  | save
  | quit
  | esc
  deriving DecidableEq

/-- `kmalloc(size)` for an array of items of `item` bytes. -/
def kmalloc {α : Type} (item size : Nat) : Alloc (Option (Block α)) :=
  request maxRequest item (size % 4294967296)

theorem heap_grants {h h' : Heap.State} {n p : Nat} (hr : Heap.kmalloc h n = .ok (p, h'))
    (hp : p ≠ 0) : 0 < n ∧ n ≤ maxRequest := Heap.kmalloc_le hr hp

def kfree {α : Type} (b : Option (Block α)) : Alloc Unit := release b

/-- A signed index. -/
def index (i : Int) : Option Nat := if 0 ≤ i then some i.toNat else none

/-! ### Saved states -/

/-- `for (size_t j = 0; j < n; j++) kfree(lines[j].data);` from `j` on. -/
def freeLines (lines : Block Line) : Nat → Nat → Alloc Unit
  | 0, _ => pure ()
  | n + 1, j => do
    let line ← lines.get j
    kfree line.data
    freeLines lines n (j + 1)

/-- The loop of `editor_state_clone`, with the number of lines left, from line `i` on. -/
def cloneLines (src : Block Line) : Nat → Nat → Block Line → Alloc (Option (Block Line))
  | 0, _, dst => pure (some dst)
  | n + 1, i, dst => do
    let line ← src.get i
    let data ← kmalloc 1 (line.len + 1)
    match data with
    | none => do
      freeLines dst i 0
      kfree (some dst)
      pure none
    | some data => do
      let from' ← line.data
      let data ← data.copy 0 from' 0 line.len
      let data ← data.set line.len 0
      let dst ← dst.set i ⟨some data, line.len, line.len + 1⟩
      cloneLines src n (i + 1) dst

/-- The fields that the source leaves unset when it fails are `0`; they are not read then. -/
def editorStateClone (ed : Editor) : Alloc EditorState := do
  let lines ← kmalloc lineSize (ed.numLines * lineSize)
  match lines with
  | none => pure ⟨none, 0, 0, 0, 0, 0⟩
  | some dst => do
    let src ← ed.lines
    let lines ← cloneLines src ed.numLines 0 dst
    match lines with
    | none => pure ⟨none, 0, 0, 0, 0, 0⟩
    | some dst => pure ⟨some dst, ed.numLines, ed.cursorX, ed.cursorY, ed.scrollX, ed.scrollY⟩

def editorStateFree (st : EditorState) : Alloc EditorState := do
  match st.lines with
  | none => pure st
  | some lines => do
    freeLines lines st.numLines 0
    kfree st.lines
    pure { st with lines := none, numLines := 0 }

/-- The saved state is left without lines. -/
def editorStateRestore (ed : Editor) (st : EditorState) : Alloc (Editor × EditorState) := do
  match ed.lines with
  | none => if ed.numLines = 0 then pure () else failure
  | some lines => freeLines lines ed.numLines 0
  kfree ed.lines
  pure ({ ed with
    lines := st.lines
    numLines := st.numLines
    cursorX := st.cursorX
    cursorY := st.cursorY
    scrollX := st.scrollX
    scrollY := st.scrollY
    modified := true }, { st with lines := none, numLines := 0 })

/-! ### The stacks -/

/-- `for (int i = 1; i <= *top; i++) stack[i - 1] = stack[i];` with the number of steps left, from
`i` on. -/
def shiftDown : Nat → Nat → Block EditorState → Option (Block EditorState)
  | 0, _, stack => some stack
  | n + 1, i, stack => do
    let st ← stack.get i
    let stack ← stack.set (i - 1) st
    shiftDown n (i + 1) stack

/-- `if (*top >= MAX_UNDO_LEVELS - 1) { ... }` -/
def dropOldest (stack : Block EditorState) (top : Int) : Alloc (Block EditorState × Int) := do
  if (maxUndoLevels : Int) - 1 ≤ top then do
    let st ← stack.get 0
    let st ← editorStateFree st
    let stack ← stack.set 0 st
    let stack ← shiftDown top.toNat 1 stack
    pure (stack, top - 1)
  else pure (stack, top)

def undoStackPush (stack : Option (Block EditorState)) (top : Int) (state : EditorState) :
    Alloc (Option (Block EditorState) × Int) := do
  let stack ← stack
  let (stack, top) ← dropOldest stack top
  let i ← index (top + 1)
  let stack ← stack.set i state
  pure (some stack, top + 1)

def undoStackPop (stack : Option (Block EditorState)) (top : Int) : Option (EditorState × Int) := do
  let stack ← stack
  let i ← index top
  let st ← stack.get i
  some (st, top - 1)

/-- `for (int i = 0; i <= *top; i++) editor_state_free(&stack[i]);` with the number of steps left,
from `i` on. -/
def clearStates : Nat → Nat → Option (Block EditorState) → Alloc (Option (Block EditorState))
  | 0, _, stack => pure stack
  | n + 1, i, stack => do
    let stack ← stack
    let st ← stack.get i
    let st ← editorStateFree st
    let stack ← stack.set i st
    clearStates n (i + 1) (some stack)

def undoStackClear (stack : Option (Block EditorState)) (top : Int) :
    Alloc (Option (Block EditorState) × Int) := do
  let stack ← clearStates (top + 1).toNat 0 stack
  pure (stack, -1)

def editorPushUndo (ed : Editor) : Alloc (Bool × Editor) := do
  let st ← editorStateClone ed
  if st.lines.isNone then pure (false, ed)
  else do
    let (stack, top) ← undoStackPush ed.undoStack ed.undoTop st
    pure (true, { ed with undoStack := stack, undoTop := top })

def editorDiscardLastUndo (ed : Editor) : Alloc Editor := do
  if ed.undoTop < 0 then pure ed
  else do
    let (st, top) ← undoStackPop ed.undoStack ed.undoTop
    let _ ← editorStateFree st
    pure { ed with undoTop := top }

/-- `if (undo_pushed) editor_discard_last_undo(ed);` -/
def discardIf (undoPushed : Bool) (ed : Editor) : Alloc Editor :=
  if undoPushed then editorDiscardLastUndo ed else pure ed

def editorClearRedo (ed : Editor) : Alloc Editor := do
  let (stack, top) ← undoStackClear ed.redoStack ed.redoTop
  pure { ed with redoStack := stack, redoTop := top }

/-- `if (current.lines) undo_stack_push(stack, top, current);` -/
def pushIf (stack : Option (Block EditorState)) (top : Int) (current : EditorState) :
    Alloc (Option (Block EditorState) × Int) :=
  if current.lines.isSome then undoStackPush stack top current else pure (stack, top)

/-- What `editor_undo` and `editor_redo` have in common: the current state goes on the stack `dst`,
and the latest one of the stack `src` comes back. -/
def exchangeStates (ed : Editor) (src : Option (Block EditorState)) (srcTop : Int)
    (dst : Option (Block EditorState)) (dstTop : Int) :
    Alloc (Editor × Int × Option (Block EditorState) × Int) := do
  let current ← editorStateClone ed
  let (dst, dstTop) ← pushIf dst dstTop current
  let (st, srcTop) ← undoStackPop src srcTop
  let (ed, st) ← editorStateRestore ed st
  let _ ← editorStateFree st
  pure (ed, srcTop, dst, dstTop)

def editorUndo (ed : Editor) : Alloc Editor := do
  if ed.undoTop < 0 then pure ed
  else do
    let (ed, undoTop, redoStack, redoTop) ←
      exchangeStates ed ed.undoStack ed.undoTop ed.redoStack ed.redoTop
    pure { ed with undoTop := undoTop, redoStack := redoStack, redoTop := redoTop }

def editorRedo (ed : Editor) : Alloc Editor := do
  if ed.redoTop < 0 then pure ed
  else do
    let (ed, redoTop, undoStack, undoTop) ←
      exchangeStates ed ed.redoStack ed.redoTop ed.undoStack ed.undoTop
    pure { ed with redoTop := redoTop, undoStack := undoStack, undoTop := undoTop }

/-! ### Lines -/

/-- `while (new_cap < needed) new_cap *= 2;`, `none` when it does not end: after 32 rounds `new_cap`
is `0`. -/
def doubled (needed : Nat) : Nat → Nat → Option Nat
  | 0, _ => none
  | n + 1, newCap =>
    if newCap < needed then doubled needed n (newCap * 2 % 4294967296) else some newCap

/-- `if (line->data) { memcpy(new_data, line->data, line->len + 1); kfree(line->data); }` -/
def moveData (line : Line) (newData : Block UInt8) : Alloc (Block UInt8) := do
  match line.data with
  | none => pure newData
  | some data => do
    let newData ← newData.copy 0 data 0 (line.len + 1)
    kfree line.data
    pure newData

def lineReserve (line : Line) (needed : Nat) : Alloc (Bool × Line) := do
  if needed ≤ line.cap then pure (true, line)
  else do
    let newCap ← doubled needed 33 (if line.cap = 0 then 16 else line.cap * 2 % 4294967296)
    let newData ← kmalloc 1 newCap
    match newData with
    | none => pure (false, line)
    | some newData => do
      let newData ← moveData line newData
      pure (true, { line with data := some newData, cap := newCap })

def lineInsertChar (line : Line) (pos : Nat) (c : UInt8) : Alloc (Bool × Line) := do
  if line.len < pos then pure (false, line)
  else do
    let (ok, line) ← lineReserve line ((line.len + 2) % 4294967296)
    if ok then do
      let data ← line.data
      let data ← data.copy (pos + 1) data pos (line.len - pos + 1)
      let data ← data.set pos c
      pure (true, { line with data := some data, len := line.len + 1 })
    else pure (false, line)

def lineDeleteChar (line : Line) (pos : Nat) : Alloc (Bool × Line) := do
  if line.len ≤ pos then pure (false, line)
  else do
    let data ← line.data
    let data ← data.copy pos data (pos + 1) (line.len - pos)
    pure (true, { line with data := some data, len := line.len - 1 })

/-- The results are the old line and the new one. -/
def lineSplit (line : Line) (pos : Nat) : Alloc (Bool × Line × Line) := do
  if line.len < pos then pure (false, line, ⟨none, 0, 0⟩)
  else do
    let tailLen := line.len - pos
    let (ok, newLine) ← lineReserve ⟨none, 0, 0⟩ ((tailLen + 1) % 4294967296)
    if ok then do
      let newData ← newLine.data
      let data ← line.data
      let newData ← newData.copy 0 data pos tailLen
      let newData ← newData.set tailLen 0
      let data ← data.set pos 0
      pure (true, { line with data := some data, len := pos },
        { newLine with data := some newData, len := tailLen })
    else pure (false, line, newLine)

def lineJoin (dest src : Line) : Alloc (Bool × Line) := do
  let newLen := (dest.len + src.len) % 4294967296
  let (ok, dest) ← lineReserve dest ((newLen + 1) % 4294967296)
  if ok then do
    let data ← dest.data
    let from' ← src.data
    let data ← data.copy dest.len from' 0 src.len
    let data ← data.set newLen 0
    pure (true, { dest with data := some data, len := newLen })
  else pure (false, dest)

/-! ### The editor -/

/-- Whatever was in the memory of the editor stays where the source does not write. -/
def editorInit (ed : Editor) : Alloc Editor := do
  let lines : Option (Block Line) ← kmalloc lineSize lineSize
  match lines with
  | none => pure { ed with lines := none, numLines := 0 }
  | some lines => do
    let data ← kmalloc 1 1
    match data with
    | none => do
      kfree (some lines)
      pure { ed with lines := none, numLines := 0 }
    | some data => do
      let data ← data.set 0 0
      let lines ← lines.set 0 ⟨some data, 0, 1⟩
      let undoStack ← kmalloc editorStateSize (maxUndoLevels * editorStateSize)
      let redoStack ← kmalloc editorStateSize (maxUndoLevels * editorStateSize)
      let ed := { ed with
        lines := some lines
        numLines := 1
        cursorX := 0
        cursorY := 0
        scrollX := 0
        scrollY := 0
        filename := none
        modified := false
        fileEndsWithNewline := false
        undoTop := -1
        redoTop := -1 }
      if undoStack.isNone ∨ redoStack.isNone then do
        kfree undoStack
        kfree redoStack
        pure { ed with undoStack := none, redoStack := none }
      else pure { ed with undoStack := undoStack, redoStack := redoStack }

/-- One axis of `editor_scroll_to_cursor`. -/
def scrollTo (size cursor scroll : Nat) : Nat :=
  let scroll := if cursor < scroll then cursor else scroll
  if scroll + size ≤ cursor then cursor - size + 1 else scroll

def editorScrollToCursor (ed : Editor) : Editor :=
  { ed with
    scrollX := scrollTo screenWidth ed.cursorX ed.scrollX
    scrollY := scrollTo textHeight ed.cursorY ed.scrollY }

/-- `ed->lines[y].len` -/
def lineLen (ed : Editor) (y : Nat) : Option Nat := do
  let lines ← ed.lines
  let line ← lines.get y
  some line.len

/-- `ed->cursor_y = y`, and then `cursor_x` no further than the end of that line. -/
def moveToLine (ed : Editor) (y : Nat) : Option Editor := do
  let len ← lineLen ed y
  some { ed with cursorY := y, cursorX := if len < ed.cursorX then len else ed.cursorX }

/-- The `switch` of `editor_move_cursor`. -/
def moveByKey (ed : Editor) (key : SpecialKey) : Option Editor :=
  match key with
  | .left =>
    if 0 < ed.cursorX then some { ed with cursorX := ed.cursorX - 1 }
    else if 0 < ed.cursorY then do
      let len ← lineLen ed (ed.cursorY - 1)
      some { ed with cursorY := ed.cursorY - 1, cursorX := len }
    else some ed
  | .right => do
    let len ← lineLen ed ed.cursorY
    if ed.cursorX < len then some { ed with cursorX := ed.cursorX + 1 }
    else if ed.cursorY + 1 < ed.numLines then
      some { ed with cursorY := ed.cursorY + 1, cursorX := 0 }
    else some ed
  | .up => if 0 < ed.cursorY then moveToLine ed (ed.cursorY - 1) else some { ed with cursorX := 0 }
  | .down =>
    if ed.cursorY + 1 < ed.numLines then moveToLine ed (ed.cursorY + 1)
    else do
      let len ← lineLen ed ed.cursorY
      some { ed with cursorX := len }
  | .home => some { ed with cursorX := 0 }
  | .end => do
    let len ← lineLen ed ed.cursorY
    some { ed with cursorX := len }
  | .pageUp => moveToLine ed (if textHeight < ed.cursorY then ed.cursorY - textHeight else 0)
  | .pageDown =>
    moveToLine ed (if ed.cursorY + textHeight < ed.numLines then ed.cursorY + textHeight
      else wsub ed.numLines 1)
  | _ => some ed

def editorMoveCursor (ed : Editor) (key : SpecialKey) : Alloc Editor := do
  let ed ← moveByKey ed key
  pure (editorScrollToCursor ed)

/-- What every edit ends with when it has changed the text. -/
def editorChanged (ed : Editor) : Alloc Editor := do
  let ed ← editorClearRedo { ed with modified := true }
  pure (editorScrollToCursor ed)

def editorInsertChar (ed : Editor) (c : UInt8) : Alloc Editor := do
  let (undoPushed, ed) ← editorPushUndo ed
  let lines ← ed.lines
  let line ← lines.get ed.cursorY
  let (ok, line) ← lineInsertChar line ed.cursorX c
  let lines ← lines.set ed.cursorY line
  let ed := { ed with lines := some lines }
  if ok then editorChanged { ed with cursorX := ed.cursorX + 1 }
  else discardIf undoPushed ed

def editorInsertNewline (ed : Editor) : Alloc Editor := do
  let (undoPushed, ed) ← editorPushUndo ed
  let oldCount := ed.numLines
  let newLines ← kmalloc lineSize ((oldCount + 1) * lineSize)
  match newLines with
  | none => discardIf undoPushed ed
  | some newLines => do
    let lines ← ed.lines
    let current ← lines.get ed.cursorY
    let (ok, current, newLine) ← lineSplit current ed.cursorX
    let lines ← lines.set ed.cursorY current
    if ok then do
      let newLines ← newLines.copy 0 lines 0 oldCount
      kfree (some lines)
      let newLines ← newLines.copy (ed.cursorY + 2) newLines (ed.cursorY + 1)
        (wsub (wsub oldCount ed.cursorY) 1)
      let newLines ← newLines.set (ed.cursorY + 1) newLine
      editorChanged { ed with
        lines := some newLines
        numLines := ed.numLines + 1
        cursorY := ed.cursorY + 1
        cursorX := 0 }
    else do
      kfree (some newLines)
      discardIf undoPushed { ed with lines := some lines }

/-- `line_join` of the lines `y` and `y + 1`, and the array without line `y + 1`. -/
def joinLines (ed : Editor) (y : Nat) : Alloc (Bool × Editor) := do
  let lines ← ed.lines
  let dest ← lines.get y
  let src ← lines.get (y + 1)
  let (ok, dest) ← lineJoin dest src
  let lines ← lines.set y dest
  if ok then do
    kfree src.data
    let lines ← lines.copy (y + 1) lines (y + 2) (wsub (wsub ed.numLines (y + 1)) 1)
    pure (true, { ed with lines := some lines, numLines := ed.numLines - 1 })
  else pure (false, { ed with lines := some lines })

/-- `line_delete_char` in the line of the cursor. -/
def deleteInLine (ed : Editor) (pos : Nat) : Alloc (Bool × Editor) := do
  let lines ← ed.lines
  let line ← lines.get ed.cursorY
  let (ok, line) ← lineDeleteChar line pos
  let lines ← lines.set ed.cursorY line
  pure (ok, { ed with lines := some lines })

/-- The part of `editor_delete_backward` that changes the text, and `changed`. -/
def deleteBefore (ed : Editor) : Alloc (Bool × Editor) := do
  if 0 < ed.cursorX then do
    let (ok, ed) ← deleteInLine ed (ed.cursorX - 1)
    pure (ok, if ok then { ed with cursorX := ed.cursorX - 1 } else ed)
  else if 0 < ed.cursorY then do
    let prevLen ← lineLen ed (ed.cursorY - 1)
    let (ok, ed) ← joinLines ed (ed.cursorY - 1)
    pure (ok, if ok then { ed with cursorY := ed.cursorY - 1, cursorX := prevLen } else ed)
  else pure (false, ed)

/-- The part of `editor_delete_forward` that changes the text, and `changed`. -/
def deleteAt (ed : Editor) : Alloc (Bool × Editor) := do
  let len ← lineLen ed ed.cursorY
  if ed.cursorX < len then deleteInLine ed ed.cursorX
  else if ed.cursorY + 1 < ed.numLines then joinLines ed ed.cursorY
  else pure (false, ed)

def editorDeleteBackward (ed : Editor) : Alloc Editor := do
  let (undoPushed, ed) ← editorPushUndo ed
  let (changed, ed) ← deleteBefore ed
  if changed then editorChanged ed else discardIf undoPushed ed

def editorDeleteForward (ed : Editor) : Alloc Editor := do
  let (undoPushed, ed) ← editorPushUndo ed
  let (changed, ed) ← deleteAt ed
  if changed then editorChanged ed else discardIf undoPushed ed

/-! ### Runs -/

inductive Op
  | insertChar (c : UInt8)
  | insertNewline
  | deleteBackward
  | deleteForward
  | moveCursor (key : SpecialKey)
  | undo
  | redo

def exec (ed : Editor) : Op → Alloc Editor
  | .insertChar c => editorInsertChar ed c
  | .insertNewline => editorInsertNewline ed
  | .deleteBackward => editorDeleteBackward ed
  | .deleteForward => editorDeleteForward ed
  | .moveCursor key => editorMoveCursor ed key
  | .undo => editorUndo ed
  | .redo => editorRedo ed

end CobraOS.Snake
