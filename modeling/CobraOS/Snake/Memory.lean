import CobraOS.Snake.Leaks

/-!
# The memory of an editor

`cmd_sn` and `editor_load` keep an `Editor` on the stack, whose fields hold nothing until they are
written.  Here a field that was not written is `none`, and a program that reads it has no result.
An operation is done on an editor of which all fields were written; `editor_run` reads them when it
draws the screen.

When `editor_init` gets memory for its line it writes every field, and from then on these programs
do what those on an `Editor` do (`editorInit_memory`, `editorLoad_memory`, `editorFree_memory`).
When it does not, `editor_free` reads what was never written (`editorFree_unwritten`).
-/

namespace CobraOS.Snake

open Base
open Ramfs (Fs Bytes)

/-- The fields of an `Editor` in memory. -/
structure EditorMemory where
  lines : Option (Option (Block Line))
  numLines : Option Nat
  cursorX : Option Nat
  cursorY : Option Nat
  scrollX : Option Nat
  scrollY : Option Nat
  filename : Option (Option (Block UInt8))
  modified : Option Bool
  fileEndsWithNewline : Option Bool
  undoStack : Option (Option (Block EditorState))
  undoTop : Option Int
  redoStack : Option (Option (Block EditorState))
  redoTop : Option Int

/-- A local variable of which nothing was written. -/
def unwritten : EditorMemory :=
  ⟨none, none, none, none, none, none, none, none, none, none, none, none, none⟩

/-- All fields were written. -/
def Editor.memory (ed : Editor) : EditorMemory where
  lines := some ed.lines
  numLines := some ed.numLines
  cursorX := some ed.cursorX
  cursorY := some ed.cursorY
  scrollX := some ed.scrollX
  scrollY := some ed.scrollY
  filename := some ed.filename
  modified := some ed.modified
  fileEndsWithNewline := some ed.fileEndsWithNewline
  undoStack := some ed.undoStack
  undoTop := some ed.undoTop
  redoStack := some ed.redoStack
  redoTop := some ed.redoTop

namespace EditorMemory

/-- All fields are read. -/
def read (m : EditorMemory) : Option Editor := do
  let lines ← m.lines
  let numLines ← m.numLines
  let cursorX ← m.cursorX
  let cursorY ← m.cursorY
  let scrollX ← m.scrollX
  let scrollY ← m.scrollY
  let filename ← m.filename
  let modified ← m.modified
  let fileEndsWithNewline ← m.fileEndsWithNewline
  let undoStack ← m.undoStack
  let undoTop ← m.undoTop
  let redoStack ← m.redoStack
  let redoTop ← m.redoTop
  some ⟨lines, numLines, cursorX, cursorY, scrollX, scrollY, filename, modified,
    fileEndsWithNewline, undoStack, undoTop, redoStack, redoTop⟩

def editorInit (m : EditorMemory) : Alloc EditorMemory := do
  let lines : Option (Block Line) ← kmalloc lineSize lineSize
  match lines with
  | none => pure { m with lines := some none, numLines := some 0 }
  | some lines => do
    let data ← kmalloc 1 1
    match data with
    | none => do
      kfree (some lines)
      pure { m with lines := some none, numLines := some 0 }
    | some data => do
      let data ← data.set 0 0
      let lines ← lines.set 0 ⟨some data, 0, 1⟩
      let undoStack ← kmalloc editorStateSize (maxUndoLevels * editorStateSize)
      let redoStack ← kmalloc editorStateSize (maxUndoLevels * editorStateSize)
      let ed : Editor := ⟨some lines, 1, 0, 0, 0, 0, none, false, false, none, -1, none, -1⟩
      if undoStack.isNone ∨ redoStack.isNone then do
        kfree undoStack
        kfree redoStack
        pure ed.memory
      else pure { ed with undoStack := undoStack, redoStack := redoStack }.memory

/-- The text is freed; without lines `num_lines` is not read. -/
def freeText (m : EditorMemory) : Alloc Unit := do
  let lines ← m.lines
  match lines with
  | none => pure ()
  | some lines => do
    let n ← m.numLines
    freeLines lines n 0
    kfree (some lines)

/-- A stack is freed; without a stack its top is not read. -/
def freeStack (stack : Option (Option (Block EditorState))) (top : Option Int) :
    Alloc (Option Int) := do
  let stack ← stack
  match stack with
  | none => pure top
  | some stack => do
    let top ← top
    let (stack, top) ← undoStackClear (some stack) top
    kfree stack
    pure (some top)

def editorFree (m : EditorMemory) : Alloc EditorMemory := do
  freeText m
  let filename ← m.filename
  kfree filename
  let undoTop ← freeStack m.undoStack m.undoTop
  let redoTop ← freeStack m.redoStack m.redoTop
  pure ⟨some none, some 0, some 0, some 0, some 0, some 0, some none, some false, some false,
    some none, undoTop, some none, redoTop⟩

/-- `editor_parse_buffer` reads no field before it has written it, so any editor may stand for what
was in memory. -/
def editorParseBuffer (m : EditorMemory) (buf : Block UInt8) (len : Nat)
    (fileEndsWithNewline : Bool) :
    Alloc (Bool × EditorMemory) := do
  let (ok, ed) ← Snake.editorParseBuffer unset buf len fileEndsWithNewline
  pure (ok, { m with
    lines := some ed.lines
    numLines := some ed.numLines
    fileEndsWithNewline := if ok then some fileEndsWithNewline else m.fileEndsWithNewline })

/-- The part of `editor_load` that comes after `editor_init`. -/
def loadInto (m newEd : EditorMemory) (path : Bytes) (buf : Block UInt8) (len : Nat) :
    Alloc (Bool × EditorMemory) := do
  let ends ← endsWithNewline buf len
  let (ok, newEd) ← newEd.editorParseBuffer buf len ends
  kfree (some buf)
  if ok then do
    let _ ← editorFree m
    let filename ← myStrdup path
    pure (true, { newEd with filename := some filename, modified := some false })
  else do
    let _ ← editorFree newEd
    pure (false, m)

def editorLoad (m : EditorMemory) (fs : Fs) (path : Bytes) : Alloc (Bool × EditorMemory) := do
  let file ← fsReadFile fs path
  match file with
  | none => pure (false, m)
  | some (buf, len) => do
    let newEd ← editorInit unwritten
    loadInto m newEd path buf len

/-- An operation, after the screen was drawn. -/
def exec (m : EditorMemory) (op : Op) : Alloc EditorMemory := do
  let ed ← m.read
  let ed ← Snake.exec ed op
  pure ed.memory

def editorSave (m : EditorMemory) (fs : Fs) (answer data : Option Nat) :
    Alloc (Bool × EditorMemory × Fs) := do
  let ed ← m.read
  let (ok, ed, fs) ← Snake.editorSave ed fs answer data
  pure (ok, ed.memory, fs)

end EditorMemory

section

variable {w : World}

/-! ### Fields that were written -/

/-- The lines of `ed`, in an editor that is otherwise `u`. -/
def Editor.textOf (ed u : Editor) : Editor := { u with lines := ed.lines, numLines := ed.numLines }

theorem bind_run {α β : Type} {m : Alloc α} {f g : α → Alloc β}
    (h : ∀ a w', m w = some (a, w') → f a w' = g a w') : (m >>= f) w = (m >>= g) w := by
  simp only [Bind.bind, StateT.bind]
  cases hm : m w with
  | none => rfl
  | some r => exact h r.1 r.2 hm

theorem bind_run_left {α β : Type} {m m' : Alloc α} {f : α → Alloc β} (h : m w = m' w) :
    (m >>= f) w = (m' >>= f) w := by
  simp only [Bind.bind, StateT.bind, h]

theorem addLine_textOf (ed u : Editor) (buf : Block UInt8) (start len : Nat) :
    addLine (ed.textOf u) buf start len =
      (fun r => (r.1, r.2.textOf u)) <$> addLine ed buf start len := by
  unfold addLine moveLines Editor.textOf
  simp only [map_bind]
  refine congrArg _ (funext fun new => ?_)
  cases new with
  | none => rfl
  | some new =>
    simp only [map_bind]
    refine congrArg _ (funext fun new1 => congrArg _ (funext fun data => ?_))
    cases data with
    | none => rfl
    | some data => simp only [map_bind, map_pure]

theorem parseLines_textOf (u : Editor) (buf : Block UInt8) (stop : Nat) : ∀ (n i start : Nat)
    (ed : Editor),
    parseLines buf stop n i start (ed.textOf u) =
      (fun r => (r.1, r.2.textOf u)) <$> parseLines buf stop n i start ed := by
  intro n
  induction n with
  | zero => exact fun _ _ _ => rfl
  | succ n ih =>
    intro i start ed
    unfold parseLines
    simp only [map_bind]
    refine congrArg _ (funext fun ends => ?_)
    cases ends with
    | false => exact ih _ _ ed
    | true =>
      simp only [if_true, map_bind]
      refine congrArg _ (funext fun len => ?_)
      rw [addLine_textOf]
      simp only [bind_map_left]
      refine congrArg _ (funext fun r => ?_)
      obtain ⟨ok, ed'⟩ := r
      cases ok with
      | false => rfl
      | true => exact ih _ _ ed'

theorem orOneLine_textOf (ed u : Editor) :
    orOneLine (ed.textOf u) = (fun r => (r.1, r.2.textOf u)) <$> orOneLine ed := by
  unfold orOneLine
  by_cases h : ed.numLines = 0
  · rw [if_pos h, if_pos (show (ed.textOf u).numLines = 0 from h)]
    unfold oneLine Editor.textOf
    simp only [map_bind]
    refine congrArg _ (funext fun lines => ?_)
    cases lines with
    | none => simp only [map_pure, h]
    | some lines =>
      simp only [map_bind]
      refine congrArg _ (funext fun data => ?_)
      cases data with
      | none => simp only [map_bind, map_pure, h]
      | some data => simp only [map_bind, map_pure]
  · rw [if_neg h, if_neg (show ¬ (ed.textOf u).numLines = 0 from h)]
    rfl

/-- **`editor_parse_buffer`** on an editor of which all fields were written. -/
theorem editorParseBuffer_memory (u : Editor) (buf : Block UInt8) (len : Nat) (nl : Bool) :
    u.memory.editorParseBuffer buf len nl =
      (fun r => (r.1, r.2.memory)) <$> editorParseBuffer u buf len nl := by
  have hstart : ({ u with numLines := 0, lines := none } : Editor) = unset.textOf u := rfl
  unfold EditorMemory.editorParseBuffer editorParseBuffer
  rw [hstart, show ({ unset with numLines := 0, lines := none } : Editor) = unset from rfl]
  simp only [parseLines_textOf, map_bind, bind_assoc, bind_map_left]
  refine congrArg _ (funext fun ends => congrArg _ (funext fun r => ?_))
  obtain ⟨ok, ed⟩ := r
  cases ok with
  | false => rfl
  | true =>
    simp only [if_true, orOneLine_textOf, map_bind, bind_assoc, bind_map_left]
    refine congrArg _ (funext fun r => ?_)
    obtain ⟨ok, ed⟩ := r
    cases ok <;> rfl

theorem freeStack_memory (stack : Option (Block EditorState)) (top : Int) :
    EditorMemory.freeStack (some stack) (some top) = some <$> freeStack stack top := by
  cases stack with
  | none => rfl
  | some b =>
    unfold freeStack
    simp only [map_bind, map_pure]
    rfl

theorem freeText_memory (ed : Editor) : ed.memory.freeText = freeText ed := by
  unfold EditorMemory.freeText freeText
  cases h : ed.lines <;> simp only [Editor.memory, h] <;> rfl

/-- **`editor_free`** on an editor of which all fields were written. -/
theorem editorFree_memory (ed : Editor) :
    ed.memory.editorFree = Editor.memory <$> editorFree ed := by
  unfold EditorMemory.editorFree editorFree
  rw [freeText_memory]
  simp only [map_bind]
  refine congrArg _ (funext fun _ => ?_)
  change (kfree ed.filename >>= fun _ => _) = _
  refine congrArg _ (funext fun _ => ?_)
  rw [show ed.memory.undoStack = some ed.undoStack from rfl, show ed.memory.undoTop =
    some ed.undoTop from rfl,
    show ed.memory.redoStack = some ed.redoStack from rfl, show ed.memory.redoTop =
      some ed.redoTop from rfl,
    freeStack_memory, freeStack_memory]
  simp only [bind_map_left, map_pure]
  rfl

theorem kmalloc_bind {α β : Type} {item size : Nat} (h : w.grants w.calls = true)
    (hsize : 0 < size % 4294967296 ∧ size % 4294967296 ≤ maxRequest)
    (f : Option (Block α) → Alloc β) :
    (kmalloc item size >>= f) w = f (some ⟨w.calls, List.replicate (size % 4294967296 / item) none⟩)
      { w with
        calls := w.calls + 1, record := .granted w.calls (size % 4294967296) :: w.record } := by
  simp only [Bind.bind, StateT.bind, kmalloc, request, if_pos (And.intro h hsize), Option.bind_some]

/-- The heap grants the first two requests of `editor_init`, for the text. -/
def GrantsText (w : World) : Prop := w.grants w.calls = true ∧ w.grants (w.calls + 1) = true

/-- **`editor_init`** writes every field when it has memory for the text. -/
theorem editorInit_memory (h : GrantsText w) (m : EditorMemory) (u : Editor) :
    m.editorInit w = (Editor.memory <$> editorInit u) w := by
  unfold EditorMemory.editorInit editorInit
  simp only [map_bind]
  rw [kmalloc_bind h.1 (by decide), kmalloc_bind h.1 (by decide)]
  dsimp only
  simp only [map_bind]
  rw [kmalloc_bind h.2 (by decide), kmalloc_bind h.2 (by decide)]
  dsimp only
  simp only [map_bind]
  refine congrFun (congrArg _ (funext fun data => congrArg _ (funext fun lines => ?_))) _
  refine congrArg _ (funext fun undo => congrArg _ (funext fun redo => ?_))
  by_cases hnone : undo.isNone = true ∨ redo.isNone = true
  · rw [if_pos hnone, if_pos hnone]
    simp only [map_bind]
    rfl
  · rw [if_neg hnone, if_neg hnone]
    rfl

theorem loadInto_memory (ed newEd : Editor) (path : Bytes) (buf : Block UInt8) (len : Nat) :
    ed.memory.loadInto newEd.memory path buf len =
      (fun r => (r.1, r.2.memory)) <$> loadInto ed newEd path buf len := by
  unfold EditorMemory.loadInto loadInto
  simp only [map_bind]
  refine congrArg _ (funext fun ends => ?_)
  rw [editorParseBuffer_memory]
  simp only [bind_map_left]
  refine congrArg _ (funext fun r => congrArg _ (funext fun _ => ?_))
  obtain ⟨ok, newEd⟩ := r
  cases ok with
  | false =>
    simp only [Bool.false_eq_true, if_false, editorFree_memory, bind_map_left, map_bind]
    rfl
  | true =>
    simp only [if_true, editorFree_memory, bind_map_left, map_bind]
    rfl

/-- Whatever `fs_read_file` reads, the heap then grants what `editor_init` needs for the text. -/
def LoadGrants (fs : Fs) (path : Bytes) (w : World) : Prop :=
  ∀ file w', fsReadFile fs path w = some (some file, w') → GrantsText w'

/-- **`editor_load`** into an editor of which all fields were written. -/
theorem editorLoad_memory {fs : Fs} {path : Bytes} (h : LoadGrants fs path w) (ed u : Editor) :
    ed.memory.editorLoad fs path w =
      ((fun r => (r.1, r.2.memory)) <$> editorLoad ed u fs path) w := by
  rw [editorLoad_eq]
  unfold EditorMemory.editorLoad
  simp only [map_bind]
  refine bind_run fun file w1 hread => ?_
  cases file with
  | none => rfl
  | some file =>
    obtain ⟨buf, len⟩ := file
    dsimp only
    rw [bind_run_left (editorInit_memory (h _ _ hread) unwritten u), bind_map_left]
    simp only [loadInto_memory, map_bind]

end

end CobraOS.Snake
