import CobraOS.Snake.FlatText
import CobraOS.Snake.Files

/-!
# The event loop of the editor, `editor_run` in `arch/x86/snake/snake.c`

One round of the loop handles one key event and those that its prompts read.  The events are a list,
the next one first; a round that needs more events than there are has no result.  What is drawn on
the screen is left out.

A `Watch` remembers what the user has been asked and which texts were lost.  It is not part of the
program.
-/

namespace CobraOS.Snake

open Base
open Ramfs (Fs Bytes)

/-- `MAX_PATH_LEN` -/
def maxPathLen : Nat := 256

/-- `KeyEvent` -/
inductive KeyEvent
  | char (c : UInt8)
  | special (key : SpecialKey)
  deriving DecidableEq

/-! ### Prompts -/

/-- The loop of `editor_prompt_filename` with the characters in the buffer. -/
def promptLoop (bufSize : Nat) : Bytes → List KeyEvent → Option (Option Bytes × List KeyEvent)
  | _, [] => none
  | buf, .special .enter :: events => some (if 0 < buf.length then some buf else none, events)
  | _, .special .esc :: events => some (none, events)
  | buf, .special .backspace :: events => promptLoop bufSize buf.dropLast events
  | buf, .special _ :: events => promptLoop bufSize buf events
  | buf, .char c :: events =>
    promptLoop bufSize
      (if 32 ≤ c ∧ c < 127 ∧ buf.length < bufSize - 1 then buf ++ [c] else buf) events

/-- The path, `none` for the result `false`. -/
def editorPromptFilename (bufSize : Nat) (events : List KeyEvent) :
    Option (Option Bytes × List KeyEvent) := promptLoop bufSize [] events

def editorConfirmSave : List KeyEvent → Option (Bool × List KeyEvent)
  | [] => none
  | .special _ :: events => editorConfirmSave events
  | .char c :: events =>
    if c = 121 ∨ c = 89 then some (true, events)
    else if c = 110 ∨ c = 78 then some (false, events)
    else editorConfirmSave events

/-- `kbd_read_event(&dummy)` -/
def skipEvent : List KeyEvent → Option (List KeyEvent)
  | [] => none
  | _ :: events => some events

/-! ### The loop -/

/-- What the loop works on; `running` is its condition. -/
structure RunState where
  ed : Editor
  fs : Fs
  events : List KeyEvent
  running : Bool

/-- What the program does not determine: the memory of `new_ed`, and the answers of the heap in
`fs_write_file`. -/
structure Chance where
  unset : Editor
  answer : Option Nat
  data : Option Nat

/-- What has happened to the text in a round, besides the operations. -/
inductive Effect
  | none
  | loaded
  | saved
  | declined
  deriving DecidableEq

def operate (st : RunState) (op : Op) : Alloc (Effect × RunState) := do
  let ed ← exec st.ed op
  pure (.none, { st with ed := ed })

/-- Ctrl+O -/
def openFile (ch : Chance) (st : RunState) : Alloc (Effect × RunState) := do
  let (path, events) ← editorPromptFilename maxPathLen st.events
  match path with
  | none => pure (.none, { st with events := events })
  | some path => do
    let (ok, ed) ← editorLoad st.ed ch.unset st.fs path
    if ok then pure (.loaded, { st with ed := ed, events := events })
    else do
      let events ← skipEvent events
      pure (.none, { st with ed := ed, events := events })

/-- `editor_save`, and the key that is waited for when it fails. -/
def saveFile (ch : Chance) (st : RunState) : Alloc (Effect × RunState) := do
  let (ok, ed, fs) ← editorSave st.ed st.fs ch.answer ch.data
  if ok then pure (.saved, { st with ed := ed, fs := fs })
  else do
    let events ← skipEvent st.events
    pure (.none, { st with ed := ed, fs := fs, events := events })

/-- Ctrl+Q.  When the text cannot be saved, the loop goes on. -/
def quit (ch : Chance) (st : RunState) : Alloc (Effect × RunState) :=
  if st.ed.modified then do
    let (save, events) ← editorConfirmSave st.events
    if save then do
      let (effect, st) ← saveFile ch { st with events := events }
      pure (effect, { st with running := decide (effect ≠ .saved) })
    else pure (.declined, { st with events := events, running := false })
  else pure (.none, { st with running := false })

/-- The branches for `KEY_CHAR`, of which at most one is taken. -/
def onChar (ch : Chance) (st : RunState) (c : UInt8) : Alloc (Effect × RunState) :=
  if c = 26 then operate st .undo
  else if c = 25 then operate st .redo
  else if c = 15 then openFile ch st
  else if c = 17 then quit ch st
  else if c = 19 then saveFile ch st
  else if c = 13 ∨ c = 10 then operate st .insertNewline
  else if c = 9 then operate st (.insertChar 9)
  else if 32 ≤ c ∧ c < 127 then operate st (.insertChar c)
  else pure (.none, st)

/-- The branches for `KEY_SPECIAL`. -/
def onSpecial (ch : Chance) (st : RunState) (key : SpecialKey) : Alloc (Effect × RunState) :=
  match key with
  | .up | .down | .left | .right | .home | .end | .pageUp | .pageDown =>
    operate st (.moveCursor key)
  | .backspace => operate st .deleteBackward
  | .delete => operate st .deleteForward
  | .enter => operate st .insertNewline
  | .save => saveFile ch st
  | .quit => pure (.none, { st with running := false })
  | .esc | .tab => pure (.none, st)

/-- One round of `editor_run`. -/
def editorRunRound (ch : Chance) (st : RunState) : Alloc (Effect × RunState) :=
  match st.events with
  | [] => failure
  | .char c :: events => onChar ch { st with events := events } c
  | .special key :: events => onSpecial ch { st with events := events } key

/-! ### What is lost -/

/-- The text at the last load or save, whether the user has answered N since the last change of the
text, and the texts that were discarded although they differed from the saved one and there was no
such answer. -/
structure Watch where
  saved : List Text
  answered : Bool
  lost : List (List Text)

/-- A text is discarded. -/
def Watch.discard (wt : Watch) (text : List Text) : Watch :=
  if text ≠ wt.saved ∧ wt.answered = false then { wt with lost := text :: wt.lost } else wt

/-- The watch after the loop has ended, which discards its text. -/
def Watch.ended (wt : Watch) (st : RunState) : Watch :=
  if st.running then wt else wt.discard st.ed.texts

/-- The watch after a round. -/
def Watch.after (wt : Watch) (st st' : RunState) : Effect → Watch
  | .none =>
    Watch.ended { wt with answered := wt.answered && decide (st'.ed.texts = st.ed.texts) } st'
  | .loaded => { wt.discard st.ed.texts with saved := st'.ed.texts, answered := false }
  | .saved => Watch.ended { wt with saved := st'.ed.texts } st'
  | .declined => Watch.ended { wt with answered := true } st'

structure Watched where
  run : RunState
  world : World
  watch : Watch

/-- One round, watched. -/
def Watched.round (x : Watched) (ch : Chance) : Option Watched := do
  let ((effect, run), world) ← editorRunRound ch x.run x.world
  some ⟨run, world, x.watch.after x.run run effect⟩

/-- Every run of `editor_run`, for any events.  It begins, as in `cmd_sn`, with an editor that has
loaded a file. -/
def sn : System Watched Chance where
  init x := ∃ unset unset' ed w w' path, editorInit unset w = some (ed, w') ∧
    editorLoad ed unset' x.run.fs path w' = some ((true, x.run.ed), x.world) ∧
    x.run.running = true ∧ x.watch = ⟨x.run.ed.texts, false, []⟩
  step x ch x' := x.run.running = true ∧ x.round ch = some x'

end CobraOS.Snake
