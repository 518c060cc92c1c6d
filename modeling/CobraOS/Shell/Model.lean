import CobraOS.Base.Cells

/-!
# The line editor of the shell, `arch/x86/kernel/shell.c`

`shell_feed_char` and what it calls.  The arrays are the lists of their cells and every access is
checked: one outside an array has no result.  What goes to the screen, and the lines that
`shell_process_line` receives, are logged.
-/

namespace CobraOS.Shell

open Base

abbrev Bytes := List UInt8

/-- `MAX_CMD_LEN` -/
def maxCmdLen : Nat := 256

/-- `HISTORY_SIZE` -/
def historySize : Nat := 20

/-- `sizeof(esc_buf)` -/
def escBufSize : Nat := 8

/-- `ESC` -/
def esc : UInt8 := 27

/-- `'['` -/
def bracket : UInt8 := 91

/-- `'~'` -/
def tilde : UInt8 := 126

/-- `PROMPT` -/
def prompt : Bytes := [62, 32]

/-- `esc_state_t` -/
inductive EscState
  | none
  | start
  | bracket

inductive Output
  | print (text : Bytes)
  | redraw (line : Bytes) (pos : Nat)
  | process (line : Bytes)

/-- The static variables.  Of a row of `history` only the text before its zero byte matters;
`history_index` is `none` for `-1`. -/
structure State where
  cmdBuffer : List UInt8
  cmdLen : Nat
  cmdPos : Nat
  history : List Bytes
  historyCount : Nat
  historyIndex : Option Nat
  escState : EscState
  escBuf : List UInt8
  escPos : Nat
  log : List Output

def State.say (s : State) (o : Output) : State := { s with log := s.log ++ [o] }

/-- The text before the first zero byte, for functions that read up to it. -/
def cString (cells : List UInt8) : Option Bytes :=
  if 0 ∈ cells then some (cells.takeWhile (· != 0)) else none

/-- `strcpy(cells, text)` -/
def strcpy (cells : List UInt8) (text : Bytes) : Option (List UInt8) :=
  if text.length < cells.length then some (text ++ 0 :: cells.drop (text.length + 1)) else none

/-- The cells before `n`, read one by one. -/
def readCells (cells : List UInt8) (n : Nat) : Option Bytes :=
  if n ≤ cells.length then some (cells.take n) else none

def shellRedrawLine (s : State) : Option State := do
  let line ← readCells s.cmdBuffer s.cmdLen
  some (s.say (.redraw line s.cmdPos))

def shellInsertChar (s : State) (c : UInt8) : Option State :=
  if maxCmdLen - 1 ≤ s.cmdLen then some s
  else do
    let cells ← shiftUp s.cmdPos (s.cmdLen - s.cmdPos) s.cmdBuffer
    let cells ← setAt cells s.cmdPos c
    shellRedrawLine { s with cmdBuffer := cells, cmdLen := s.cmdLen + 1, cmdPos := s.cmdPos + 1 }

def shellDeleteCharBefore (s : State) : Option State :=
  if s.cmdPos = 0 then some s
  else do
    let cells ← shiftDown (s.cmdPos - 1) (s.cmdLen - 1 - (s.cmdPos - 1)) s.cmdBuffer
    shellRedrawLine { s with cmdBuffer := cells, cmdLen := s.cmdLen - 1, cmdPos := s.cmdPos - 1 }

def shellDeleteCharAt (s : State) : Option State :=
  if s.cmdLen ≤ s.cmdPos then some s
  else do
    let cells ← shiftDown s.cmdPos (s.cmdLen - 1 - s.cmdPos) s.cmdBuffer
    shellRedrawLine { s with cmdBuffer := cells, cmdLen := s.cmdLen - 1 }

def shellMoveLeft (s : State) : Option State :=
  if 0 < s.cmdPos then shellRedrawLine { s with cmdPos := s.cmdPos - 1 } else some s

def shellMoveRight (s : State) : Option State :=
  if s.cmdPos < s.cmdLen then shellRedrawLine { s with cmdPos := s.cmdPos + 1 } else some s

def shellMoveHome (s : State) : Option State := shellRedrawLine { s with cmdPos := 0 }

def shellMoveEnd (s : State) : Option State := shellRedrawLine { s with cmdPos := s.cmdLen }

/-- A line of the history becomes the command line: `strcpy`, and the lengths after it. -/
def recallLine (s : State) (index : Nat) : Option State := do
  let row ← s.history[index % historySize]?
  let cells ← strcpy s.cmdBuffer row
  shellRedrawLine { s with
    cmdBuffer := cells, cmdLen := row.length, cmdPos := row.length, historyIndex := some index }

def shellHandleEscape (s : State) (final : UInt8) : Option State :=
  if final = 65 then
    if s.historyCount = 0 then some s
    else
      match s.historyIndex with
      | none => recallLine s (s.historyCount - 1)
      | some i => recallLine s (if 0 < i then i - 1 else i)
  else if final = 66 then
    match s.historyIndex with
    | none => some s
    | some i =>
      if i + 1 < s.historyCount then recallLine s (i + 1)
      else do
        let cells ← setAt s.cmdBuffer 0 0
        shellRedrawLine { s with
          cmdBuffer := cells, cmdLen := 0, cmdPos := 0, historyIndex := none }
  else if final = 67 then shellMoveRight s
  else if final = 68 then shellMoveLeft s
  else if final = 72 then shellMoveHome s
  else if final = 70 then shellMoveEnd s
  else if final = tilde then
    if 3 ≤ s.escPos then do
      let c ← s.escBuf[2]?
      if c = 51 then shellDeleteCharAt s else some s
    else some s
  else some s

/-- The last line of the history, if there is one. -/
def lastLine (s : State) : Option (Option Bytes) :=
  if 0 < s.historyCount then (s.history[(s.historyCount - 1) % historySize]?).map some
  else some none

def shellAddHistory (s : State) (cmd : Bytes) : Option State := do
  let last ← lastLine s
  if last = some cmd then some s
  else if cmd.length < maxCmdLen then do
    let history ← setAt s.history (s.historyCount % historySize) cmd
    some { s with history := history, historyCount := s.historyCount + 1 }
  else none

/-- `if (cmd_len > 0) { ... }` -/
def runLine (s : State) : Option State :=
  if 0 < s.cmdLen then do
    let cells ← setAt s.cmdBuffer s.cmdLen 0
    let cmd ← cString cells
    let s ← shellAddHistory { s with cmdBuffer := cells } cmd
    some (s.say (.process cmd))
  else some s

/-- The case of `'\n'`. -/
def enterLine (s : State) : Option State := do
  let s ← runLine (s.say (.print [10]))
  some ({ s with cmdLen := 0, cmdPos := 0, historyIndex := none }.say (.print prompt))

/-- The end of an escape sequence: `esc_state = ESC_NONE; esc_pos = 0;`. -/
def endEscape (s : State) : State := { s with escState := .none, escPos := 0 }

/-- The bytes that end `ESC [`, apart from `'~'`. -/
def isFinalLetter (c : UInt8) : Bool := (65 ≤ c && c ≤ 68) || c == 72 || c == 70

/-- `esc_buf[esc_pos++] = c;` -/
def storeEscape (s : State) (c : UInt8) : Option State := do
  let escBuf ← setAt s.escBuf s.escPos c
  some { s with escBuf := escBuf, escPos := s.escPos + 1 }

/-- A character that is not part of an escape sequence. -/
def feedPlain (s : State) (c : UInt8) : Option State :=
  if c = esc then storeEscape { s with escState := .start, escPos := 0 } esc
  else if c = 10 then enterLine s
  else if c = 8 ∨ c = 127 then shellDeleteCharBefore s
  else if 32 ≤ c ∧ c ≤ 126 then shellInsertChar s c
  else some s

def shellFeedChar (s : State) (c : UInt8) : Option State :=
  match s.escState with
  | .none => feedPlain s c
  | .start => do
    let s ← storeEscape s c
    if c = bracket then some { s with escState := .bracket } else some (endEscape s)
  | .bracket => do
    let s ← storeEscape s c
    if isFinalLetter c || c == tilde then do
      let s ← shellHandleEscape s c
      some (endEscape s)
    else if s.escPos < escBufSize - 1 then some s
    else some (endEscape s)

def feedAll (s : State) : List UInt8 → Option State
  | [] => some s
  | c :: cs => do
    let s ← shellFeedChar s c
    feedAll s cs

/-- The variables before the first call, and after `shell_init`. -/
def shellInit : State where
  cmdBuffer := List.replicate maxCmdLen 0
  cmdLen := 0
  cmdPos := 0
  history := List.replicate historySize []
  historyCount := 0
  historyIndex := none
  escState := .none
  escBuf := List.replicate escBufSize 0
  escPos := 0
  log := []

/-- The lines that `shell_process_line` has received. -/
def processed (s : State) : List Bytes :=
  s.log.filterMap (fun o => match o with
    | .process line => some line
    | _ => none)

end CobraOS.Shell
