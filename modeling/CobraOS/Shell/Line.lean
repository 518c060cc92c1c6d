import CobraOS.Shell.Model

/-!
# A text with a cursor

What the line editor of the shell is for: a text of at most 255 characters with a cursor, which keys
and escape sequences change, and the lines that have been entered.  `Editor.feed` takes what a
complete escape sequence does as a parameter; `codeAct` is what it does in the shell, and `exactAct`
what it would do if bytes between `[` and the last byte were never ignored.
-/

namespace CobraOS.Shell

structure Line where
  text : Bytes
  cursor : Nat

namespace Line

def insert (l : Line) (c : UInt8) : Line :=
  if l.text.length < 255 then ⟨l.text.insertIdx l.cursor c, l.cursor + 1⟩ else l

def eraseBefore (l : Line) : Line :=
  if 0 < l.cursor then ⟨l.text.eraseIdx (l.cursor - 1), l.cursor - 1⟩ else l

def eraseAt (l : Line) : Line := ⟨l.text.eraseIdx l.cursor, l.cursor⟩

def left (l : Line) : Line := ⟨l.text, l.cursor - 1⟩

def right (l : Line) : Line := ⟨l.text, min (l.cursor + 1) l.text.length⟩

def home (l : Line) : Line := ⟨l.text, 0⟩

def toEnd (l : Line) : Line := ⟨l.text, l.text.length⟩

end Line

/-- The last byte of a sequence that starts with `ESC [`. -/
def isFinal (c : UInt8) : Bool := isFinalLetter c || c == tilde

/-- What of an escape sequence has come after `ESC`; a sequence ends with the byte after `ESC`
unless this is `[`, else with a last byte or with the fifth other byte. -/
def parseStep : Option Bytes → UInt8 → Option Bytes
  | none, c => if c = esc then some [] else none
  | some [], c => if c = bracket then some [c] else none
  | some (b :: params), c =>
    if isFinal c ∨ 4 ≤ params.length then none else some (b :: (params ++ [c]))

/-- The line, the escape sequence that has begun, and the lines entered so far. -/
structure Editor where
  line : Line
  pending : Option Bytes
  entered : List Bytes

/-- A key. -/
def Editor.key (e : Editor) (c : UInt8) : Editor :=
  if c = 10 then
    { e with
      line := ⟨[], 0⟩,
      entered := e.entered ++ if e.line.text = [] then [] else [e.line.text] }
  else if c = 8 ∨ c = 127 then { e with line := e.line.eraseBefore }
  else if 32 ≤ c ∧ c ≤ 126 then { e with line := e.line.insert c }
  else e

/-- A byte; `act params c` is what the sequence `ESC [ params c` does to the line. -/
def Editor.feed (act : Bytes → UInt8 → Line → Line) (e : Editor) (c : UInt8) : Editor :=
  match e.pending with
  | none => { e.key c with pending := parseStep none c }
  | some [] => { e with pending := parseStep (some []) c }
  | some (b :: params) =>
    { e with
      line := if isFinal c then act params c e.line else e.line
      pending := parseStep (some (b :: params)) c }

def Editor.feedAll (act : Bytes → UInt8 → Line → Line) (cs : List UInt8) : Editor :=
  cs.foldl (Editor.feed act) ⟨⟨[], 0⟩, none, []⟩

/-- What the letters do. -/
def letterAct (c : UInt8) (l : Line) : Line :=
  if c = 67 then l.right
  else if c = 68 then l.left
  else if c = 72 then l.home
  else if c = 70 then l.toEnd
  else l

/-- In the shell the bytes before a letter do not matter, and of those before `~` only the first,
which is `3` for a sequence that erases at the cursor. -/
def codeAct (params : Bytes) (c : UInt8) (l : Line) : Line :=
  if c = tilde then if params.head? = some 51 then l.eraseAt else l
  else letterAct c l

/-- Only `ESC [` with a letter, and `ESC [ 3 ~`, do anything. -/
def exactAct (params : Bytes) (c : UInt8) (l : Line) : Line :=
  if c = tilde then if params = [51] then l.eraseAt else l
  else if params = [] then letterAct c l
  else l

/-- No sequence ends with `A` or `B`. -/
def NoHistory (cs : List UInt8) : Prop :=
  ∀ pre c post, cs = pre ++ c :: post → ∀ b params, pre.foldl parseStep none = some (b :: params) →
    c ≠ 65 ∧ c ≠ 66

end CobraOS.Shell
