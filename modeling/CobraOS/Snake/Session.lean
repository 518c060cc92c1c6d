import CobraOS.Base.Caret
import CobraOS.Snake.Model

/-!
# What the editor is for

A session is a text with a caret in a window that shows the caret, a history of views to go back to
and one to go forward to.  A view cannot be built with its caret outside the window, nor a history
with more than `maxUndoLevels` views.

Two of its operations may be hindered: `snap` says that the view could be saved, `room` that there
was memory for the edit itself.
-/

namespace CobraOS.Snake

open Base

abbrev Text := List UInt8

/-- `'\n'` -/
def newlineChar : UInt8 := 10

/-- A caret that the window shows. -/
structure View where
  caret : Caret UInt8
  scrollX : Nat
  scrollY : Nat
  shown_col : scrollX ≤ caret.col ∧ caret.col < scrollX + screenWidth
  shown_row : scrollY ≤ caret.row ∧ caret.row < scrollY + textHeight

/-- Scrolling brings the cursor into the window, whatever the offset was. -/
theorem scrollTo_shows {size : Nat} (h : 0 < size) (cursor scroll : Nat) :
    scrollTo size cursor scroll ≤ cursor ∧ cursor < scrollTo size cursor scroll + size := by
  unfold scrollTo
  simp only
  split <;> split <;> omega

/-- The view of a caret, scrolled from an old window as little as possible. -/
def View.scrolled (caret : Caret UInt8) (scrollX scrollY : Nat) : View where
  caret := caret
  scrollX := scrollTo screenWidth caret.col scrollX
  scrollY := scrollTo textHeight caret.row scrollY
  shown_col := scrollTo_shows (by decide) _ _
  shown_row := scrollTo_shows (by decide) _ _

def View.moveTo (v : View) (caret : Caret UInt8) : View := .scrolled caret v.scrollX v.scrollY

/-- At most `maxUndoLevels` views, the latest one last. -/
structure History where
  views : List View
  length_le : views.length ≤ maxUndoLevels

namespace History

def empty : History := ⟨[], Nat.zero_le _⟩

/-- A full history forgets its oldest view. -/
def push (h : History) (v : View) : History where
  views := (if h.views.length < maxUndoLevels then h.views else h.views.tail) ++ [v]
  length_le := by
    have := h.length_le
    rw [List.length_append, List.length_singleton]
    split
    · omega
    · rw [List.length_tail]
      unfold maxUndoLevels at *
      omega

def pop (h : History) : History where
  views := h.views.dropLast
  length_le := by
    have := h.length_le
    rw [List.length_dropLast]
    omega

/-- What a program has that saves the view first. -/
def save (h : History) (v : View) (snap : Bool) : History := if snap then h.push v else h

/-- Taking back what `save` did. -/
def unsave (h : History) (snap : Bool) : History := if snap then h.pop else h

end History

structure Session where
  view : View
  modified : Bool
  undo : History
  redo : History

namespace Session

/-- An edit: `none` when there is nothing to change or no memory to do it. -/
def edit (s : Session) (snap : Bool) (caret : Option (Caret UInt8)) : Session :=
  match caret with
  | some caret => ⟨s.view.moveTo caret, true, s.undo.save s.view snap, .empty⟩
  | none => { s with undo := (s.undo.save s.view snap).unsave snap }

def move (s : Session) (caret : Caret UInt8) : Session := { s with view := s.view.moveTo caret }

/-- Back to the latest view of the history; nothing when there is none. -/
def back (s : Session) (snap : Bool) : Session :=
  match s.undo.views.getLast? with
  | some v => ⟨v, true, s.undo.pop, s.redo.save s.view snap⟩
  | none => s

def forth (s : Session) (snap : Bool) : Session :=
  match s.redo.views.getLast? with
  | some v => ⟨v, true, s.undo.save s.view snap, s.redo.pop⟩
  | none => s

end Session

/-- Where a key takes the caret. -/
def keyCaret (c : Caret UInt8) : SpecialKey → Caret UInt8
  | .left => c.left
  | .right => c.right
  | .up => if 0 < c.row then c.goTo (c.row - 1) c.col else c.goTo c.row 0
  | .down =>
    if c.row + 1 < c.lines.length then c.goTo (c.row + 1) c.col
    else c.goTo c.row (c.before ++ c.after).length
  | .home => c.goTo c.row 0
  | .end => c.goTo c.row (c.before ++ c.after).length
  | .pageUp => c.goTo (if textHeight < c.row then c.row - textHeight else 0) c.col
  | .pageDown =>
    c.goTo (if c.row + textHeight < c.lines.length then c.row + textHeight else c.lines.length - 1)
      c.col
  | _ => c

/-- The caret after an edit, when there is `room` for it; `none` for an edit without effect. -/
def editCaret (c : Caret UInt8) (room : Bool) : Op → Option (Caret UInt8)
  | .insertChar a => if room then some (c.insert a) else none
  | .insertNewline => if room then some c.newline else none
  | .deleteBackward => if room then c.eraseBefore else none
  | .deleteForward => if room then c.eraseAt else none
  | _ => none

/-- **The session after an operation.** -/
def Session.exec (s : Session) (snap room : Bool) : Op → Session
  | .moveCursor key => s.move (keyCaret s.view.caret key)
  | .undo => s.back snap
  | .redo => s.forth snap
  | op => s.edit snap (editCaret s.view.caret room op)

/-- An empty text. -/
def Session.start : Session :=
  ⟨⟨⟨[], [], [], []⟩, 0, 0, by decide, by decide⟩, false, .empty, .empty⟩

end CobraOS.Snake
