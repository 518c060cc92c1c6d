import CobraOS.Snake.Invariant

/-!
# The lines and the flat text

The text of an editor is its lines joined with `'\n'`, and the caret is an offset in it.
-/

namespace CobraOS.Snake

open Base

/-- The first `len` characters of the buffer. -/
def Line.text (l : Line) : Text :=
  match l.data with
  | none => []
  | some b => (b.cells.take l.len).filterMap id

/-- The texts of the lines. -/
def Editor.texts (ed : Editor) : List Text :=
  match ed.lines with
  | none => []
  | some b => ((b.cells.take ed.numLines).filterMap id).map Line.text

def Editor.flat (ed : Editor) : Text := [newlineChar].intercalate ed.texts

/-- The offset of the cursor in the flat text. -/
def Editor.offset (ed : Editor) : Nat :=
  ((ed.texts.take ed.cursorY).map (·.length + 1)).sum + ed.cursorX

section

variable {ed : Editor} {c : Caret UInt8}

theorem Line.Holds.text {l : Line} {t : Text} (h : l.Holds t) : l.text = t := by
  obtain ⟨id', rest, hd, -⟩ := h.data
  unfold Line.text
  rw [hd, h.len]
  simp

theorem texts_eq {ls : List Line} {ts : List Text} (h : List.Forall₂ Line.Holds ls ts) :
    ls.map Line.text = ts := by
  induction h with
  | nil => rfl
  | cons hl _ ih => rw [List.map_cons, hl.text, ih]

theorem HoldLines.texts {ts : List Text} (h : HoldLines ed.lines ed.numLines ts) :
    ed.texts = ts := by
  obtain ⟨id', ls, rest, hlines, hf, hn, -⟩ := h
  have htake : (ls.map some ++ rest).take ed.numLines = ls.map some :=
    List.take_left' (by rw [List.length_map, hf.length_eq, hn])
  unfold Editor.texts
  rw [hlines]
  simp only [htake]
  rw [List.filterMap_map, show (id ∘ some : Line → Option Line) = some from rfl,
    List.filterMap_some]
  exact texts_eq hf

theorem Editor.At.texts (h : ed.At c) : ed.texts = c.lines := h.lines.texts

theorem Editor.At.flat (h : ed.At c) :
    ed.flat = c.flatBefore newlineChar ++ c.flatAfter newlineChar := by
  unfold Editor.flat
  rw [h.texts, Caret.flat_eq]

theorem Editor.At.offset (h : ed.At c) : ed.offset = (c.flatBefore newlineChar).length := by
  unfold Editor.offset
  rw [h.texts, h.cursorX, h.cursorY, Caret.flatBefore_length]

end

end CobraOS.Snake
