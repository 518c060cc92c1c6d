import CobraOS.Snake.Editor

/-!
# The representation invariant of the editor

Starting from `editor_init` with all its requests granted, every reachable editor is in some session
(`reach_holds`).  So its lines, its cursor, its window and its stacks are as they should be, and
every operation has a result: no access is out of bounds (`representation_invariant`).
-/

namespace CobraOS.Snake

open Base

/-- Every run that begins with an `editor_init` for which no request is refused. -/
def system : System (Editor × World) Op where
  init p := ∃ ed w, editorInit ed w = some p ∧ p.2.refusals = w.refusals
  step p op p' := exec p.1 op p.2 = some p'

/-! ### The start -/

theorem HoldStack.fresh (id : Nat) :
    HoldStack (some ⟨id, List.replicate maxUndoLevels none⟩) (-1) .empty :=
  ⟨id, [], List.replicate maxUndoLevels none, rfl, .nil, rfl, by simp⟩

/-- **`editor_init`** always returns, and starts a session when no request is refused. -/
theorem editorInit_spec (ed : Editor) (w : World) : Meets (editorInit ed) w (fun ed' w' =>
    w.refusals ≤ w'.refusals ∧ (w'.refusals = w.refusals → ed'.Holds .start)) := by
  unfold editorInit kmalloc
  refine Meets.seq (Meets.request (fun id1 w1 _ hmax1 hw1 => ?_) fun w1 hw1 =>
    Meets.pure ⟨by omega, fun h => absurd h (by omega)⟩)
  refine Meets.seq (Meets.request (fun id2 w2 _ hmax2 hw2 => ?_) fun w2 hw2 =>
    Meets.seq (Meets.release fun w3 hw3 => Meets.pure ⟨by omega, fun h => absurd h (by omega)⟩))
  refine Meets.lift rfl (Meets.lift rfl ?_)
  refine Meets.seq (Meets.request (fun id3 w3 _ _ hw3 => ?_) fun w3 hw3 => ?_)
  · refine Meets.seq (Meets.request (fun id4 w4 _ _ hw4 => ?_) fun w4 hw4 => ?_)
    · have hlines : (1 : Nat) * lineSize ≤ maxRequest := by decide
      have hcap : (1 : Nat) ≤ maxRequest := by decide
      exact Meets.pure ⟨by omega, fun _ => ⟨⟨⟨id1, [_], [], rfl,
        .cons ⟨⟨id2, [], rfl, rfl⟩, rfl, hcap⟩ .nil, rfl, hlines⟩, rfl, rfl, rfl, rfl⟩, rfl,
        HoldStack.fresh id3, HoldStack.fresh id4⟩⟩
    · refine Meets.seq (Meets.release fun w5 hw5 => Meets.seq (Meets.release fun w6 hw6 => ?_))
      exact Meets.pure ⟨by omega, fun h => absurd h (by omega)⟩
  · refine Meets.seq (Meets.request (fun id4 w4 _ _ hw4 => ?_) fun w4 hw4 => ?_)
    all_goals
      refine Meets.seq (Meets.release fun w5 hw5 => Meets.seq (Meets.release fun w6 hw6 => ?_))
      exact Meets.pure ⟨by omega, fun h => absurd h (by omega)⟩

theorem reach_holds {p : Editor × World} (h : system.Reach p) : ∃ s, p.1.Holds s := by
  refine h.induct (P := fun p => ∃ s, p.1.Holds s) ?_ ?_
  · rintro p ⟨ed, w, hr, hw⟩
    obtain ⟨ed', w', hr', -, hstart⟩ := editorInit_spec ed w
    rw [hr] at hr'
    cases hr'
    exact ⟨_, hstart hw⟩
  · rintro p op p' ⟨s, hs⟩ hstep
    obtain ⟨ed', w', hr, snap, room, hs'⟩ := exec_spec (w := p.2) hs op
    have hstep' : exec p.1 op p.2 = some p' := hstep
    rw [hr] at hstep'
    cases hstep'
    exact ⟨_, hs'⟩

/-! ### The invariant -/

/-- A line with room for its terminator, and the terminator. -/
structure Line.Ok (l : Line) : Prop where
  room : l.len < l.cap
  data : ∃ b, l.data = some b ∧ b.cells.length = l.cap ∧ b.get l.len = some 0

structure EditorState.Ok (st : EditorState) : Prop where
  pos : 1 ≤ st.numLines
  lines : ∃ b, st.lines = some b ∧ st.numLines ≤ b.cells.length ∧
    (∀ i < st.numLines, ∃ l, b.get i = some l ∧ l.Ok) ∧
    ∃ l, b.get st.cursorY = some l ∧ st.cursorX ≤ l.len
  cursorY : st.cursorY < st.numLines
  shown_col : st.scrollX ≤ st.cursorX ∧ st.cursorX < st.scrollX + screenWidth
  shown_row : st.scrollY ≤ st.cursorY ∧ st.cursorY < st.scrollY + textHeight

structure StackOk (stack : Option (Block EditorState)) (top : Int) : Prop where
  bounds : -1 ≤ top ∧ top ≤ 99
  states : ∃ b, stack = some b ∧ b.cells.length = maxUndoLevels ∧
    ∀ i : Nat, (i : Int) ≤ top → ∃ st, b.get i = some st ∧ st.Ok

theorem EditorState.Holds.ok {st : EditorState} {v : View} (h : st.Holds v) : st.Ok := by
  have hrow : st.cursorY < st.numLines := by
    rw [h.cursorY, h.lines.count_lt.1]
    exact v.caret.row_lt
  obtain ⟨id, ls, rest, hlines, hf, hn, -⟩ := h.lines
  have hget : ∀ i < st.numLines, ∃ l, (⟨id, ls.map some ++ rest⟩ : Block Line).get i = some l ∧
      ∃ t, v.caret.lines[i]? = some t ∧ l.Holds t := by
    intro i hi
    obtain ⟨hlen, hall⟩ := List.forall₂_iff_get.mp hf
    have hil : i < ls.length := by omega
    refine ⟨ls[i], ?_, v.caret.lines[i], List.getElem?_eq_getElem (by omega), hall i hil (by omega)⟩
    rw [Block.get_eq_some, List.getElem?_append_left (by simpa using hil)]
    simp [hil]
  refine ⟨by omega, ⟨_, hlines, ?_, fun i hi => ?_, ?_⟩, hrow, ?_, ?_⟩
  · simp only [List.length_append, List.length_map]
    have := hf.length_eq
    omega
  · obtain ⟨l, hl, t, -, ht⟩ := hget i hi
    exact ⟨l, hl, ht.terminated.1, ht.terminated.2⟩
  · obtain ⟨l, hl, t, hti, ht⟩ := hget _ hrow
    rw [h.cursorY, Caret.lines_row] at hti
    cases hti
    refine ⟨l, hl, ?_⟩
    rw [h.cursorX, ht.len, List.length_append]
    exact Nat.le_add_right _ _
  · rw [h.cursorX, h.scrollX]
    exact v.shown_col
  · rw [h.cursorY, h.scrollY]
    exact v.shown_row

theorem HoldStack.ok {stack : Option (Block EditorState)} {top : Int} {hist : History}
    (h : HoldStack stack top hist) : StackOk stack top := by
  obtain ⟨id, sts, rest, rfl, hf, htop, hsize⟩ := h
  obtain ⟨hlen, hall⟩ := List.forall₂_iff_get.mp hf
  have hle := hist.length_le
  unfold maxUndoLevels at hle
  refine ⟨⟨by omega, by omega⟩, _, rfl, by simpa using hsize, fun i hi => ?_⟩
  have hil : i < sts.length := by omega
  refine ⟨sts[i], ?_, (hall i hil (by omega)).ok⟩
  rw [Block.get_eq_some, List.getElem?_append_left (by simpa using hil)]
  simp [hil]

/-- **The representation invariant** of every reachable editor, and that every operation on it stays
within the bounds of the arrays. -/
theorem representation_invariant {p : Editor × World} (h : system.Reach p) :
    p.1.state.Ok ∧ StackOk p.1.undoStack p.1.undoTop ∧ StackOk p.1.redoStack p.1.redoTop ∧
      ∀ op, ∃ p', system.step p op p' := by
  obtain ⟨s, hs⟩ := reach_holds h
  refine ⟨hs.state.ok, hs.undo.ok, hs.redo.ok, fun op => ?_⟩
  obtain ⟨ed', w', hr, -⟩ := exec_spec (w := p.2) hs op
  exact ⟨_, hr⟩

/-! ### A run -/

/-- A world that refuses only the request `n`. -/
def refusing (n : Nat) : World := ⟨fun k => k != n, 0, []⟩

/-- The memory of an editor before `editor_init`. -/
def unset : Editor := ⟨none, 0, 0, 0, 0, 0, none, false, false, none, 0, none, 0⟩

/-- An empty text, in a world that refuses the request `n`. -/
def emptyText (n : Nat) : Editor × World := (editorInit unset (refusing n)).getD (unset, refusing n)

/-- The character `A` has been typed into it. -/
def typedA (n : Nat) : Editor × World :=
  (exec (emptyText n).1 (.insertChar 65) (emptyText n).2).getD (emptyText n)

/-- The fifth request is the first of the snapshot. -/
theorem emptyText_reach : system.Reach (emptyText 4) := .init ⟨unset, refusing 4, rfl, rfl⟩

theorem typedA_step : system.step (emptyText 4) (.insertChar 65) (typedA 4) := rfl

theorem representation_invariant_typedA : (typedA 4).1.state.Ok ∧
    StackOk (typedA 4).1.undoStack (typedA 4).1.undoTop ∧
    StackOk (typedA 4).1.redoStack (typedA 4).1.redoTop ∧
    ∀ op, ∃ p', system.step (typedA 4) op p' :=
  representation_invariant (emptyText_reach.step typedA_step)

end CobraOS.Snake
