import CobraOS.Snake.Memory

/-!
# The editor without stacks

`kmalloc` may refuse any request.  When it refuses a stack the editor has none (`Editor.Bare`), and
the source stores the snapshot of an edit through the null pointer, unless that snapshot is refused
as well.  Apart from these edits every operation leaves the editor usable (`exec_usable`), and so
does `editor_load` (`loadInto_usable`).
-/

namespace CobraOS.Snake

open Base
open Ramfs (Fs Bytes)

/-- An editor whose stacks could not be allocated. -/
structure Editor.Bare (ed : Editor) (v : View) : Prop where
  state : ed.state.Holds v
  undoStack : ed.undoStack = none
  undoTop : ed.undoTop = -1
  redoStack : ed.redoStack = none
  redoTop : ed.redoTop = -1

/-- An editor in a session, or without stacks. -/
def Editor.Usable (ed : Editor) : Prop := (∃ s, ed.Holds s) ∨ ∃ v, ed.Bare v

/-- The operations that save the state first. -/
def Op.Saves : Op → Prop
  | .insertChar _ | .insertNewline | .deleteBackward | .deleteForward => True
  | _ => False

/-- The heap refuses the snapshot of a text of `n` lines. -/
def SnapshotRefused (n : Nat) (w : World) : Prop := ∃ k ≤ n, w.grants (w.calls + k) = false

section

variable {w : World} {ed : Editor} {v : View} {c : Caret UInt8}

theorem Editor.Usable.lines (h : ed.Usable) :
    ∃ ts, HoldLines ed.lines ed.numLines ts ∧ ed.cursorY < ed.numLines := by
  have hview : ∃ v, ed.state.Holds v := by
    obtain ⟨s, hs⟩ | ⟨v, hv⟩ := h
    · exact ⟨_, hs.state⟩
    · exact ⟨_, hv.state⟩
  obtain ⟨v, hv⟩ := hview
  have hlines : HoldLines ed.lines ed.numLines v.caret.lines := hv.lines
  refine ⟨_, hlines, ?_⟩
  rw [hlines.count_lt.1, show ed.cursorY = v.caret.row from hv.cursorY]
  exact v.caret.row_lt

/-! ### Snapshots -/

theorem kmalloc_call {α : Type} (item size : Nat) :
    Leads (kmalloc (α := α) item size) w (fun b w' =>
    w'.calls = w.calls + 1 ∧ w'.grants = w.grants ∧ (w.grants w.calls = false → b = none)) := by
  intro b w' hr
  unfold kmalloc request at hr
  split at hr
  · cases hr
    rename_i h
    exact ⟨rfl, rfl, fun hf => absurd (h.1.symm.trans hf) (by simp)⟩
  · cases hr
    exact ⟨rfl, rfl, fun _ => rfl⟩

theorem cloneLines_refused {src : Block Line} : ∀ (n i : Nat) (dst : Block Line) {w : World},
    Leads (cloneLines src n i dst) w (fun r _ => (∃ k < n, w.grants (w.calls + k) = false) →
      r = none) := by
  intro n
  induction n with
  | zero =>
    intro i dst w
    exact Leads.pure fun ⟨k, hk, _⟩ => absurd hk (Nat.not_lt_zero k)
  | succ n ih =>
    intro i dst w
    unfold cloneLines
    refine Leads.lift fun line _ => Leads.bind (kmalloc_call _ _) fun data w1
      ⟨hcalls, hgrants, hnone⟩ => ?_
    cases data with
    | none =>
      exact Leads.bind Leads.any fun _ _ _ => Leads.bind Leads.any fun _ _ _ => Leads.pure fun _ =>
        rfl
    | some data =>
      refine Leads.lift fun _ _ => Leads.lift fun _ _ => Leads.lift fun _ _ =>
        Leads.lift fun dst' _ => ?_
      refine (ih (i + 1) dst').mono fun r w2 hr ⟨k, hk, hf⟩ => ?_
      cases k with
      | zero => exact absurd (hnone hf) (by simp)
      | succ k =>
        refine hr ⟨k, by omega, ?_⟩
        rw [hgrants, hcalls, Nat.add_assoc, Nat.add_comm 1 k]
        exact hf

theorem editorStateClone_refused (ed : Editor) : Leads (editorStateClone ed) w (fun st _ =>
    SnapshotRefused ed.numLines w → st.lines = none) := by
  unfold editorStateClone
  refine Leads.bind (kmalloc_call _ _) fun lines w1 ⟨hcalls, hgrants, hnone⟩ => ?_
  cases lines with
  | none => exact Leads.pure fun _ => rfl
  | some dst =>
    refine Leads.lift fun src _ => Leads.bind (cloneLines_refused _ _ _) fun r w2 hr => ?_
    cases r with
    | none => exact Leads.pure fun _ => rfl
    | some dst' =>
      refine Leads.pure fun ⟨k, hk, hf⟩ => ?_
      cases k with
      | zero => exact absurd (hnone hf) (by simp)
      | succ k =>
        refine absurd (hr ⟨k, by omega, ?_⟩) (by simp)
        rw [hgrants, hcalls, Nat.add_assoc, Nat.add_comm 1 k]
        exact hf

theorem editorPushUndo_refused (h : ed.state.Holds v) (hno : SnapshotRefused ed.numLines w) :
    ∃ w', editorPushUndo ed w = some ((false, ed), w') ∧ Outcome w w' false := by
  obtain ⟨st, w1, hrun, ho, -⟩ := editorStateClone_spec (w := w) h
  have hnull := editorStateClone_refused ed st w1 hrun hno
  rw [hnull] at ho
  refine ⟨w1, ?_, ho⟩
  unfold editorPushUndo
  simp only [Bind.bind, StateT.bind, hrun, Option.bind_some, hnull]
  rfl

theorem kmalloc_granted {α : Type} (item size : Nat) :
    Leads (kmalloc (α := α) item size) w (fun b _ =>
    w.grants w.calls = true → 0 < size % 4294967296 → size % 4294967296 ≤ maxRequest →
      b ≠ none) := by
  intro b w' hr hgrant hpos hmax
  unfold kmalloc request at hr
  rw [if_pos ⟨hgrant, hpos, hmax⟩] at hr
  cases hr
  simp

theorem cloneLines_granted {src : Block Line} : ∀ {todo : List Line} {ts : List Text},
    List.Forall₂ Line.Holds todo ts → ∀ {pre rest : List (Option Line)} {dst : Block Line}
      {w : World},
    src.cells = pre ++ (todo.map some ++ rest) →
    Leads (cloneLines src todo.length pre.length dst) w (fun r _ =>
      (∀ k < todo.length, w.grants (w.calls + k) = true) → r ≠ none) := by
  intro todo ts hts
  induction hts with
  | nil =>
    intro pre rest dst w _
    exact Leads.pure fun _ => by simp
  | @cons l t todo ts hl _ ih =>
    intro pre rest dst w hsrc
    have hsrc' : src.cells = (pre ++ [some l]) ++ (todo.map some ++ rest) := by
      rw [hsrc]
      simp
    rw [List.length_cons]
    unfold cloneLines
    refine Leads.lift fun line hline => Leads.bind Leads.self fun data w1 hk => ?_
    obtain rfl : l = line := Option.some.inj ((Block.get_mid hsrc rfl).symm.trans hline)
    obtain ⟨hcalls, hgrants, -⟩ := kmalloc_call _ _ _ _ hk
    cases data with
    | none =>
      refine Leads.bind Leads.any fun _ _ _ => Leads.bind Leads.any fun _ _ _ =>
        Leads.pure fun hall => ?_
      have hsize : (l.len + 1) % 4294967296 = l.len + 1 := by
        obtain ⟨id, rest', -, hcap⟩ := hl.data
        have hmax := hl.cap
        unfold maxRequest at hmax
        have := hl.len
        exact Nat.mod_eq_of_lt (by omega)
      refine absurd rfl (kmalloc_granted _ _ _ _ hk (hall 0 (Nat.succ_pos _)) ?_ ?_)
      · omega
      · obtain ⟨id, rest', -, hcap⟩ := hl.data
        have hmax := hl.cap
        have := hl.len
        omega
    | some data =>
      refine Leads.lift fun _ _ => Leads.lift fun _ _ => Leads.lift fun _ _ =>
        Leads.lift fun dst' _ => ?_
      have hrest := @ih _ _ dst' w1 hsrc'
      rw [List.length_append, List.length_singleton] at hrest
      refine hrest.mono fun r w2 hr hall => hr fun k hk => ?_
      have := hall (k + 1) (Nat.succ_lt_succ hk)
      rwa [hgrants, hcalls, Nat.add_assoc, Nat.add_comm 1 k]

/-- **A snapshot is taken** unless the heap refuses it. -/
theorem editorStateClone_granted (h : ed.state.Holds v) : Leads (editorStateClone ed) w (fun st _ =>
    ¬ SnapshotRefused ed.numLines w → st.lines ≠ none) := by
  obtain ⟨id, ls, rest, hlines, hf, hn, hsize⟩ := h.lines
  replace hlines : ed.lines = some ⟨id, ls.map some ++ rest⟩ := hlines
  replace hn : ed.numLines = ls.length := hn.trans hf.length_eq.symm
  have hpos : 0 < ls.length := by
    have := v.caret.row_lt
    rw [hf.length_eq]
    omega
  have hbytes : 0 < ed.numLines * lineSize % 4294967296 ∧ ed.numLines * lineSize % 4294967296 ≤
      maxRequest := by
    unfold lineSize maxRequest at hsize ⊢
    rw [hn, Nat.mod_eq_of_lt (by omega)]
    omega
  unfold editorStateClone
  refine Leads.bind Leads.self fun lines w1 hk => ?_
  obtain ⟨hcalls, hgrants, -⟩ := kmalloc_call _ _ _ _ hk
  have hgranted : ¬ SnapshotRefused ed.numLines w → ∀ k ≤ ed.numLines,
      w.grants (w.calls + k) = true :=
    fun hno k hk => by
      by_contra hf
      exact hno ⟨k, hk, by simpa using hf⟩
  cases lines with
  | none =>
    have hnull := kmalloc_granted _ _ _ _ hk
    exact Leads.pure fun hno =>
      absurd rfl (hnull (hgranted hno 0 (Nat.zero_le _)) hbytes.1 hbytes.2)
  | some dst =>
    refine Leads.lift fun src hsrc => ?_
    obtain rfl : ⟨id, ls.map some ++ rest⟩ = src := Option.some.inj (hlines.symm.trans hsrc)
    rw [hn]
    have hcells : (⟨id, ls.map some ++ rest⟩ : Block Line).cells = [] ++ (ls.map some ++ rest) :=
      rfl
    refine Leads.bind (cloneLines_granted hf hcells) fun r w2 hr => ?_
    cases r with
    | some dst' => exact Leads.pure fun _ => by simp
    | none =>
      refine Leads.pure fun hno => absurd rfl (hr fun k hk => ?_)
      have := hgranted (hn ▸ hno) (k + 1) (by omega)
      rwa [hgrants, hcalls, Nat.add_assoc, Nat.add_comm 1 k]

theorem editorPushUndo_null (h : ed.state.Holds v) (hstack : ed.undoStack = none)
    (hno : ¬ SnapshotRefused ed.numLines w) : editorPushUndo ed w = none := by
  obtain ⟨st, w1, hrun, -⟩ := editorStateClone_spec (w := w) h
  have hsome := editorStateClone_granted h st w1 hrun hno
  unfold editorPushUndo
  simp only [Bind.bind, StateT.bind, hrun, Option.bind_some, Option.isNone_iff_eq_none,
    if_neg hsome, hstack]
  rfl

/-! ### Editors without stacks -/

theorem editorChanged_bare (h : ed.At c) (hx : ed.scrollX = v.scrollX) (hy : ed.scrollY = v.scrollY)
    (hu : ed.undoStack = none ∧ ed.undoTop = -1) (hr : ed.redoStack = none ∧ ed.redoTop = -1) :
    Meets (editorChanged ed) w (fun ed' w' => w' = w ∧ ed'.Bare (v.moveTo c)) := by
  unfold editorChanged editorClearRedo
  rw [hr.1, hr.2]
  refine Meets.pure ⟨rfl, ⟨h.lines, h.cursorX, h.cursorY, ?_, ?_⟩, hu.1, hu.2, rfl, rfl⟩
  · show scrollTo screenWidth ed.cursorX ed.scrollX = scrollTo screenWidth c.col v.scrollX
    rw [h.cursorX, hx]
  · show scrollTo textHeight ed.cursorY ed.scrollY = scrollTo textHeight c.row v.scrollY
    rw [h.cursorY, hy]

/-- The editor after an edit: with the caret that it gives, or the same. -/
def BareAfter (ed ed' : Editor) (v : View) (o : Option (Caret UInt8)) : Prop :=
  match o with
  | some c => ed'.Bare (v.moveTo c)
  | none => ed'.Bare v ∧ ed'.modified = ed.modified

theorem BareAfter.bare {ed' : Editor} {o : Option (Caret UInt8)} (h : BareAfter ed ed' v o) :
    ∃ v', ed'.Bare v' := by
  cases o with
  | some c => exact ⟨_, h⟩
  | none => exact ⟨v, h.1⟩

/-- **An edit of an editor without stacks**, whose snapshot is refused. -/
theorem Edits.bare {m : Alloc Editor} {f : Caret UInt8 → Bool → Option (Caret UInt8)}
    (hm : Edits ed w m f) (h : ed.Bare v) (hno : SnapshotRefused ed.numLines w) :
    ∃ w1, editorPushUndo ed w = some ((false, ed), w1) ∧ Outcome w w1 false ∧
      Meets m w (fun ed' w' => ∃ room, Outcome w1 w' room ∧
        BareAfter ed ed' v (f v.caret room)) := by
  obtain ⟨w1, hpush, hrefused⟩ := editorPushUndo_refused h.state hno
  refine ⟨w1, hpush, hrefused, ?_⟩
  refine hm hpush ⟨h.state.lines, h.state.cursorX, h.state.cursorY⟩ fun ok ed2 w2 room hroom he =>
    ?_
  obtain ⟨hf, rfl, hat⟩ := he
  have hx : ed2.scrollX = v.scrollX := hf.scrollX.trans h.state.scrollX
  have hy : ed2.scrollY = v.scrollY := hf.scrollY.trans h.state.scrollY
  have hu : ed2.undoStack = none ∧ ed2.undoTop = -1 :=
    ⟨hf.undoStack.trans h.undoStack, hf.undoTop.trans h.undoTop⟩
  have hr : ed2.redoStack = none ∧ ed2.redoTop = -1 :=
    ⟨hf.redoStack.trans h.redoStack, hf.redoTop.trans h.redoTop⟩
  cases ho : f v.caret room with
  | some c =>
    rw [ho] at hat
    refine (editorChanged_bare hat hx hy hu hr).mono fun ed3 w3 h3 => ⟨room, h3.1 ▸ hroom, ?_⟩
    rw [ho]
    exact h3.2
  | none =>
    rw [ho] at hat
    refine Meets.pure ⟨room, hroom, ?_⟩
    rw [ho]
    exact ⟨⟨⟨hat.lines, hat.cursorX, hat.cursorY, hx, hy⟩, hu.1, hu.2, hr.1, hr.2⟩, hf.modified⟩

theorem editorMoveCursor_bare (h : ed.Bare v) (key : SpecialKey) :
    Meets (editorMoveCursor ed key) w
      (fun ed' _ => ed'.Bare (v.moveTo (keyCaret v.caret key))) := by
  obtain ⟨ed', hr, hat, hf⟩ := moveByKey_spec ⟨h.state.lines, h.state.cursorX, h.state.cursorY⟩ key
  refine Meets.lift hr (Meets.pure ⟨⟨hat.lines, hat.cursorX, hat.cursorY, ?_, ?_⟩,
    hf.undoStack.trans h.undoStack, hf.undoTop.trans h.undoTop,
    hf.redoStack.trans h.redoStack, hf.redoTop.trans h.redoTop⟩)
  · show scrollTo screenWidth ed'.cursorX ed'.scrollX = scrollTo screenWidth _ v.scrollX
    rw [hat.cursorX, hf.scrollX]
    exact congrArg _ h.state.scrollX
  · show scrollTo textHeight ed'.cursorY ed'.scrollY = scrollTo textHeight _ v.scrollY
    rw [hat.cursorY, hf.scrollY]
    exact congrArg _ h.state.scrollY

theorem exec_edits {op : Op} (hop : op.Saves) : Edits ed w (exec ed op)
    (fun c room => editCaret c room op) := by
  cases op with
  | insertChar a => exact editorInsertChar_edits a
  | insertNewline => exact editorInsertNewline_edits
  | deleteBackward => exact editorDeleteBackward_edits
  | deleteForward => exact editorDeleteForward_edits
  | moveCursor key => exact hop.elim
  | undo => exact hop.elim
  | redo => exact hop.elim

/-- **Every operation** leaves an editor usable, when no snapshot is taken without a stack. -/
theorem exec_usable (h : ed.Usable) {op : Op}
    (hop : op.Saves → ed.undoStack.isSome ∨ SnapshotRefused ed.numLines w) :
    Meets (exec ed op) w (fun ed' _ => ed'.Usable) := by
  obtain ⟨s, hs⟩ | ⟨v, hv⟩ := h
  · exact (exec_spec hs op).mono fun _ _ ⟨_, _, h'⟩ => Or.inl ⟨_, h'⟩
  · have hsnap : op.Saves → SnapshotRefused ed.numLines w := fun hsaves =>
      (hop hsaves).resolve_left (by rw [hv.undoStack]; simp)
    have hedit : op.Saves → Meets (exec ed op) w (fun ed' _ => ∃ v', ed'.Bare v') :=
      fun hsaves => by
      obtain ⟨w1, -, -, hmeets⟩ := (exec_edits hsaves).bare hv (hsnap hsaves)
      exact hmeets.mono fun _ _ ⟨_, _, h'⟩ => h'.bare
    have hbare : Meets (exec ed op) w (fun ed' _ => ∃ v', ed'.Bare v') := by
      cases op with
      | insertChar a => exact hedit trivial
      | insertNewline => exact hedit trivial
      | deleteBackward => exact hedit trivial
      | deleteForward => exact hedit trivial
      | moveCursor key => exact (editorMoveCursor_bare hv key).mono fun _ _ h' => ⟨_, h'⟩
      | undo =>
        unfold exec editorUndo
        rw [hv.undoTop]
        exact Meets.pure ⟨v, hv⟩
      | redo =>
        unfold exec editorRedo
        rw [hv.redoTop]
        exact Meets.pure ⟨v, hv⟩
    exact hbare.mono fun _ _ h' => Or.inr h'

/-! ### The name of the file -/

theorem finish_filename (pushed changed : Bool) (ed : Editor) :
    Leads (if changed then editorChanged ed else discardIf pushed ed) w (fun ed' _ =>
      ed'.filename = ed.filename) := by
  unfold editorChanged editorClearRedo discardIf editorDiscardLastUndo
  refine Leads.ite (fun _ => ?_) fun _ =>
    Leads.ite (fun _ => Leads.ite (fun _ => Leads.pure rfl) fun _ => ?_)
    fun _ => Leads.pure rfl
  · exact Leads.bind (Leads.bind Leads.any fun _ _ _ => Leads.pure rfl) fun _ _ h => Leads.pure h
  · exact Leads.lift fun _ _ => Leads.bind Leads.any fun _ _ _ => Leads.pure rfl

theorem editorPushUndo_filename (ed : Editor) :
    Leads (editorPushUndo ed) w (fun r _ => r.2.filename = ed.filename) :=
  (editorPushUndo_shape ed).mono fun r _ ⟨stack, top, hr⟩ => by rw [hr]

theorem deleteInLine_filename (ed : Editor) (pos : Nat) :
    Leads (deleteInLine ed pos) w (fun r _ => r.2.filename = ed.filename) :=
  Leads.lift fun _ _ => Leads.lift fun _ _ => Leads.bind Leads.any fun _ _ _ =>
    Leads.lift fun _ _ =>
    Leads.pure rfl

theorem joinLines_filename (ed : Editor) (y : Nat) :
    Leads (joinLines ed y) w (fun r _ => r.2.filename = ed.filename) := by
  refine Leads.lift fun _ _ => Leads.lift fun _ _ => Leads.lift fun _ _ => Leads.bind Leads.any
    fun r _ _ => ?_
  refine Leads.lift fun _ _ => Leads.ite (fun _ => ?_) fun _ => Leads.pure rfl
  exact Leads.bind Leads.any fun _ _ _ => Leads.lift fun _ _ => Leads.pure rfl

theorem deleteBefore_filename (ed : Editor) :
    Leads (deleteBefore ed) w (fun r _ => r.2.filename = ed.filename) := by
  refine Leads.ite (fun _ => ?_) fun _ => Leads.ite (fun _ => Leads.lift fun _ _ => ?_) fun _ =>
    Leads.pure rfl
  · refine Leads.bind (deleteInLine_filename ed _) fun r _ h => Leads.pure ?_
    cases r.1 <;> exact h
  · refine Leads.bind (joinLines_filename ed _) fun r _ h => Leads.pure ?_
    cases r.1 <;> exact h

theorem deleteAt_filename (ed : Editor) :
    Leads (deleteAt ed) w (fun r _ => r.2.filename = ed.filename) :=
  Leads.lift fun _ _ => Leads.ite (fun _ => deleteInLine_filename ed _) fun _ =>
    Leads.ite (fun _ => joinLines_filename ed _) fun _ => Leads.pure rfl

/-- **No operation changes the name.** -/
theorem exec_filename (ed : Editor) (op : Op) :
    Leads (exec ed op) w (fun ed' _ => ed'.filename = ed.filename) := by
  cases op with
  | insertChar a =>
    refine Leads.bind (editorPushUndo_filename ed) fun r _ h => Leads.lift fun _ _ =>
      Leads.lift fun _ _ => ?_
    refine Leads.bind Leads.any fun r' _ _ => Leads.lift fun _ _ => ?_
    refine Leads.ite (fun _ => ?_) fun _ => ?_
    · exact (finish_filename r.1 true _).mono fun _ _ h' => h'.trans h
    · exact (finish_filename r.1 false _).mono fun _ _ h' => h'.trans h
  | insertNewline =>
    refine Leads.bind (editorPushUndo_filename ed) fun r _ h => Leads.bind Leads.any fun new _ _ =>
      ?_
    cases new with
    | none => exact (finish_filename r.1 false _).mono fun _ _ h' => h'.trans h
    | some new =>
      refine Leads.lift fun _ _ => Leads.lift fun _ _ => Leads.bind Leads.any fun r' _ _ =>
        Leads.lift fun _ _ => ?_
      refine Leads.ite (fun _ => ?_) fun _ => Leads.bind Leads.any fun _ _ _ => ?_
      · refine Leads.lift fun _ _ => Leads.bind Leads.any fun _ _ _ => Leads.lift fun _ _ =>
          Leads.lift fun _ _ => ?_
        exact (finish_filename r.1 true _).mono fun _ _ h' => h'.trans h
      · exact (finish_filename r.1 false _).mono fun _ _ h' => h'.trans h
  | deleteBackward =>
    refine Leads.bind (editorPushUndo_filename ed) fun r _ h => ?_
    refine Leads.bind (deleteBefore_filename r.2) fun r' _ h' => ?_
    exact (finish_filename r.1 r'.1 r'.2).mono fun _ _ h'' => h''.trans (h'.trans h)
  | deleteForward =>
    refine Leads.bind (editorPushUndo_filename ed) fun r _ h => ?_
    refine Leads.bind (deleteAt_filename r.2) fun r' _ h' => ?_
    exact (finish_filename r.1 r'.1 r'.2).mono fun _ _ h'' => h''.trans (h'.trans h)
  | moveCursor key =>
    refine Leads.lift fun ed' hmove => Leads.pure ?_
    obtain ⟨x, y, rfl⟩ := moveByKey_shape hmove
    rfl
  | undo =>
    refine Leads.ite (fun _ => Leads.pure rfl) fun _ => ?_
    refine Leads.bind (exchangeStates_shape ed _ _ _ _) fun r _ ⟨st, h⟩ => Leads.pure ?_
    rw [h]
    rfl
  | redo =>
    refine Leads.ite (fun _ => Leads.pure rfl) fun _ => ?_
    refine Leads.bind (exchangeStates_shape ed _ _ _ _) fun r _ ⟨st, h⟩ => Leads.pure ?_
    rw [h]
    rfl

/-! ### Freeing and loading -/

/-- **`editor_free`** of a usable editor. -/
theorem Editor.Usable.free (h : ed.Usable) (w : World) :
    Meets (editorFree ed) w (fun _ w' => w'.refusals = w.refusals) := by
  obtain ⟨s, hs⟩ | ⟨v, hv⟩ := h
  · exact editorFree_spec hs
  · have hlines : HoldLines ed.lines ed.numLines v.caret.lines := hv.state.lines
    refine editorFree_of hlines.freeable ?_ ?_
    · rw [hv.undoStack]
      exact freeableStack_null _
    · rw [hv.redoStack]
      exact freeableStack_null _

/-- What `editor_init` leaves, besides the text. -/
structure Editor.Fresh (ed : Editor) : Prop where
  cursor : ed.cursorX = 0 ∧ ed.cursorY = 0 ∧ ed.scrollX = 0 ∧ ed.scrollY = 0
  filename : ed.filename = none
  history : (HoldStack ed.undoStack ed.undoTop .empty ∧ HoldStack ed.redoStack ed.redoTop .empty) ∨
    (ed.undoStack = none ∧ ed.undoTop = -1 ∧ ed.redoStack = none ∧ ed.redoTop = -1)

theorem Editor.Fresh.freeable (h : ed.Fresh) :
    FreeableStack ed.undoStack ed.undoTop ∧ FreeableStack ed.redoStack ed.redoTop := by
  obtain ⟨hu, hr⟩ | ⟨hu, -, hr, -⟩ := h.history
  · exact ⟨fun _ => freeStack_spec hu, fun _ => freeStack_spec hr⟩
  · rw [hu, hr]
    exact ⟨freeableStack_null _, freeableStack_null _⟩

theorem Editor.Fresh.usable (h : ed.Fresh) {lines : Option (Block Line)} {n : Nat} {ts : List Text}
    (hlines : HoldLines lines n ts) (hne : ts ≠ []) (filename : Option (Block UInt8))
    (modified nl : Bool) :
    Editor.Usable { ed with
      lines := lines
      numLines := n
      filename := filename
      modified := modified
      fileEndsWithNewline := nl } := by
  obtain ⟨t, below, rfl⟩ := List.exists_cons_of_ne_nil hne
  obtain ⟨hx, hy, hsx, hsy⟩ := h.cursor
  have hstate : EditorState.Holds ⟨lines, n, ed.cursorX, ed.cursorY, ed.scrollX, ed.scrollY⟩
      (.scrolled ⟨[], [], t, below⟩ 0 0) := ⟨hlines, hx, hy, hsx, hsy⟩
  obtain ⟨hu, hr⟩ | ⟨hu, hut, hr, hrt⟩ := h.history
  · exact Or.inl ⟨⟨_, modified, .empty, .empty⟩, hstate, rfl, hu, hr⟩
  · exact Or.inr ⟨_, hstate, hu, hut, hr, hrt⟩

/-- **`editor_init`** with memory for the text. -/
theorem editorInit_fresh (h : GrantsText w) (u : Editor) : Meets (editorInit u) w (fun ed _ =>
    ed.Fresh ∧ ∃ ts, ts ≠ [] ∧ HoldLines ed.lines ed.numLines ts) := by
  have hcap : 1 ≤ maxRequest := by decide
  have hroom : 1 * lineSize ≤ maxRequest := by decide
  have hlines : ∀ id1 id2, HoldLines (some ⟨id1, [some ⟨some ⟨id2, [some 0]⟩, 0, 1⟩]⟩) 1 [[]] :=
    fun id1 id2 =>
    ⟨id1, [_], [], rfl, .cons ⟨⟨id2, [], rfl, rfl⟩, rfl, hcap⟩ .nil, rfl, hroom⟩
  unfold Meets editorInit
  rw [kmalloc_bind h.1 (by decide)]
  dsimp only
  rw [kmalloc_bind h.2 (by decide)]
  refine Meets.lift rfl (Meets.lift rfl ?_)
  refine Meets.seq (Meets.request (fun id3 w3 _ _ _ => ?_) fun w3 _ => ?_)
  · refine Meets.seq (Meets.request (fun id4 w4 _ _ _ => ?_) fun w4 _ => ?_)
    · exact Meets.pure
        ⟨⟨⟨rfl, rfl, rfl, rfl⟩, rfl, Or.inl ⟨HoldStack.fresh id3, HoldStack.fresh id4⟩⟩,
        [[]], List.cons_ne_nil _ _, hlines _ _⟩
    · refine Meets.seq (Meets.release fun w5 _ => Meets.seq (Meets.release fun w6 _ => ?_))
      exact Meets.pure ⟨⟨⟨rfl, rfl, rfl, rfl⟩, rfl, Or.inr ⟨rfl, rfl, rfl, rfl⟩⟩, [[]],
        List.cons_ne_nil _ _, hlines _ _⟩
  · refine Meets.seq (Meets.request (fun id4 w4 _ _ _ => ?_) fun w4 _ => ?_)
    all_goals
      refine Meets.seq (Meets.release fun w5 _ => Meets.seq (Meets.release fun w6 _ => ?_))
      exact Meets.pure ⟨⟨⟨rfl, rfl, rfl, rfl⟩, rfl, Or.inr ⟨rfl, rfl, rfl, rfl⟩⟩, [[]],
        List.cons_ne_nil _ _, hlines _ _⟩

/-- The name, if there is one, is a string. -/
def Editor.Named (ed : Editor) : Prop :=
  ∀ b ∈ ed.filename, ∃ (k : Nat) (path : Bytes), b = ⟨k, path.map some ++ [some 0]⟩

theorem kmalloc_size {α : Type} (item size : Nat) : Leads (kmalloc (α := α) item size) w (fun b _ =>
    ∀ b' ∈ b, b'.cells.length = size % 4294967296 / item) := by
  refine Leads.of_meets (Meets.request (fun id w1 _ _ _ b hb => ?_) fun w1 _ b hb => by cases hb)
  obtain rfl := Option.some.inj hb
  exact List.length_replicate

/-- A path that wraps the size of the copy does not fit into it. -/
theorem myStrdup_named (s : Bytes) : Leads (myStrdup s) w (fun b _ =>
    ∀ b' ∈ b, ∃ (k : Nat) (path : Bytes), b' = ⟨k, path.map some ++ [some 0]⟩) := by
  by_cases hlt : s.length + 1 < 4294967296
  · refine (Leads.of_meets (myStrdup_at hlt)).mono fun b _ ⟨_, h⟩ b' hb => ?_
    obtain ⟨k, rfl⟩ := h b' hb
    exact ⟨k, s, rfl⟩
  · unfold myStrdup
    refine Leads.bind (kmalloc_size 1 (s.length + 1)) fun b w1 hb => ?_
    cases b with
    | none => exact Leads.pure fun _ h => by cases h
    | some b =>
      refine Leads.lift fun b' hcopy => ?_
      obtain ⟨⟨-, hroom⟩, -⟩ := Block.copy_some hcopy
      have hsize := hb b rfl
      rw [Nat.div_one] at hsize
      have hmod := Nat.mod_lt (s.length + 1) (show 0 < 4294967296 by decide)
      omega

/-- **The rest of `editor_load`** leaves the caller's editor, or one with the lines of the file. -/
theorem loadInto_usable {newEd : Editor} (hnew : newEd.Fresh) (path : Bytes) {buf : Block UInt8}
    {bytes : Text} (hbuf : buf.cells = bytes.map some ++ [some 0])
    (hsize : bytes.length < maxRequest) :
    Leads (loadInto ed newEd path buf bytes.length) w (fun r _ =>
      (r.1 = false → r.2 = ed) ∧ (r.1 = true → r.2.Usable ∧ r.2.Named)) := by
  unfold loadInto
  refine Leads.lift fun ends _ =>
    Leads.bind (Leads.of_meets (editorParseBuffer_spec newEd hbuf hsize ends)) ?_
  intro r w1 ⟨_, _, lines, n, nl, hed, hok⟩
  refine Leads.bind Leads.any fun _ w2 _ => Leads.ite (fun htrue => ?_) fun _ => ?_
  · refine Leads.bind Leads.any fun _ w3 _ => Leads.bind (myStrdup_named path) fun b w4 hb =>
      Leads.pure ?_
    refine ⟨fun hf => absurd hf (by simp), fun _ => ⟨?_, hb⟩⟩
    rw [hed]
    exact hnew.usable (hok htrue).1 (fileLines_ne_nil bytes) b false nl
  · exact Leads.bind Leads.any fun _ w3 _ =>
      Leads.pure ⟨fun _ => rfl, fun hf => absurd hf (by simp)⟩

end

end CobraOS.Snake
