import CobraOS.Snake.FlatText
import CobraOS.Snake.Supplied

/-!
# Edits of the flat text

Every edit is the edit of the flat text that its name says (`edits_refine`): characters are put in
at the offset and erased before or after it, whatever happens to the lines.  It does nothing when a
request of the edit itself is refused.  A refused snapshot does not stop it (`snapshot_refused`),
but the edit cannot be undone.  That holds in every run that is supplied, after any loads and saves.
-/

namespace CobraOS.Snake

open Base

/-- The flat text and the offset of a caret. -/
def FlatAt (c : Caret UInt8) (T : Text) (q : Nat) : Prop :=
  c.flatBefore newlineChar ++ c.flatAfter newlineChar = T ∧ (c.flatBefore newlineChar).length = q

theorem FlatAt.take {c : Caret UInt8} {T : Text} {q : Nat} (h : FlatAt c T q) :
    T.take q = c.flatBefore newlineChar ∧ T.drop q = c.flatAfter newlineChar := by
  obtain ⟨rfl, rfl⟩ := h
  exact ⟨List.take_left, List.drop_left⟩

/-! ### The edits of a caret -/

section

variable {k : Caret UInt8} {T : Text} {q : Nat}

theorem FlatAt.insert (h : FlatAt k T q) (c : UInt8) :
    FlatAt (k.insert c) (T.take q ++ c :: T.drop q) (q + 1) := by
  obtain ⟨htake, hdrop⟩ := h.take
  obtain ⟨h1, h2⟩ := k.insert_flat (s := newlineChar) c
  rw [htake, hdrop, ← h.2]
  exact ⟨by rw [h1, h2]; simp, by rw [h1]; simp⟩

theorem FlatAt.newline (h : FlatAt k T q) :
    FlatAt k.newline (T.take q ++ newlineChar :: T.drop q) (q + 1) := by
  obtain ⟨htake, hdrop⟩ := h.take
  obtain ⟨h1, h2⟩ := k.newline_flat (s := newlineChar)
  rw [htake, hdrop, ← h.2]
  exact ⟨by rw [h1, h2]; simp, by rw [h1]; simp⟩

theorem FlatAt.eraseBefore (h : FlatAt k T q) :
    FlatAt (k.eraseBefore.getD k) (T.take (q - 1) ++ T.drop q) (q - 1) := by
  rw [h.take.2, ← h.1, ← h.2]
  cases he : k.eraseBefore with
  | none =>
    have h1 := Caret.eraseBefore_none (s := newlineChar) he
    exact ⟨by simp [h1], by simp [h1]⟩
  | some c' =>
    obtain ⟨a, h1, h2⟩ := Caret.eraseBefore_flat (s := newlineChar) he
    exact ⟨by simp [h1, h2], by simp [h1]⟩

theorem FlatAt.eraseAt (h : FlatAt k T q) :
    FlatAt (k.eraseAt.getD k) (T.take q ++ T.drop (q + 1)) q := by
  rw [h.take.1, ← h.1, ← h.2]
  cases he : k.eraseAt with
  | none =>
    have h1 := Caret.eraseAt_none (s := newlineChar) he
    exact ⟨by simp [h1], rfl⟩
  | some c' =>
    obtain ⟨a, h1, h2⟩ := Caret.eraseAt_flat (s := newlineChar) he
    exact ⟨by simp [h1, h2], by rw [Option.getD_some, h2]⟩

end

/-! ### The edits of an editor -/

/-- No undo entry is added or taken. -/
def SameUndo (ed ed' : Editor) : Prop := ed'.undoStack = ed.undoStack ∧ ed'.undoTop = ed.undoTop

/-- What an operation does to the flat text: it becomes `T'` with the caret at `q'`, or stays as it
is when a request after the snapshot is refused.  When the snapshot is refused, it adds no undo
entry. -/
def EditsTo (ed : Editor) (w : World) (op : Op) (T' : Text) (q' : Nat) : Prop :=
  ∃ snap ed1 w1 ed' w', editorPushUndo ed w = some ((snap, ed1), w1) ∧ Outcome w w1 snap ∧
    exec ed op w = some (ed', w') ∧
    (w'.refusals = w1.refusals → ed'.flat = T' ∧ ed'.offset = q') ∧
    (w'.refusals ≠ w1.refusals → ed'.flat = ed.flat ∧ ed'.offset = ed.offset) ∧
    (snap = false → SameUndo ed ed')

/-- The caret moves to `q'`, and the text stays. -/
def MovesTo (ed : Editor) (w : World) (op : Op) (q' : Nat) : Prop :=
  ∃ ed' w', exec ed op w = some (ed', w') ∧ ed'.flat = ed.flat ∧ ed'.offset = q'

section

variable {w : World} {ed : Editor} {v : View} {op : Op}

theorem editorPushUndo_false (ed : Editor) :
    Leads (editorPushUndo ed) w (fun r _ => r.1 = false → r.2 = ed) := by
  unfold editorPushUndo
  refine Leads.bind Leads.any fun st w1 _ => Leads.ite (fun _ => Leads.pure fun _ => rfl) fun _ =>
    ?_
  exact Leads.bind Leads.any fun _ _ _ => Leads.pure fun hf => absurd hf (by simp)

theorem finish_undo {ok : Bool} {ed' : Editor} (h : SameUndo ed ed') :
    Leads (if ok then editorChanged ed' else discardIf false ed') w
      (fun ed'' _ => SameUndo ed ed'') := by
  unfold editorChanged editorClearRedo discardIf
  refine Leads.ite (fun _ => ?_) fun _ => Leads.pure h
  exact Leads.bind (Leads.bind Leads.any fun _ _ _ => Leads.pure h) fun _ _ h' => Leads.pure h'

theorem edit_caret (s : Session) (snap : Bool) (o : Option (Caret UInt8)) :
    (s.edit snap o).view.caret = o.getD s.view.caret := by
  cases o <;> rfl

theorem exec_holds {s : Session} (h : ed.Holds s) (hop : op.Saves) :
    ∃ snap ed1 w1, editorPushUndo ed w = some ((snap, ed1), w1) ∧ Outcome w w1 snap ∧
      Meets (exec ed op) w (fun ed' w' => ∃ room, Outcome w1 w' room ∧
        ed'.At ((editCaret s.view.caret room op).getD s.view.caret) ∧
          (snap = false → SameUndo ed ed')) := by
  obtain ⟨⟨snap, ed1⟩, w1, hpush, ho, h1⟩ := editorPushUndo_spec (w := w) h
  refine ⟨snap, ed1, w1, hpush, ho, exec_edits hop hpush h1.at fun ok ed2 w2 room hroom he => ?_⟩
  obtain ⟨ed3, w3, hrun, hw, h3⟩ := finish_spec (w := w2) h1 he
  have hat := h3.at
  rw [edit_caret] at hat
  refine ⟨ed3, w3, hrun, room, hroom.then hw, hat, fun hsnap => ?_⟩
  subst hsnap
  obtain rfl : ed1 = ed := editorPushUndo_false ed _ _ hpush rfl
  exact finish_undo ⟨he.1.undoStack, he.1.undoTop⟩ _ _ hrun

theorem exec_bare (h : ed.Bare v) (hop : op.Saves) (hno : SnapshotRefused ed.numLines w) :
    ∃ w1, editorPushUndo ed w = some ((false, ed), w1) ∧ Outcome w w1 false ∧
      Meets (exec ed op) w (fun ed' w' => ∃ room, Outcome w1 w' room ∧
        ed'.At ((editCaret v.caret room op).getD v.caret) ∧ (false = false → SameUndo ed ed')) := by
  obtain ⟨w1, hpush, ho, hmeets⟩ := (exec_edits hop).bare h hno
  refine ⟨w1, hpush, ho, hmeets.mono fun ed' w' ⟨room, hroom, hafter⟩ => ⟨room, hroom, ?_⟩⟩
  have hbare : ∃ v', ed'.Bare v' ∧ v'.caret = (editCaret v.caret room op).getD v.caret := by
    cases ho : editCaret v.caret room op with
    | some c =>
      rw [ho] at hafter
      exact ⟨_, hafter, rfl⟩
    | none =>
      rw [ho] at hafter
      exact ⟨_, hafter.1, rfl⟩
  obtain ⟨v', h', hcaret⟩ := hbare
  rw [← hcaret]
  exact ⟨⟨h'.state.lines, h'.state.cursorX, h'.state.cursorY⟩, fun _ =>
    ⟨h'.undoStack.trans h.undoStack.symm, h'.undoTop.trans h.undoTop.symm⟩⟩

/-- **An edit of a usable editor** that is supplied, in terms of carets. -/
theorem exec_caret (h : ed.Usable) (hop : op.Saves)
    (hs : ed.undoStack.isSome ∨ SnapshotRefused ed.numLines w) :
    ∃ c snap ed1 w1, ed.At c ∧ editorPushUndo ed w = some ((snap, ed1), w1) ∧ Outcome w w1 snap ∧
      Meets (exec ed op) w (fun ed' w' => ∃ room, Outcome w1 w' room ∧
        ed'.At ((editCaret c room op).getD c) ∧ (snap = false → SameUndo ed ed')) := by
  obtain ⟨s, hs⟩ | ⟨v, hv⟩ := h
  · obtain ⟨snap, ed1, w1, hpush, ho, hm⟩ := exec_holds (w := w) hs hop
    exact ⟨_, snap, ed1, w1, hs.at, hpush, ho, hm⟩
  · have hno := hs.resolve_left (by rw [hv.undoStack]; simp)
    obtain ⟨w1, hpush, ho, hm⟩ := exec_bare hv hop hno
    exact ⟨_, false, ed, w1, ⟨hv.state.lines, hv.state.cursorX, hv.state.cursorY⟩, hpush, ho, hm⟩

theorem editsTo_of {T' : Text} {q' : Nat} (h : ed.Usable) (hop : op.Saves)
    (hs : ed.undoStack.isSome ∨ SnapshotRefused ed.numLines w)
    (hno : ∀ c, editCaret c false op = none)
    (hyes : ∀ c, FlatAt c ed.flat ed.offset → FlatAt ((editCaret c true op).getD c) T' q') :
    EditsTo ed w op T' q' := by
  obtain ⟨c, snap, ed1, w1, hc, hpush, ho, ed', w', hrun, room, hroom, hat, hundo⟩ :=
    exec_caret h hop hs
  refine ⟨snap, ed1, w1, ed', w', hpush, ho, hrun, fun heq => ?_, fun hne => ?_, hundo⟩
  · obtain rfl : room = true := by
      rcases hroom with ⟨hr, -⟩ | ⟨-, hlt⟩
      · exact hr
      · exact absurd heq (by omega)
    have hyes := hyes c ⟨hc.flat.symm, hc.offset.symm⟩
    exact ⟨hat.flat.trans hyes.1, hat.offset.trans hyes.2⟩
  · obtain rfl : room = false := by
      rcases hroom with ⟨-, heq⟩ | ⟨hr, -⟩
      · exact absurd heq hne
      · exact hr
    rw [hno] at hat
    exact ⟨hat.flat.trans hc.flat.symm, hat.offset.trans hc.offset.symm⟩

theorem moveCursor_caret (h : ed.Usable) (key : SpecialKey) : ∃ c ed' w', ed.At c ∧
    exec ed (.moveCursor key) w = some (ed', w') ∧ ed'.At (keyCaret c key) := by
  obtain ⟨s, hs⟩ | ⟨v, hv⟩ := h
  · obtain ⟨ed', w', hr, -, hs'⟩ := editorMoveCursor_spec (w := w) hs key
    exact ⟨_, ed', w', hs.at, hr, hs'.at⟩
  · obtain ⟨ed', w', hr, hv'⟩ := editorMoveCursor_bare (w := w) hv key
    exact ⟨_, ed', w', ⟨hv.state.lines, hv.state.cursorX, hv.state.cursorY⟩, hr,
      ⟨hv'.state.lines, hv'.state.cursorX, hv'.state.cursorY⟩⟩

end

section

variable {p₀ p : EditorMemory × World} {w₀ : World} {us : List Use}

/-- **The editor refines a flat text with a caret**, after every run that is supplied. -/
theorem edits_refine (hw₀ : w₀.Covered) (h₀ : GrantsText w₀)
    (hinit : unwritten.editorInit w₀ = some p₀) (hrun : (inMemory.restrict Supplied).Run p₀ us p) :
    ∃ ed, p.1 = Editor.memory ed ∧
    (∀ c, Supplied p (.op (.insertChar c)) → EditsTo ed p.2 (.insertChar c)
      (ed.flat.take ed.offset ++ c :: ed.flat.drop ed.offset) (ed.offset + 1)) ∧
    (Supplied p (.op .insertNewline) → EditsTo ed p.2 .insertNewline
      (ed.flat.take ed.offset ++ newlineChar :: ed.flat.drop ed.offset) (ed.offset + 1)) ∧
    (Supplied p (.op .deleteBackward) → EditsTo ed p.2 .deleteBackward
      (ed.flat.take (ed.offset - 1) ++ ed.flat.drop ed.offset) (ed.offset - 1)) ∧
    (Supplied p (.op .deleteForward) → EditsTo ed p.2 .deleteForward
      (ed.flat.take ed.offset ++ ed.flat.drop (ed.offset + 1)) ed.offset) ∧
    MovesTo ed p.2 (.moveCursor .left) (ed.offset - 1) ∧
    MovesTo ed p.2 (.moveCursor .right) (min (ed.offset + 1) ed.flat.length) := by
  have hsound : SoundMemory p :=
    hrun.induct (fun _ _ _ h hstep => h.step hstep.1 hstep.2) (.init hw₀ h₀ hinit)
  obtain ⟨m, w⟩ := p
  obtain ⟨ed, hm, hs⟩ := hsound
  obtain rfl : m = ed.memory := hm
  have hsup : ∀ {op : Op}, Supplied (ed.memory, w) (.op op) → op.Saves →
      ed.undoStack.isSome ∨ SnapshotRefused ed.numLines w := by
    intro op hu hop
    obtain ⟨stack, hstack⟩ | ⟨n, hn, hno⟩ := hu hop
    · exact Or.inl (by rw [Option.some.inj hstack]; rfl)
    · exact Or.inr (Option.some.inj hn ▸ hno)
  refine ⟨ed, rfl, fun c hu => ?_, fun hu => ?_, fun hu => ?_, fun hu => ?_, ?_, ?_⟩
  · exact editsTo_of hs.usable trivial (hsup hu trivial) (fun _ => rfl) fun k hk => hk.insert c
  · exact editsTo_of hs.usable trivial (hsup hu trivial) (fun _ => rfl) fun k hk => hk.newline
  · exact editsTo_of hs.usable trivial (hsup hu trivial) (fun _ => rfl) fun k hk => hk.eraseBefore
  · exact editsTo_of hs.usable trivial (hsup hu trivial) (fun _ => rfl) fun k hk => hk.eraseAt
  · obtain ⟨c, ed', w', hc, hr, hc'⟩ := moveCursor_caret (w := w) hs.usable .left
    refine ⟨ed', w', hr, ?_, hc'.offset.trans (Caret.left_flat.trans (by rw [hc.offset]))⟩
    rw [hc'.flat, hc.flat, ← Caret.flat_eq, ← Caret.flat_eq]
    exact congrArg _ Caret.lines_left
  · obtain ⟨c, ed', w', hc, hr, hc'⟩ := moveCursor_caret (w := w) hs.usable .right
    refine ⟨ed', w', hr, ?_, hc'.offset.trans (Caret.right_flat.trans (by rw [hc.offset, hc.flat]))⟩
    rw [hc'.flat, hc.flat, ← Caret.flat_eq, ← Caret.flat_eq]
    exact congrArg _ Caret.lines_right

end

/-- The file with the characters `ab` is loaded, and the next request will be refused. -/
def startedFull : EditorMemory × World := (unwritten.editorInit (refusing 12)).get (by decide)

def loadedFull : (Bool × EditorMemory) × World :=
  (startedFull.1.editorLoad oneFile (Ramfs.text "f") startedFull.2).get (by decide +kernel)

theorem startedFull_eq : unwritten.editorInit (refusing 12) = some startedFull :=
  (Option.some_get _).symm

theorem loadedFull_eq : startedFull.1.editorLoad oneFile (Ramfs.text "f") startedFull.2 =
    some loadedFull :=
  (Option.some_get _).symm

theorem load_run {q : EditorMemory × World} {r : (Bool × EditorMemory) × World} {fs : Ramfs.Fs}
    {path : Ramfs.Bytes} (hr : q.1.editorLoad fs path q.2 = some r)
    (hg : q.2.grants (q.2.calls + 1) = true ∧ q.2.grants (q.2.calls + 2) = true) :
    (inMemory.restrict Supplied).Run q [.load fs path] (r.1.2, r.2) :=
  .cons ⟨fun _ => hg, r.1.1, hr⟩ (.nil _)

/-- A letter is erased after the file has been loaded, and there is no snapshot of it. -/
theorem edits_refine_erased : ∃ ed, loadedFull.1.2 = Editor.memory ed ∧ ed.flat = [97, 98] ∧
    SnapshotRefused ed.numLines loadedFull.2 ∧ EditsTo ed loadedFull.2 .deleteForward [98] 0 := by
  have hcovered : (refusing 12).Covered := fun _ => le_rfl
  have hrefused : loadedFull.2.grants (loadedFull.2.calls + 0) = false := by decide +kernel
  have hread : loadedFull.1.2.read.map (fun ed => (ed.flat, ed.offset)) = some ([97, 98], 0) := by
    decide +kernel
  have hgrants : startedFull.2.grants (startedFull.2.calls + 1) = true ∧
      startedFull.2.grants (startedFull.2.calls + 2) = true := by decide +kernel
  have hall : ∀ r, startedFull.1.editorLoad oneFile (Ramfs.text "f") startedFull.2 = some r →
      ∃ ed, r.1.2 = Editor.memory ed ∧ (Supplied (r.1.2, r.2) (.op .deleteForward) →
        EditsTo ed r.2 .deleteForward (ed.flat.take ed.offset ++ ed.flat.drop (ed.offset + 1))
          ed.offset) := by
    intro r hr
    obtain ⟨ed, hm, -, -, -, hforward, -⟩ :=
      edits_refine hcovered ⟨by decide, by decide⟩ startedFull_eq (load_run hr hgrants)
    exact ⟨ed, hm, hforward⟩
  obtain ⟨ed, hm, hforward⟩ := hall _ loadedFull_eq
  rw [hm] at hread
  obtain ⟨hflat, hoffset⟩ := Prod.mk.inj (Option.some.inj hread)
  have hno : SnapshotRefused ed.numLines loadedFull.2 := ⟨0, Nat.zero_le _, hrefused⟩
  have hedits := hforward fun _ => .inr ⟨ed.numLines, by rw [hm]; rfl, hno⟩
  rw [hflat, hoffset] at hedits
  exact ⟨ed, hm, hflat, hno, hedits⟩

/-- **A refused snapshot does not stop the edit**: a request of `editor_insert_char` is refused, and
the text changes nevertheless. -/
theorem snapshot_refused : system.Reach (emptyText 4) ∧
    system.step (emptyText 4) (.insertChar 65) (typedA 4) ∧
    (typedA 4).2.refusals = (emptyText 4).2.refusals + 1 ∧
    (emptyText 4).1.flat = [] ∧ (typedA 4).1.flat = [65] ∧ (typedA 4).1.offset = 1 :=
  ⟨emptyText_reach, typedA_step, rfl, rfl, rfl, rfl⟩

end CobraOS.Snake
