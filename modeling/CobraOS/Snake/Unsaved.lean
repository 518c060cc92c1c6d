import CobraOS.Snake.Loaded
import CobraOS.Snake.Run

/-!
# Unsaved text

Every operation of the editor sets `modified` or leaves the text as it was (`exec_marks`), whatever
happens to its requests.  So in the event loop `modified` is set whenever the text differs from the
one last loaded or saved, and Ctrl+Q asks before it discards such a text.  Ctrl+O does not ask, nor
does `KEY_QUIT` (`Unasked`).  A run of `editor_run` loses nothing exactly when it never comes to one
of these (`nothing_lost_iff`).
-/

namespace CobraOS.Snake

open Base
open Ramfs (Fs Bytes)

/-! ### The text and `modified` -/

/-- The text and `modified` are as they were. -/
structure SameText (ed ed' : Editor) : Prop where
  lines : ed'.lines = ed.lines
  numLines : ed'.numLines = ed.numLines
  newline : ed'.fileEndsWithNewline = ed.fileEndsWithNewline
  modified : ed'.modified = ed.modified

theorem SameText.refl (ed : Editor) : SameText ed ed := ⟨rfl, rfl, rfl, rfl⟩

theorem SameText.trans {ed ed' ed'' : Editor} (h : SameText ed ed') (h' : SameText ed' ed'') :
    SameText ed ed'' :=
  ⟨h'.lines.trans h.lines, h'.numLines.trans h.numLines, h'.newline.trans h.newline,
    h'.modified.trans h.modified⟩

theorem SameText.texts {ed ed' : Editor} (h : SameText ed ed') : ed'.texts = ed.texts := by
  unfold Editor.texts
  rw [h.lines, h.numLines]

/-- What a file keeps of an editor. -/
structure Document where
  lines : List Text
  endsWithNewline : Bool
  deriving DecidableEq

def Editor.document (ed : Editor) : Document := ⟨ed.texts, ed.fileEndsWithNewline⟩

theorem SameText.document {ed ed' : Editor} (h : SameText ed ed') : ed'.document = ed.document := by
  show Document.mk ed'.texts ed'.fileEndsWithNewline = Document.mk ed.texts ed.fileEndsWithNewline
  rw [h.texts, h.newline]

/-- The text is as it was, or `modified` is set. -/
def Marked (ed ed' : Editor) : Prop := ed'.modified = true ∨ SameText ed ed'

section

variable {w : World} {ed : Editor}

theorem set_same {α : Type} {b b' : Block α} {i : Nat} {a : α} (hget : b.get i = some a)
    (hset : b.set i a = some b') : b' = b := by
  obtain ⟨hi, rfl⟩ := Block.set_some hset
  have hcell := Block.get_eq_some.mp hget
  rw [List.getElem?_eq_getElem hi, Option.some.injEq] at hcell
  rw [← hcell, List.set_getElem_self]

theorem editorPushUndo_same (ed : Editor) :
    Leads (editorPushUndo ed) w (fun r _ => SameText ed r.2) := by
  unfold editorPushUndo
  refine Leads.bind Leads.any fun st w1 _ => Leads.ite (fun _ => Leads.pure (.refl ed)) fun _ => ?_
  exact Leads.bind Leads.any fun _ _ _ => Leads.pure ⟨rfl, rfl, rfl, rfl⟩

theorem discardIf_same (pushed : Bool) (ed : Editor) :
    Leads (discardIf pushed ed) w (fun ed' _ => SameText ed ed') := by
  unfold discardIf editorDiscardLastUndo
  refine Leads.ite (fun _ => Leads.ite (fun _ => Leads.pure (.refl ed)) fun _ => ?_)
    fun _ => Leads.pure (.refl ed)
  exact Leads.lift fun _ _ => Leads.bind Leads.any fun _ _ _ => Leads.pure ⟨rfl, rfl, rfl, rfl⟩

theorem editorChanged_marks (ed : Editor) :
    Leads (editorChanged ed) w (fun ed' _ => ed'.modified = true) := by
  unfold editorChanged editorClearRedo
  exact Leads.bind (Leads.bind (Leads.any) fun _ _ _ => Leads.pure rfl) fun ed' _ h => Leads.pure h

/-! ### Lines that could not be changed -/

theorem lineReserve_failed (line : Line) (needed : Nat) :
    Leads (lineReserve line needed) w (fun r _ => r.1 = false → r.2 = line) := by
  unfold lineReserve
  refine Leads.ite (fun _ => Leads.pure fun _ => rfl) fun _ => Leads.lift fun newCap _ => ?_
  refine Leads.bind Leads.any fun newData w1 _ => ?_
  cases newData with
  | none => exact Leads.pure fun _ => rfl
  | some newData => exact Leads.bind Leads.any fun _ _ _ => Leads.pure fun hf => absurd hf (by simp)

theorem lineInsertChar_failed (line : Line) (pos : Nat) (c : UInt8) :
    Leads (lineInsertChar line pos c) w (fun r _ => r.1 = false → r.2 = line) := by
  unfold lineInsertChar
  refine Leads.ite (fun _ => Leads.pure fun _ => rfl) fun _ => ?_
  refine Leads.bind (lineReserve_failed line _) ?_
  rintro ⟨ok, line'⟩ w1 h
  refine Leads.ite (fun _ => ?_) fun hok => Leads.pure fun _ => h (by simpa using hok)
  exact Leads.lift fun _ _ => Leads.lift fun _ _ => Leads.lift fun _ _ =>
    Leads.pure fun hf => absurd hf (by simp)

theorem lineDeleteChar_failed (line : Line) (pos : Nat) :
    Leads (lineDeleteChar line pos) w (fun r _ => r.1 = false → r.2 = line) := by
  unfold lineDeleteChar
  refine Leads.ite (fun _ => Leads.pure fun _ => rfl) fun _ => ?_
  exact Leads.lift fun _ _ => Leads.lift fun _ _ => Leads.pure fun hf => absurd hf (by simp)

theorem lineSplit_failed (line : Line) (pos : Nat) :
    Leads (lineSplit line pos) w (fun r _ => r.1 = false → r.2.1 = line) := by
  unfold lineSplit
  refine Leads.ite (fun _ => Leads.pure fun _ => rfl) fun _ => Leads.bind Leads.any ?_
  rintro ⟨ok, newLine⟩ w1 -
  refine Leads.ite (fun _ => ?_) fun _ => Leads.pure fun _ => rfl
  exact Leads.lift fun _ _ => Leads.lift fun _ _ => Leads.lift fun _ _ => Leads.lift fun _ _ =>
    Leads.lift fun _ _ => Leads.pure fun hf => absurd hf (by simp)

theorem lineJoin_failed (dest src : Line) :
    Leads (lineJoin dest src) w (fun r _ => r.1 = false → r.2 = dest) := by
  unfold lineJoin
  refine Leads.bind (lineReserve_failed dest _) ?_
  rintro ⟨ok, dest'⟩ w1 h
  refine Leads.ite (fun _ => ?_) fun hok => Leads.pure fun _ => h (by simpa using hok)
  exact Leads.lift fun _ _ => Leads.lift fun _ _ => Leads.lift fun _ _ => Leads.lift fun _ _ =>
    Leads.pure fun hf => absurd hf (by simp)

/-! ### Edits -/

theorem editorInsertChar_marks (ed : Editor) (c : UInt8) :
    Leads (editorInsertChar ed c) w (fun ed' _ => Marked ed ed') := by
  unfold editorInsertChar
  refine Leads.bind (editorPushUndo_same ed) ?_
  rintro ⟨pushed, ed1⟩ w1 h1
  refine Leads.lift fun lines hlines => Leads.lift fun line hline => ?_
  refine Leads.bind (lineInsertChar_failed line _ c) ?_
  rintro ⟨ok, line'⟩ w2 hfail
  refine Leads.lift fun lines' hset => ?_
  cases ok with
  | true => exact (editorChanged_marks _).mono fun _ _ h => Or.inl h
  | false =>
    obtain rfl : line' = line := hfail rfl
    obtain rfl := set_same hline hset
    have hsame : SameText ed1 { ed1 with lines := some lines' } := ⟨hlines.symm, rfl, rfl, rfl⟩
    exact (discardIf_same _ _).mono fun _ _ h => Or.inr (h1.trans (hsame.trans h))

theorem editorInsertNewline_marks (ed : Editor) :
    Leads (editorInsertNewline ed) w (fun ed' _ => Marked ed ed') := by
  unfold editorInsertNewline
  refine Leads.bind (editorPushUndo_same ed) ?_
  rintro ⟨pushed, ed1⟩ w1 h1
  refine Leads.bind Leads.any fun newLines w2 _ => ?_
  cases newLines with
  | none => exact (discardIf_same _ _).mono fun _ _ h => Or.inr (h1.trans h)
  | some newLines =>
    refine Leads.lift fun lines hlines => Leads.lift fun current hcurrent => ?_
    refine Leads.bind (lineSplit_failed current _) ?_
    rintro ⟨ok, current', newLine⟩ w3 hfail
    refine Leads.lift fun lines' hset => ?_
    cases ok with
    | true =>
      refine Leads.lift fun _ _ => Leads.bind Leads.any fun _ _ _ => Leads.lift fun _ _ =>
        Leads.lift fun _ _ => ?_
      exact (editorChanged_marks _).mono fun _ _ h => Or.inl h
    | false =>
      obtain rfl : current' = current := hfail rfl
      obtain rfl := set_same hcurrent hset
      refine Leads.bind Leads.any fun _ w4 _ => ?_
      have hsame : SameText ed1 { ed1 with lines := some lines' } := ⟨hlines.symm, rfl, rfl, rfl⟩
      exact (discardIf_same _ _).mono fun _ _ h => Or.inr (h1.trans (hsame.trans h))

theorem joinLines_failed (ed : Editor) (y : Nat) :
    Leads (joinLines ed y) w (fun r _ => r.1 = false → SameText ed r.2) := by
  unfold joinLines
  refine Leads.lift fun lines hlines => Leads.lift fun dest hdest => Leads.lift fun src _ => ?_
  refine Leads.bind (lineJoin_failed dest src) ?_
  rintro ⟨ok, dest'⟩ w1 hfail
  refine Leads.lift fun lines' hset => ?_
  cases ok with
  | true =>
    exact Leads.bind Leads.any fun _ _ _ => Leads.lift fun _ _ =>
      Leads.pure fun hf => absurd hf (by simp)
  | false =>
    obtain rfl : dest' = dest := hfail rfl
    obtain rfl := set_same hdest hset
    exact Leads.pure fun _ => ⟨hlines.symm, rfl, rfl, rfl⟩

theorem deleteInLine_failed (ed : Editor) (pos : Nat) :
    Leads (deleteInLine ed pos) w (fun r _ => r.1 = false → SameText ed r.2) := by
  unfold deleteInLine
  refine Leads.lift fun lines hlines => Leads.lift fun line hline => ?_
  refine Leads.bind (lineDeleteChar_failed line pos) ?_
  rintro ⟨ok, line'⟩ w1 hfail
  refine Leads.lift fun lines' hset => Leads.pure fun hok => ?_
  obtain rfl : line' = line := hfail hok
  obtain rfl := set_same hline hset
  exact ⟨hlines.symm, rfl, rfl, rfl⟩

theorem deleteBefore_failed (ed : Editor) :
    Leads (deleteBefore ed) w (fun r _ => r.1 = false → SameText ed r.2) := by
  unfold deleteBefore
  refine Leads.ite (fun _ => ?_) fun _ => Leads.ite (fun _ => ?_) fun _ => Leads.pure fun _ =>
    .refl ed
  · refine Leads.bind (deleteInLine_failed ed _) ?_
    rintro ⟨ok, ed1⟩ w1 hfail
    refine Leads.pure fun hok => ?_
    obtain rfl : ok = false := hok
    exact hfail rfl
  · refine Leads.lift fun prevLen _ => Leads.bind (joinLines_failed ed _) ?_
    rintro ⟨ok, ed1⟩ w1 hfail
    refine Leads.pure fun hok => ?_
    obtain rfl : ok = false := hok
    exact hfail rfl

theorem deleteAt_failed (ed : Editor) :
    Leads (deleteAt ed) w (fun r _ => r.1 = false → SameText ed r.2) := by
  unfold deleteAt
  refine Leads.lift fun len _ => Leads.ite (fun _ => deleteInLine_failed ed _) fun _ => ?_
  exact Leads.ite (fun _ => joinLines_failed ed _) fun _ => Leads.pure fun _ => .refl ed

theorem delete_marks {change : Editor → Alloc (Bool × Editor)} (ed : Editor)
    (h : ∀ ed w, Leads (change ed) w (fun r _ => r.1 = false → SameText ed r.2)) :
    Leads (editorPushUndo ed >>= fun r => change r.2 >>= fun r' =>
      if r'.1 then editorChanged r'.2 else discardIf r.1 r'.2) w (fun ed' _ => Marked ed ed') := by
  refine Leads.bind (editorPushUndo_same ed) ?_
  rintro ⟨pushed, ed1⟩ w1 h1
  refine Leads.bind (h ed1 w1) ?_
  rintro ⟨changed, ed2⟩ w2 h2
  cases changed with
  | true => exact (editorChanged_marks ed2).mono fun _ _ h => Or.inl h
  | false =>
    exact (discardIf_same pushed ed2).mono fun _ _ h => Or.inr ((h1.trans (h2 rfl)).trans h)

/-! ### Moves, undo and redo -/

theorem moveToLine_shape {y : Nat} {ed' : Editor} (h : moveToLine ed y = some ed') :
    ∃ x y, ed' = { ed with cursorX := x, cursorY := y } := by
  unfold moveToLine at h
  obtain ⟨len, -, hed⟩ := Option.bind_eq_some_iff.mp h
  exact ⟨_, _, (Option.some.inj hed).symm⟩

theorem moveByKey_shape {key : SpecialKey} {ed' : Editor} (h : moveByKey ed key = some ed') :
    ∃ x y, ed' = { ed with cursorX := x, cursorY := y } := by
  have hcursor : ∀ {x y : Nat}, some { ed with cursorX := x, cursorY := y } = some ed' →
      ∃ x y, ed' = { ed with cursorX := x, cursorY := y } :=
    fun he => ⟨_, _, (Option.some.inj he).symm⟩
  have hlen : ∀ {y : Nat} {f : Nat → Option Editor}, (lineLen ed y).bind f = some ed' →
      (∀ len, f len = some ed' → ∃ x y, ed' = { ed with cursorX := x, cursorY := y }) →
      ∃ x y, ed' = { ed with cursorX := x, cursorY := y } := by
    intro y f hb hf
    obtain ⟨len, -, hed⟩ := Option.bind_eq_some_iff.mp hb
    exact hf len hed
  unfold moveByKey at h
  cases key with
  | left =>
    dsimp only at h
    split at h
    · exact hcursor h
    · split at h
      · exact hlen h fun len he => hcursor he
      · exact hcursor h
  | right =>
    refine hlen h fun len he => ?_
    split at he
    · exact hcursor he
    · split at he
      · exact hcursor he
      · exact hcursor he
  | up =>
    dsimp only at h
    split at h
    · exact moveToLine_shape h
    · exact hcursor h
  | down =>
    dsimp only at h
    split at h
    · exact moveToLine_shape h
    · exact hlen h fun len he => hcursor he
  | home => exact hcursor h
  | «end» => exact hlen h fun len he => hcursor he
  | pageUp => exact moveToLine_shape h
  | pageDown => exact moveToLine_shape h
  | _ => exact hcursor h

theorem editorMoveCursor_same (ed : Editor) (key : SpecialKey) :
    Leads (editorMoveCursor ed key) w (fun ed' _ => SameText ed ed') := by
  unfold editorMoveCursor
  refine Leads.lift fun ed1 h => Leads.pure ?_
  obtain ⟨x, y, rfl⟩ := moveByKey_shape h
  exact ⟨rfl, rfl, rfl, rfl⟩

/-- The state that comes back is a modified text. -/
theorem exchangeStates_marks (ed : Editor) (src : Option (Block EditorState)) (srcTop : Int)
    (dst : Option (Block EditorState)) (dstTop : Int) :
    Leads (exchangeStates ed src srcTop dst dstTop) w (fun r _ => r.1.modified = true) := by
  have hrestore : ∀ {w : World} (ed : Editor) (st : EditorState),
      Leads (editorStateRestore ed st) w (fun r _ => r.1.modified = true) := by
    intro w ed st
    unfold editorStateRestore
    cases ed.lines with
    | none =>
      refine Leads.ite (fun _ => ?_) fun _ => ?_
      · exact Leads.bind Leads.any fun _ _ _ => Leads.pure rfl
      · intro r w' hr
        cases hr
    | some lines =>
      exact Leads.bind Leads.any fun _ _ _ => Leads.bind Leads.any fun _ _ _ => Leads.pure rfl
  unfold exchangeStates
  refine Leads.bind Leads.any fun current w1 _ => Leads.bind Leads.any ?_
  rintro ⟨dst', dstTop'⟩ w2 -
  refine Leads.lift fun r _ => ?_
  obtain ⟨st, top⟩ := r
  refine Leads.bind (hrestore ed st) ?_
  rintro ⟨ed', st'⟩ w3 h
  exact Leads.bind Leads.any fun _ _ _ => Leads.pure h

theorem editorUndo_marks (ed : Editor) : Leads (editorUndo ed) w (fun ed' _ => Marked ed ed') := by
  unfold editorUndo
  refine Leads.ite (fun _ => Leads.pure (Or.inr (.refl ed))) fun _ => ?_
  refine Leads.bind (exchangeStates_marks ed _ _ _ _) ?_
  rintro ⟨ed', top, stack, top'⟩ w1 h
  exact Leads.pure (Or.inl h)

theorem editorRedo_marks (ed : Editor) : Leads (editorRedo ed) w (fun ed' _ => Marked ed ed') := by
  unfold editorRedo
  refine Leads.ite (fun _ => Leads.pure (Or.inr (.refl ed))) fun _ => ?_
  refine Leads.bind (exchangeStates_marks ed _ _ _ _) ?_
  rintro ⟨ed', top, stack, top'⟩ w1 h
  exact Leads.pure (Or.inl h)

/-- **An operation sets `modified` or leaves the text as it was.** -/
theorem exec_marks (ed : Editor) (op : Op) : Leads (exec ed op) w (fun ed' _ => Marked ed ed') := by
  cases op with
  | insertChar c => exact editorInsertChar_marks ed c
  | insertNewline => exact editorInsertNewline_marks ed
  | deleteBackward => exact delete_marks ed fun ed _ => deleteBefore_failed ed
  | deleteForward => exact delete_marks ed fun ed _ => deleteAt_failed ed
  | moveCursor key => exact (editorMoveCursor_same ed key).mono fun _ _ h => Or.inr h
  | undo => exact editorUndo_marks ed
  | redo => exact editorRedo_marks ed

/-! ### Files -/

/-- **`editor_load`** leaves the editor as it is or with a text that is not modified. -/
theorem editorLoad_clean (ed unset : Editor) (fs : Fs) (path : Bytes) :
    Leads (editorLoad ed unset fs path) w (fun r _ => (r.1 = false → r.2 = ed) ∧
      (r.1 = true → r.2.modified = false)) := by
  unfold editorLoad
  refine Leads.bind Leads.any fun file w1 _ => ?_
  cases file with
  | none => exact Leads.pure ⟨fun _ => rfl, fun hf => absurd hf (by simp)⟩
  | some file =>
    obtain ⟨buf, len⟩ := file
    refine Leads.bind Leads.any fun newEd w2 _ => Leads.lift fun ends _ => Leads.bind Leads.any ?_
    rintro ⟨ok, newEd'⟩ w3 -
    refine Leads.bind Leads.any fun _ w4 _ => Leads.ite (fun _ => ?_) fun _ => ?_
    · exact Leads.bind Leads.any fun _ _ _ => Leads.bind Leads.any fun _ _ _ =>
        Leads.pure ⟨fun hf => absurd hf (by simp), fun _ => rfl⟩
    · exact Leads.bind Leads.any fun _ _ _ =>
        Leads.pure ⟨fun _ => rfl, fun hf => absurd hf (by simp)⟩

end

/-! ### One round -/

/-- A key that discards the text without a question: `KEY_QUIT`, or Ctrl+O with the path of a file
that is then opened. -/
def Discards (x : Watched) (ch : Chance) : Prop :=
  x.run.events.head? = some (.special .quit) ∨
  ∃ events path rest ed w, x.run.events = .char 15 :: events ∧
    editorPromptFilename maxPathLen events = some (some path, rest) ∧
    editorLoad x.run.ed ch.unset x.run.fs path x.world = some ((true, ed), w)

/-- What a round does, by its effect. -/
def RoundOf (st st' : RunState) (opens quits : Prop) : Effect → Prop
  | .none => Marked st.ed st'.ed ∧
    (st'.running = false → st'.ed = st.ed ∧ (st.ed.modified = false ∨ quits))
  | .loaded => opens ∧ st'.ed.modified = false ∧ st'.running = true
  | .saved => st'.ed.texts = st.ed.texts ∧ st'.ed.modified = false
  | .declined => st'.ed = st.ed ∧ st'.running = false

section

variable {w : World} {st : RunState} {ch : Chance} {opens quits : Prop}

theorem operate_round (hr : st.running = true) (op : Op) :
    Leads (operate st op) w (fun r _ => RoundOf st r.2 opens quits r.1) := by
  unfold operate
  refine Leads.bind (exec_marks st.ed op) fun ed w1 h => Leads.pure ⟨h, fun hf => ?_⟩
  exact absurd (hr.symm.trans hf) (by simp)

theorem same_round (hr : st.running = true) (events : List KeyEvent) :
    RoundOf st { st with events := events } opens quits .none :=
  ⟨Or.inr (.refl _), fun hf => absurd (hr.symm.trans hf) (by simp)⟩

/-- **Ctrl+O.** -/
theorem openFile_round (ch : Chance) (quits : Prop) (hr : st.running = true) :
    Leads (openFile ch st) w (fun r _ => RoundOf st r.2
      (∃ path rest ed w', editorPromptFilename maxPathLen st.events = some (some path, rest) ∧
        editorLoad st.ed ch.unset st.fs path w = some ((true, ed), w')) quits r.1) := by
  unfold openFile
  refine Leads.lift fun r hprompt => ?_
  obtain ⟨path, events⟩ := r
  cases path with
  | none => exact Leads.pure (same_round hr events)
  | some path =>
    refine Leads.bind Leads.self ?_
    rintro ⟨ok, ed⟩ w1 hload
    obtain ⟨hfail, hok⟩ := editorLoad_clean st.ed ch.unset st.fs path _ _ hload
    cases ok with
    | true => exact Leads.pure ⟨⟨path, events, ed, w1, hprompt, hload⟩, hok rfl, hr⟩
    | false =>
      obtain rfl : ed = st.ed := hfail rfl
      exact Leads.lift fun events' _ => Leads.pure (same_round hr events')

theorem openFile_loads (st : RunState) {path : Bytes} {rest : List KeyEvent} {ed : Editor}
    {w' : World} (hprompt : editorPromptFilename maxPathLen st.events = some (some path, rest))
    (hload : editorLoad st.ed ch.unset st.fs path w = some ((true, ed), w')) :
    Leads (openFile ch st) w (fun r _ => r.1 = .loaded) := by
  unfold openFile
  rw [hprompt]
  refine Leads.lift fun r hr => ?_
  obtain rfl := Option.some.inj hr
  refine Leads.bind Leads.self ?_
  rintro ⟨ok, ed'⟩ w1 hload'
  rw [hload, Option.some.injEq, Prod.mk.injEq, Prod.mk.injEq] at hload'
  obtain ⟨⟨rfl, -⟩, -⟩ := hload'
  exact Leads.pure rfl

/-- **Saving**, by Ctrl+S or `KEY_SAVE`. -/
theorem saveFile_round (ch : Chance) (opens quits : Prop) (hr : st.running = true) :
    Leads (saveFile ch st) w (fun r _ => RoundOf st r.2 opens quits r.1 ∧ r.1 ≠ .declined ∧
      r.1 ≠ .loaded ∧
      (r.1 = .none → r.2.ed = st.ed)) := by
  unfold saveFile
  refine Leads.bind (editorSave_spec st.fs ch.answer ch.data) ?_
  rintro ⟨ok, ed, fs⟩ w1 hed
  cases ok with
  | true =>
    obtain rfl : ed = st.ed.saved := hed
    exact Leads.pure ⟨⟨rfl, rfl⟩, by simp, by simp, fun hf => absurd hf (by simp)⟩
  | false =>
    obtain rfl : ed = st.ed := hed
    refine Leads.lift fun events' _ => Leads.pure ⟨⟨Or.inr (.refl _), fun hf => ?_⟩,
      by simp, by simp,
      fun _ => rfl⟩
    exact absurd (hr.symm.trans hf) (by simp)

/-- **Ctrl+Q**: it asks when the text is modified. -/
theorem quit_round (hr : st.running = true) :
    Leads (quit ch st) w (fun r _ => RoundOf st r.2 opens quits r.1) := by
  unfold quit
  refine Leads.ite (fun _ => ?_) fun hclean => ?_
  · refine Leads.lift fun r _ => ?_
    obtain ⟨save, events⟩ := r
    cases save with
    | false => exact Leads.pure ⟨rfl, rfl⟩
    | true =>
      have hsave := saveFile_round (w := w) ch opens quits
        (show RunState.running { st with events := events } = true from hr)
      refine Leads.bind hsave ?_
      rintro ⟨effect, st'⟩ w1 ⟨hround, hd, hl, hed⟩
      cases effect with
      | none => exact Leads.pure ⟨hround.1, fun hf => absurd hf (by simp)⟩
      | loaded => exact absurd rfl hl
      | saved => exact Leads.pure hround
      | declined => exact absurd rfl hd
  · exact Leads.pure ⟨Or.inr (.refl _), fun _ => ⟨rfl, Or.inl (by simpa using hclean)⟩⟩

theorem onChar_round (quits : Prop) (hr : st.running = true) (c : UInt8) :
    Leads (onChar ch st c) w (fun r _ => RoundOf st r.2 (c = 15 ∧ ∃ path rest ed w',
      editorPromptFilename maxPathLen st.events = some (some path, rest) ∧
        editorLoad st.ed ch.unset st.fs path w = some ((true, ed), w')) quits r.1) := by
  have hopen := openFile_round (w := w) ch quits hr
  unfold onChar
  refine Leads.ite (fun _ => operate_round hr _) fun _ => Leads.ite (fun _ => operate_round hr _)
    fun _ => ?_
  refine Leads.ite (fun h15 => ?_) fun _ => ?_
  · refine hopen.mono fun r w' h => ?_
    obtain ⟨effect, st'⟩ := r
    cases effect with
    | loaded => exact ⟨⟨h15, h.1⟩, h.2⟩
    | _ => exact h
  refine Leads.ite (fun _ => quit_round hr) fun _ => Leads.ite (fun _ => ?_) fun _ => ?_
  · exact (saveFile_round ch _ _ hr).mono fun r w' h => h.1
  refine Leads.ite (fun _ => operate_round hr _) fun _ => Leads.ite (fun _ => operate_round hr _)
    fun _ => ?_
  exact Leads.ite (fun _ => operate_round hr _) fun _ => Leads.pure (same_round hr st.events)

theorem onSpecial_round (opens : Prop) (hr : st.running = true) (key : SpecialKey) :
    Leads (onSpecial ch st key) w (fun r _ => RoundOf st r.2 opens (key = .quit) r.1) := by
  cases key with
  | save => exact (saveFile_round ch _ _ hr).mono fun r w' h => h.1
  | quit => exact Leads.pure ⟨Or.inr (.refl _), fun _ => ⟨rfl, Or.inr rfl⟩⟩
  | esc => exact Leads.pure (same_round hr st.events)
  | tab => exact Leads.pure (same_round hr st.events)
  | _ => exact operate_round hr _

end

/-- **One round of `editor_run`.** -/
theorem editorRunRound_spec {x : Watched} {ch : Chance} {effect : Effect} {st' : RunState}
    {w' : World} (hr : x.run.running = true)
    (hround : editorRunRound ch x.run x.world = some ((effect, st'), w')) :
    RoundOf x.run st' (Discards x ch) (Discards x ch) effect := by
  unfold editorRunRound at hround
  cases hevents : x.run.events with
  | nil =>
    rw [hevents] at hround
    cases hround
  | cons event events =>
    rw [hevents] at hround
    cases event with
    | char c =>
      have h := onChar_round (Discards x ch)
        (show RunState.running { x.run with events := events } = true from hr) c _ _ hround
      cases effect with
      | loaded =>
        obtain ⟨⟨rfl, path, rest, ed, w1, hprompt, hload⟩, h⟩ := h
        exact ⟨Or.inr ⟨events, path, rest, ed, w1, hevents, hprompt, hload⟩, h⟩
      | _ => exact h
    | special key =>
      have h := onSpecial_round (Discards x ch)
        (show RunState.running { x.run with events := events } = true from hr) key _ _ hround
      cases effect with
      | none =>
        refine ⟨h.1, fun hf => ⟨(h.2 hf).1, (h.2 hf).2.imp id ?_⟩⟩
        rintro rfl
        exact Or.inl (by rw [hevents]; rfl)
      | _ => exact h

/-- A text that is discarded without a question is gone after the round. -/
theorem Discards.round {x : Watched} {ch : Chance} {effect : Effect} {st' : RunState} {w' : World}
    (hd : Discards x ch) (hround : editorRunRound ch x.run x.world = some ((effect, st'), w')) :
    effect = .loaded ∨ effect = .none ∧ st'.running = false ∧ st'.ed = x.run.ed := by
  unfold editorRunRound at hround
  obtain hquit | ⟨events, path, rest, ed, w1, hevents, hprompt, hload⟩ := hd
  · obtain ⟨events, hevents⟩ := List.head?_eq_some_iff.mp hquit
    rw [hevents] at hround
    cases hround
    exact Or.inr ⟨rfl, rfl, rfl⟩
  · left
    rw [hevents] at hround
    exact openFile_loads { x.run with events := events } hprompt hload _ _ hround

/-! ### Runs -/

/-- The text differs from the saved one and is discarded without a question. -/
def Unasked (x : Watched) (ch : Chance) : Prop := x.run.ed.texts ≠ x.watch.saved ∧ Discards x ch

/-- A text that is not modified is the saved one; and after the answer N there are no more
rounds. -/
structure Tracked (x : Watched) : Prop where
  clean : x.run.ed.modified = false → x.run.ed.texts = x.watch.saved
  unanswered : x.run.running = true → x.watch.answered = false

namespace Watch

variable {wt : Watch} {text : List Text} {st : RunState}

theorem discard_kept (h : text = wt.saved ∨ wt.answered = true) : wt.discard text = wt := by
  unfold discard
  rw [if_neg]
  rintro ⟨hne, hans⟩
  obtain rfl | h := h
  · exact hne rfl
  · exact absurd (hans.symm.trans h) (by simp)

theorem discard_lost (h : text ≠ wt.saved) (hans : wt.answered = false) :
    wt.discard text = { wt with lost := text :: wt.lost } := if_pos ⟨h, hans⟩

theorem ended_running (h : st.running = true) : wt.ended st = wt := if_pos h

theorem ended_stopped (h : st.running = false) : wt.ended st = wt.discard st.ed.texts :=
  if_neg (by simp [h])

theorem after_none {st' : RunState} (hans : wt.answered = false) :
    wt.after st st' .none = wt.ended st' := by
  obtain ⟨saved, answered, lost⟩ := wt
  obtain rfl : answered = false := hans
  rfl

theorem after_saved {st' : RunState} :
    wt.after st st' .saved = { wt with saved := st'.ed.texts } := by
  show Watch.ended { wt with saved := st'.ed.texts } st' = _
  cases hrun : st'.running with
  | true => exact ended_running hrun
  | false =>
    rw [ended_stopped hrun]
    exact discard_kept (Or.inl rfl)

theorem after_declined {st' : RunState} (hrun : st'.running = false) :
    wt.after st st' .declined = { wt with answered := true } := by
  show Watch.ended { wt with answered := true } st' = _
  rw [ended_stopped hrun]
  exact discard_kept (Or.inr rfl)

end Watch

/-- **One round loses the text exactly when it discards it unasked.** -/
theorem round_tracked {x x' : Watched} {ch : Chance} (h : Tracked x) (hr : x.run.running = true)
    (hround : x.round ch = some x') : Tracked x' ∧
      (Unasked x ch ∧ x'.watch.lost = x.run.ed.texts :: x.watch.lost ∨
        ¬ Unasked x ch ∧ x'.watch.lost = x.watch.lost) := by
  obtain ⟨⟨⟨effect, st'⟩, w'⟩, hrun, hx'⟩ := Option.bind_eq_some_iff.mp hround
  obtain rfl := Option.some.inj hx'
  have hspec := editorRunRound_spec hr hrun
  have hans := h.unanswered hr
  have hgone : Discards x ch → effect = .loaded ∨ effect = .none ∧ st'.running = false ∧
      st'.ed = x.run.ed := fun hd => hd.round hrun
  cases effect with
  | none =>
    obtain ⟨hmark, hstop⟩ := hspec
    have hclean : st'.ed.modified = false → st'.ed.texts = x.watch.saved := by
      intro hm
      obtain hset | hsame := hmark
      · exact absurd (hset.symm.trans hm) (by simp)
      · rw [hsame.texts]
        exact h.clean (hsame.modified.symm.trans hm)
    rw [Watch.after_none hans]
    cases hrun' : st'.running with
    | true =>
      rw [Watch.ended_running hrun']
      refine ⟨⟨hclean, fun _ => hans⟩, Or.inr ⟨fun hu => ?_, rfl⟩⟩
      obtain hl | ⟨-, hf, -⟩ := hgone hu.2
      · cases hl
      · exact absurd (hrun'.symm.trans hf) (by simp)
    | false =>
      obtain ⟨hed, hwhy⟩ := hstop hrun'
      rw [Watch.ended_stopped hrun', hed]
      rw [hed] at hclean
      by_cases heq : x.run.ed.texts = x.watch.saved
      · rw [Watch.discard_kept (Or.inl heq)]
        exact ⟨⟨fun _ => by rw [← heq, ← hed], fun _ => hans⟩, Or.inr ⟨fun hu => hu.1 heq, rfl⟩⟩
      · rw [Watch.discard_lost heq hans]
        refine ⟨⟨fun hm => ?_, fun _ => hans⟩, Or.inl ⟨⟨heq, ?_⟩, rfl⟩⟩
        · exact absurd (hclean (by rw [← hed]; exact hm)) heq
        · exact hwhy.resolve_left fun hm => heq (h.clean hm)
  | loaded =>
    obtain ⟨hd, hm, -⟩ := hspec
    refine ⟨⟨fun _ => rfl, fun _ => rfl⟩, ?_⟩
    by_cases heq : x.run.ed.texts = x.watch.saved
    · right
      refine ⟨fun hu => hu.1 heq, ?_⟩
      show (x.watch.discard x.run.ed.texts).lost = _
      rw [Watch.discard_kept (Or.inl heq)]
    · left
      refine ⟨⟨heq, hd⟩, ?_⟩
      show (x.watch.discard x.run.ed.texts).lost = _
      rw [Watch.discard_lost heq hans]
  | saved =>
    rw [Watch.after_saved]
    refine ⟨⟨fun _ => rfl, fun _ => hans⟩, Or.inr ⟨fun hu => ?_, rfl⟩⟩
    obtain hl | ⟨hl, -⟩ := hgone hu.2
    · cases hl
    · cases hl
  | declined =>
    obtain ⟨hed, hstop⟩ := hspec
    rw [Watch.after_declined hstop]
    refine ⟨⟨fun hm => ?_, fun hf => absurd (hf.symm.trans hstop) (by simp)⟩,
      Or.inr ⟨fun hu => ?_, rfl⟩⟩
    · rw [hed] at hm ⊢
      exact h.clean hm
    · obtain hl | ⟨hl, -⟩ := hgone hu.2
      · cases hl
      · cases hl

theorem sn_tracked {x : Watched} (h : sn.init x) : Tracked x ∧ x.watch.lost = [] := by
  obtain ⟨unset, unset', ed, w, w', path, -, -, -, hwatch⟩ := h
  exact ⟨⟨fun _ => by rw [hwatch], fun _ => by rw [hwatch]⟩, by rw [hwatch]⟩

/-- A run that never discards a text unasked loses none. -/
theorem kept_run {x y : Watched} {chs : List Chance}
    (hrun : (sn.restrict fun x ch => ¬ Unasked x ch).Run x chs y) :
    Tracked x → y.watch.lost = x.watch.lost := by
  induction hrun with
  | nil _ => exact fun _ => rfl
  | cons hstep _ ih =>
    intro h
    obtain ⟨hasked, hr, hround⟩ := hstep
    obtain ⟨h', ⟨hu, -⟩ | ⟨-, hlost⟩⟩ := round_tracked h hr hround
    · exact absurd hu hasked
    · exact (ih h').trans hlost

theorem lost_mono {x y : Watched} {chs : List Chance} (hrun : sn.Run x chs y) :
    Tracked x → x.watch.lost.length ≤ y.watch.lost.length := by
  induction hrun with
  | nil _ => exact fun _ => le_rfl
  | cons hstep _ ih =>
    intro h
    obtain ⟨h', ⟨-, hlost⟩ | ⟨-, hlost⟩⟩ := round_tracked h hstep.1 hstep.2
    · have := ih h'
      rw [hlost, List.length_cons] at this
      omega
    · have := ih h'
      rwa [hlost] at this

/-- A run that loses no text has never discarded one unasked. -/
theorem run_kept {x y : Watched} {chs : List Chance} (hrun : sn.Run x chs y) :
    Tracked x → y.watch.lost = x.watch.lost →
      (sn.restrict fun x ch => ¬ Unasked x ch).Run x chs y := by
  induction hrun with
  | nil _ => exact fun _ _ => .nil _
  | cons hstep hrest ih =>
    intro h heq
    obtain ⟨h', ⟨-, hlost⟩ | ⟨hasked, hlost⟩⟩ := round_tracked h hstep.1 hstep.2
    · have := lost_mono hrest h'
      rw [heq, hlost, List.length_cons] at this
      omega
    · exact .cons ⟨hasked, hstep⟩ (ih h' (heq.trans hlost.symm))

/-- **Nothing is lost without asking**, in a run of `editor_run`, exactly when the run never comes
to `KEY_QUIT`, or to Ctrl+O with the path of a file that opens, while the text differs from the one
last loaded or saved. -/
theorem nothing_lost_iff {x y : Watched} {chs : List Chance} (hinit : sn.init x)
    (hrun : sn.Run x chs y) :
    y.watch.lost = [] ↔ (sn.restrict fun x ch => ¬ Unasked x ch).Run x chs y := by
  obtain ⟨h, hlost⟩ := sn_tracked hinit
  constructor
  · exact fun heq => run_kept hrun h (heq.trans hlost.symm)
  · exact fun hkept => (kept_run hkept h).trans hlost

/-! ### A run -/

/-- A directory with one file `f` of the two characters `ab`. -/
def oneFile : Fs where
  nodes a :=
    if a = 8 then some ⟨Ramfs.text "/", Ramfs.fsDirectory, 0, none, none, some 16, none⟩
    else if a = 16 then some ⟨Ramfs.text "f", Ramfs.fsFile, 2, some 24, some 8, none, none⟩
    else none
  files _ := none
  buffers a := if a = 24 then some (Ramfs.text "ab") else none
  root := some 8
  cwd := some 8

/-- What `editor_load` makes of that file. -/
def loadedFile : (Bool × Editor) × World :=
  (editorLoad (emptyText 1000).1 unset oneFile (Ramfs.text "f") (emptyText 1000).2).get
    (by decide +kernel)

/-- The start of a session. -/
def Watched.start (ed : Editor) (fs : Fs) (events : List KeyEvent) (w : World) : Watched :=
  ⟨⟨ed, fs, events, true⟩, w, ⟨ed.texts, false, []⟩⟩

theorem start_init {unset' ed ed' : Editor} {w w' w'' : World} {fs : Fs} {path : Bytes}
    (hinit : editorInit unset' w = some (ed, w')) (events : List KeyEvent)
    (hload : editorLoad ed unset' fs path w' = some ((true, ed'), w'')) :
    sn.init (.start ed' fs events w'') := ⟨_, _, _, _, _, path, hinit, hload, rfl, rfl⟩

/-- `X`, Ctrl+O, `f` and Enter are typed. -/
def opened : Watched :=
  .start loadedFile.1.2 oneFile [.char 88, .char 15, .char 102, .special .enter] loadedFile.2

def noChance : Chance := ⟨unset, none, none⟩

/-- `X` has been inserted. -/
def typedX : Watched := (opened.round noChance).get (by decide +kernel)

/-- And the file has been opened again. -/
def reopened : Watched := (typedX.round noChance).get (by decide +kernel)

theorem result_eq {α β : Type} {r : (Bool × α) × β} (h : r.1.1 = true) :
    r = ((true, r.1.2), r.2) := by
  obtain ⟨⟨ok, a⟩, b⟩ := r
  obtain rfl : ok = true := h
  rfl

theorem loadedFile_eq : editorLoad (emptyText 1000).1 unset oneFile (Ramfs.text "f")
    (emptyText 1000).2 =
    some loadedFile := (Option.some_get _).symm

theorem opened_init : sn.init opened := by
  have hinit : editorInit unset (refusing 1000) = some (emptyText 1000) := rfl
  have hok : loadedFile.1.1 = true := by decide +kernel
  exact start_init hinit _ (loadedFile_eq.trans (congrArg some (result_eq hok)))

theorem round_step {x : Watched} {ch : Chance} (hr : x.run.running = true)
    (h : (x.round ch).isSome = true) : sn.step x ch ((x.round ch).get h) :=
  ⟨hr, (Option.some_get h).symm⟩

theorem typedX_step : sn.step opened noChance typedX := round_step rfl _

theorem reopened_step : sn.step typedX noChance reopened := round_step (by decide +kernel) _

theorem nothing_lost_iff_typedX : typedX.watch.lost = [] ↔
    (sn.restrict fun x ch => ¬ Unasked x ch).Run opened [noChance] typedX :=
  nothing_lost_iff opened_init (.cons typedX_step (.nil _))

/-- **Ctrl+O does not ask**: `Xab` is lost, and the user has answered nothing. -/
theorem open_drops_text : sn.init opened ∧ sn.Run opened [noChance, noChance] reopened ∧
    reopened.watch.lost = [[[88, 97, 98]]] ∧ reopened.run.ed.texts = [[97, 98]] :=
  ⟨opened_init, .cons typedX_step (.cons reopened_step (.nil _)), by decide +kernel,
    by decide +kernel⟩

end CobraOS.Snake
