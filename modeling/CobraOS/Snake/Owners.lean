import CobraOS.Base.Ledger
import CobraOS.Snake.Unsaved

/-!
# The blocks of the editor

Every block that the editor asks for is owned by one line, by the array of lines, by a saved state,
by one of the two stacks or by the name of the file.  Each function changes the balance of a block
by what its results own less what its arguments owned.
-/

namespace CobraOS.Snake

open Base
open Ramfs (Fs Bytes)

/-! ### What is owned -/

def Line.owns (i : Nat) (l : Line) : Int := owned i l.data

/-- An array of lines, of which `n` are in use, owns itself and the buffers of these lines. -/
def linesOwn (i : Nat) (lines : Option (Block Line)) (n : Nat) : Int :=
  lines.elim 0 (fun b => owned i (some b) + total (Line.owns i) (b.cells.take n))

def EditorState.owns (i : Nat) (st : EditorState) : Int := linesOwn i st.lines st.numLines

def stackOwns (i : Nat) (stack : Option (Block EditorState)) (top : Int) : Int :=
  stack.elim 0
    (fun b => owned i (some b) + total (EditorState.owns i) (b.cells.take (top + 1).toNat))

/-- The text of an editor. -/
def Editor.ownsText (i : Nat) (ed : Editor) : Int := linesOwn i ed.lines ed.numLines

def Editor.owns (i : Nat) (ed : Editor) : Int :=
  ed.ownsText i + owned i ed.filename + stackOwns i ed.undoStack ed.undoTop +
    stackOwns i ed.redoStack ed.redoTop

section

variable {i : Nat} {w : World} {ed : Editor}

@[simp] theorem linesOwn_none (n : Nat) : linesOwn i none n = 0 := rfl

@[simp] theorem linesOwn_some (b : Block Line) (n : Nat) :
    linesOwn i (some b) n = owned i (some b) + total (Line.owns i) (b.cells.take n) := rfl

@[simp] theorem stackOwns_none (top : Int) : stackOwns i none top = 0 := rfl

@[simp] theorem stackOwns_some (b : Block EditorState) (top : Int) : stackOwns i (some b) top =
    owned i (some b) + total (EditorState.owns i) (b.cells.take (top + 1).toNat) := rfl

theorem owns_null {st : EditorState} (h : st.lines = none) : st.owns i = 0 := by
  unfold EditorState.owns
  rw [h, linesOwn_none]

theorem kmalloc_account {α β : Type} {item size : Nat} {f : Option (Block α) → Alloc β}
    {ε : β → Int}
    (hsome : ∀ b w', w.calls ≤ b.id → (∀ (g : α → Int) n, total g (b.cells.take n) = 0) →
      Account i (f (some b)) w' (fun c => ε c - owned i (some b)))
    (hnone : ∀ w', Account i (f none) w' ε) :
    Account i (kmalloc item size >>= f) w ε := by
  refine Account.request (fun b w' hid hcells => hsome b w' hid fun g n => ?_) hnone
  rw [hcells, List.take_replicate, total_unwritten]

/-! ### Saved states -/

theorem freeLines_account {lines : Block Line} : ∀ (n j : Nat) {w : World},
    Account i (freeLines lines n j) w
      (fun _ => -total (Line.owns i) ((lines.cells.drop j).take n)) := by
  intro n
  induction n with
  | zero => exact fun j w => Account.pure (by simp)
  | succ n ih =>
    intro j w
    refine Account.lift fun line hget => Account.bind Account.release fun _ w1 _ =>
      (ih (j + 1)).of_eq fun _ => ?_
    rw [total_drop_succ hget]
    simp only [Line.owns]
    ring

theorem cloneLines_account {src : Block Line} : ∀ (n k : Nat) (dst : Block Line) {w : World},
    Account i (cloneLines src n k dst) w
      (fun r => linesOwn i r (k + n) - linesOwn i (some dst) k) := by
  intro n
  induction n with
  | zero => exact fun k dst w => Account.pure (by simp)
  | succ n ih =>
    intro k dst w
    refine Account.lift fun line _ => kmalloc_account (fun data w1 _ _ => ?_) fun w1 => ?_
    · refine Account.lift fun from' _ => Account.lift fun data1 h1 => Account.lift fun data2 h2 =>
        ?_
      refine Account.lift fun dst' hset => (ih (k + 1) dst').of_eq fun r => ?_
      have hdata : owned i (some data2) = owned i (some data) :=
        (owned_set h2).trans (owned_copy h1)
      rw [linesOwn_some, linesOwn_some, total_set_next hset, owned_set hset, Line.owns, hdata,
        Nat.add_right_comm, Nat.add_assoc]
      ring
    · refine Account.bind (freeLines_account k 0) fun _ w2 _ => Account.bind Account.release
        fun _ w3 _ => ?_
      refine Account.pure ?_
      rw [linesOwn_some, linesOwn_none, List.drop_zero]
      ring

theorem editorStateClone_account (ed : Editor) :
    Account i (editorStateClone ed) w (fun st => st.owns i) := by
  unfold editorStateClone
  refine kmalloc_account (fun dst w1 _ hdst => ?_) fun w1 => Account.pure (owns_null rfl)
  refine Account.lift fun src _ => Account.bind (cloneLines_account ed.numLines 0 dst) fun r w2 _ =>
    ?_
  cases r with
  | none => exact Account.pure (by simp [EditorState.owns])
  | some dst' => exact Account.pure (by simp [EditorState.owns])

theorem editorStateFree_account (st : EditorState) :
    Account i (editorStateFree st) w (fun _ => -st.owns i) := by
  unfold editorStateFree EditorState.owns
  cases hlines : st.lines with
  | none => exact Account.pure (by simp)
  | some lines =>
    refine Account.bind (freeLines_account st.numLines 0) fun _ w1 _ => ?_
    refine Account.bind Account.release fun _ w2 _ => Account.pure ?_
    simp

theorem freeText_account (ed : Editor) : Account i (freeText ed) w (fun _ => -ed.ownsText i) := by
  unfold freeText Editor.ownsText
  cases ed.lines with
  | none => exact Account.pure (by simp)
  | some lines =>
    refine Account.bind (freeLines_account ed.numLines 0) fun _ w1 _ => Account.release.of_eq
      fun _ => ?_
    simp

/-- What `editor_state_restore` makes of the editor. -/
def Editor.restored (ed : Editor) (st : EditorState) : Editor :=
  { ed with
    lines := st.lines
    numLines := st.numLines
    cursorX := st.cursorX
    cursorY := st.cursorY
    scrollX := st.scrollX
    scrollY := st.scrollY
    modified := true }

theorem editorStateRestore_account (ed : Editor) (st : EditorState) :
    Account i (editorStateRestore ed st) w (fun _ => -ed.ownsText i) := by
  unfold editorStateRestore Editor.ownsText
  cases hlines : ed.lines with
  | none =>
    refine Account.ite (fun _ => ?_) fun _ => ?_
    · exact Account.bind Account.release fun _ _ _ => Account.pure (by simp)
    · intro a w' hr
      cases hr
  | some lines =>
    refine Account.bind (freeLines_account ed.numLines 0) fun _ w1 _ => ?_
    refine Account.bind Account.release fun _ w2 _ => Account.pure ?_
    simp

theorem editorStateRestore_shape (ed : Editor) (st : EditorState) :
    Leads (editorStateRestore ed st) w (fun r _ => r.1 = ed.restored st ∧ r.2.owns i = 0) := by
  unfold editorStateRestore
  cases hlines : ed.lines with
  | none =>
    refine Leads.ite (fun _ => ?_) fun _ => ?_
    · exact Leads.bind Leads.any fun _ _ _ => Leads.pure ⟨rfl, rfl⟩
    · intro a w' hr
      cases hr
  | some lines =>
    exact Leads.bind Leads.any fun _ _ _ => Leads.bind Leads.any fun _ _ _ => Leads.pure ⟨rfl, rfl⟩

/-! ### The stacks -/

theorem shiftDown_total {f : EditorState → Int} : ∀ {n j : Nat} {stack stack' : Block EditorState},
    shiftDown n (j + 1) stack = some stack' → stack'.id = stack.id ∧
      total f (stack'.cells.take (j + n)) =
        total f (stack.cells.take j) + total f ((stack.cells.drop (j + 1)).take n) := by
  intro n
  induction n with
  | zero =>
    intro j stack stack' h
    obtain rfl := Option.some.inj h
    exact ⟨rfl, by simp⟩
  | succ n ih =>
    intro j stack stack' h
    obtain ⟨st, hget, h⟩ := Option.bind_eq_some_iff.mp h
    obtain ⟨stack1, hset, h⟩ := Option.bind_eq_some_iff.mp h
    obtain ⟨hid, htotal⟩ := ih h
    rw [Nat.add_sub_cancel] at hset
    rw [total_set_next hset, Nat.add_right_comm, Nat.add_assoc] at htotal
    rw [htotal, total_drop_succ hget]
    obtain ⟨-, rfl⟩ := Block.set_some hset
    rw [List.drop_set_of_lt (by omega)]
    exact ⟨hid, by ring⟩

theorem dropOldest_account (stack : Block EditorState) (top : Int) :
    Account i (dropOldest stack top) w
      (fun r => stackOwns i (some r.1) r.2 - stackOwns i (some stack) top) := by
  unfold dropOldest
  refine Account.ite (fun htop => ?_) fun _ => Account.pure (by simp)
  refine Account.lift fun st hget => Account.bind (editorStateFree_account st) fun st' w1 hfree =>
    ?_
  refine Account.lift fun stack1 hset => Account.lift fun stack2 hshift => Account.pure ?_
  obtain ⟨hid, htotal⟩ := shiftDown_total (j := 0) (f := EditorState.owns i) hshift
  have hone : (top + 1).toNat = top.toNat + 1 := by
    unfold maxUndoLevels at htop
    omega
  have hfirst := total_drop_succ (f := EditorState.owns i) (n := top.toNat) hget
  have hrest : stack1.cells.drop 1 = stack.cells.drop 1 := by
    obtain ⟨-, rfl⟩ := Block.set_some hset
    rw [List.drop_set_of_lt Nat.one_pos]
  rw [List.drop_zero] at hfirst
  rw [Nat.zero_add, hrest, List.take_zero, total_nil, Int.zero_add] at htotal
  simp only [stackOwns_some, Int.sub_add_cancel, hone, hfirst, htotal, owned_of_id hid,
    owned_set hset]
  ring

theorem index_some {k : Int} {j : Nat} (h : index k = some j) : k = j := by
  unfold index at h
  split at h
  · have := Option.some.inj h
    omega
  · cases h

theorem undoStackPush_account (stack : Option (Block EditorState)) (top : Int) (st : EditorState) :
    Account i (undoStackPush stack top st) w (fun r =>
      stackOwns i r.1 r.2 - stackOwns i stack top - st.owns i) := by
  refine Account.lift fun b hb => Account.bind (dropOldest_account b top) fun r w1 _ => ?_
  obtain ⟨b1, top1⟩ := r
  refine Account.lift fun j hj => Account.lift fun b2 hset => Account.pure ?_
  have hk := index_some hj
  have h1 : (top1 + 1).toNat = j := by omega
  have h2 : (top1 + 1 + 1).toNat = j + 1 := by omega
  rw [hb]
  simp only [stackOwns_some, h1, h2, total_set_next hset, owned_set hset]
  ring

theorem undoStackPop_owns {stack : Option (Block EditorState)} {top top' : Int} {st : EditorState}
    (h : undoStackPop stack top = some (st, top')) :
    stackOwns i stack top' = stackOwns i stack top - st.owns i := by
  obtain ⟨b, rfl, h⟩ := Option.bind_eq_some_iff.mp h
  obtain ⟨j, hj, h⟩ := Option.bind_eq_some_iff.mp h
  obtain ⟨st', hget, h⟩ := Option.bind_eq_some_iff.mp h
  obtain ⟨rfl, rfl⟩ := Prod.mk.inj (Option.some.inj h)
  have hk := index_some hj
  have h1 : (top - 1 + 1).toNat = j := by omega
  have h2 : (top + 1).toNat = j + 1 := by omega
  rw [stackOwns_some, stackOwns_some, h1, h2, total_take_succ hget]
  ring

theorem clearStates_account : ∀ (n k : Nat) (b : Block EditorState) {w : World},
    Account i (clearStates n k (some b)) w (fun r =>
      owned i r - owned i (some b) - total (EditorState.owns i) ((b.cells.drop k).take n)) := by
  intro n
  induction n with
  | zero => exact fun k b w => Account.pure (by simp)
  | succ n ih =>
    intro k b w
    refine Account.lift fun b0 hb => ?_
    obtain rfl := Option.some.inj hb
    refine Account.lift fun st hget => Account.bind (editorStateFree_account st) fun st' w1 _ => ?_
    refine Account.lift fun b1 hset => (ih (k + 1) b1).of_eq fun r => ?_
    rw [total_drop_succ hget, owned_set hset]
    obtain ⟨-, rfl⟩ := Block.set_some hset
    rw [List.drop_set_of_lt (Nat.lt_succ_self k)]
    ring

theorem undoStackClear_account (stack : Option (Block EditorState)) (top : Int) :
    Account i (undoStackClear stack top) w
      (fun r => stackOwns i r.1 r.2 - stackOwns i stack top) := by
  have hnone : ∀ r : Option (Block EditorState), stackOwns i r (-1) = owned i r := by
    intro r
    cases r <;> simp
  unfold undoStackClear
  cases stack with
  | none =>
    cases hn : (top + 1).toNat with
    | zero => exact Account.pure (by simp)
    | succ n =>
      intro a w' hr
      cases hr
  | some b =>
    refine Account.bind (clearStates_account _ 0 b) fun r w1 _ => Account.pure ?_
    rw [hnone, stackOwns_some, List.drop_zero]
    ring

theorem freeStack_account (stack : Option (Block EditorState)) (top : Int) :
    Account i (freeStack stack top) w (fun _ => -stackOwns i stack top) := by
  unfold freeStack
  cases stack with
  | none => exact Account.pure (by simp)
  | some b =>
    unfold undoStackClear
    refine Account.bind (Account.bind (clearStates_account _ 0 b) (ε := fun r => owned i r.1 -
      stackOwns i (some b) top) fun r w1 _ => Account.pure ?_) fun r w1 _ => ?_
    · rw [stackOwns_some, List.drop_zero]
      ring
    · exact Account.bind Account.release fun _ w2 _ => Account.pure (by ring)

theorem editorPushUndo_account (ed : Editor) :
    Account i (editorPushUndo ed) w (fun r => r.2.owns i - ed.owns i) := by
  unfold editorPushUndo
  refine Account.bind (editorStateClone_account ed) fun st w1 _ => Account.ite (fun hnull => ?_)
    fun _ => ?_
  · exact Account.pure (by simp [owns_null (Option.isNone_iff_eq_none.mp hnull)])
  · refine Account.bind (undoStackPush_account ed.undoStack ed.undoTop st) fun r w2 _ =>
      Account.pure ?_
    simp only [Editor.owns, Editor.ownsText]
    ring

theorem editorPushUndo_shape (ed : Editor) : Leads (editorPushUndo ed) w (fun r _ =>
    ∃ stack top, r.2 = { ed with undoStack := stack, undoTop := top }) := by
  unfold editorPushUndo
  refine Leads.bind Leads.any fun st w1 _ => Leads.ite (fun _ => Leads.pure ⟨_, _, rfl⟩) fun _ => ?_
  exact Leads.bind Leads.any fun r _ _ => Leads.pure ⟨r.1, r.2, rfl⟩

theorem discardIf_account (pushed : Bool) (ed : Editor) :
    Account i (discardIf pushed ed) w (fun ed' => ed'.owns i - ed.owns i) := by
  unfold discardIf editorDiscardLastUndo
  refine Account.ite (fun _ => Account.ite (fun _ => Account.pure (by simp)) fun _ => ?_)
    fun _ => Account.pure (by simp)
  refine Account.lift fun r hpop => ?_
  obtain ⟨st, top⟩ := r
  refine Account.bind (editorStateFree_account st) fun _ w1 _ => Account.pure ?_
  simp only [Editor.owns, Editor.ownsText, undoStackPop_owns hpop]
  ring

theorem editorChanged_account (ed : Editor) :
    Account i (editorChanged ed) w (fun ed' => ed'.owns i - ed.owns i) := by
  unfold editorChanged editorClearRedo
  refine Account.bind (Account.bind (undoStackClear_account ed.redoStack ed.redoTop)
    (ε := fun ed' => ed'.owns i - ed.owns i) fun r w1 _ => Account.pure ?_) fun ed' w1 _ =>
      Account.pure ?_
  · simp only [Editor.owns, Editor.ownsText]
    ring
  · simp only [Editor.owns, Editor.ownsText, editorScrollToCursor]
    ring

theorem pushIf_account (stack : Option (Block EditorState)) (top : Int) (current : EditorState) :
    Account i (pushIf stack top current) w (fun r =>
      stackOwns i r.1 r.2 - stackOwns i stack top - current.owns i) := by
  unfold pushIf
  refine Account.ite (fun _ => undoStackPush_account stack top current) fun hnull => Account.pure ?_
  rw [owns_null (by simpa using hnull)]
  ring

theorem exchangeStates_account (ed : Editor) (src : Option (Block EditorState)) (srcTop : Int)
    (dst : Option (Block EditorState)) (dstTop : Int) :
    Account i (exchangeStates ed src srcTop dst dstTop) w (fun r =>
      r.1.ownsText i - ed.ownsText i + (stackOwns i src r.2.1 - stackOwns i src srcTop) +
        (stackOwns i r.2.2.1 r.2.2.2 - stackOwns i dst dstTop)) := by
  unfold exchangeStates
  refine Account.bind (editorStateClone_account ed) fun current w1 _ => ?_
  refine Account.bind (pushIf_account dst dstTop current) fun r w2 _ => Account.lift fun p hpop =>
    ?_
  obtain ⟨st, top⟩ := p
  refine Account.bind (editorStateRestore_account ed st) fun p w3 hrestore => ?_
  obtain ⟨hshape, hnull⟩ := editorStateRestore_shape (i := i) ed st _ _ hrestore
  refine Account.bind (editorStateFree_account p.2) fun _ w4 _ => Account.pure ?_
  have htext : p.1.ownsText i = st.owns i := by rw [hshape]; rfl
  simp only [htext, hnull, undoStackPop_owns hpop]
  ring

theorem exchangeStates_shape (ed : Editor) (src : Option (Block EditorState)) (srcTop : Int)
    (dst : Option (Block EditorState)) (dstTop : Int) :
    Leads (exchangeStates ed src srcTop dst dstTop) w (fun r _ => ∃ st, r.1 = ed.restored st) := by
  unfold exchangeStates
  refine Leads.bind Leads.any fun current w1 _ => Leads.bind Leads.any fun r w2 _ =>
    Leads.lift fun p _ => ?_
  obtain ⟨st, top⟩ := p
  refine Leads.bind (editorStateRestore_shape (i := 0) ed st) fun p w3 h => ?_
  exact Leads.bind Leads.any fun _ _ _ => Leads.pure ⟨st, h.1⟩

theorem editorUndo_account (ed : Editor) :
    Account i (editorUndo ed) w (fun ed' => ed'.owns i - ed.owns i) := by
  unfold editorUndo
  refine Account.ite (fun _ => Account.pure (by simp)) fun _ => ?_
  refine Account.bind (exchangeStates_account ed _ _ _ _) fun r w1 hr => Account.pure ?_
  obtain ⟨st, hst⟩ := exchangeStates_shape ed _ _ _ _ _ _ hr
  simp only [Editor.owns, Editor.ownsText, hst, Editor.restored]
  ring

theorem editorRedo_account (ed : Editor) :
    Account i (editorRedo ed) w (fun ed' => ed'.owns i - ed.owns i) := by
  unfold editorRedo
  refine Account.ite (fun _ => Account.pure (by simp)) fun _ => ?_
  refine Account.bind (exchangeStates_account ed _ _ _ _) fun r w1 hr => Account.pure ?_
  obtain ⟨st, hst⟩ := exchangeStates_shape ed _ _ _ _ _ _ hr
  simp only [Editor.owns, Editor.ownsText, hst, Editor.restored]
  ring

/-! ### Lines -/

theorem lineReserve_account (line : Line) (needed : Nat) :
    Account i (lineReserve line needed) w (fun r => r.2.owns i - line.owns i) := by
  unfold lineReserve
  refine Account.ite (fun _ => Account.pure (by simp)) fun _ => Account.lift fun newCap _ => ?_
  refine kmalloc_account (fun b w1 _ _ => ?_) fun w1 => Account.pure (Int.sub_self _)
  have hmove :
      Account i (moveData line b) w1
        (fun b' => owned i (some b') - owned i (some b) - line.owns i) := by
    unfold moveData Line.owns
    cases line.data with
    | none => exact Account.pure (by simp)
    | some data =>
      refine Account.lift fun b' hcopy => Account.bind Account.release fun _ w2 _ => Account.pure ?_
      rw [owned_copy hcopy]
      ring
  refine Account.bind hmove fun b' w2 _ => Account.pure ?_
  simp only [Line.owns]
  ring

theorem lineInsertChar_account (line : Line) (pos : Nat) (c : UInt8) :
    Account i (lineInsertChar line pos c) w (fun r => r.2.owns i - line.owns i) := by
  unfold lineInsertChar
  refine Account.ite (fun _ => Account.pure (by simp)) fun _ => ?_
  refine Account.bind (lineReserve_account line _) fun r w1 _ =>
    Account.ite (fun _ => ?_) fun _ => Account.pure (by ring)
  refine Account.lift fun b hb => Account.lift fun b1 h1 => Account.lift fun b2 h2 =>
    Account.pure ?_
  simp only [Line.owns, hb, (owned_set h2).trans (owned_copy h1)]
  ring

theorem lineDeleteChar_account (line : Line) (pos : Nat) :
    Account i (lineDeleteChar line pos) w (fun r => r.2.owns i - line.owns i) := by
  unfold lineDeleteChar
  refine Account.ite (fun _ => Account.pure (by simp)) fun _ => Account.lift fun b hb => ?_
  refine Account.lift fun b1 h1 => Account.pure ?_
  simp only [Line.owns, hb, owned_copy h1]
  ring

theorem lineSplit_account (line : Line) (pos : Nat) :
    Account i (lineSplit line pos) w (fun r => r.2.1.owns i + r.2.2.owns i - line.owns i) := by
  unfold lineSplit
  refine Account.ite (fun _ => Account.pure (by simp [Line.owns])) fun _ => ?_
  refine Account.bind (lineReserve_account ⟨none, 0, 0⟩ _) fun r w1 _ => Account.ite (fun _ => ?_)
    fun _ => ?_
  · refine Account.lift fun new hnew => Account.lift fun data hdata => Account.lift fun new1 h1 =>
      Account.lift fun new2 h2 => Account.lift fun data1 h3 => Account.pure ?_
    simp only [Line.owns, hnew, hdata, owned_set h3, (owned_set h2).trans (owned_copy h1),
      owned_none]
    ring
  · exact Account.pure (by simp [Line.owns])

theorem lineJoin_account (dest src : Line) :
    Account i (lineJoin dest src) w (fun r => r.2.owns i - dest.owns i) := by
  unfold lineJoin
  refine Account.bind (lineReserve_account dest _) fun r w1 _ =>
    Account.ite (fun _ => ?_) fun _ => Account.pure (by ring)
  refine Account.lift fun b hb => Account.lift fun from' _ => Account.lift fun b1 h1 =>
    Account.lift fun b2 h2 =>
    Account.pure ?_
  simp only [Line.owns, hb, (owned_set h2).trans (owned_copy h1)]
  ring

/-! ### Edits -/

theorem ownsText_set (i : Nat) (ed : Editor) {lines lines' : Block Line} {line line' : Line}
    {y : Nat} (hlines : ed.lines = some lines) (hget : lines.get y = some line)
    (hset : lines.set y line' = some lines') (hy : y < ed.numLines) :
    linesOwn i (some lines') ed.numLines = ed.ownsText i - line.owns i + line'.owns i := by
  unfold Editor.ownsText
  rw [hlines, linesOwn_some, linesOwn_some, owned_set hset, total_set hget hset hy]
  ring

/-- An edit that ends by marking the text, or by taking back the snapshot. -/
theorem finish_account (pushed changed : Bool) (ed : Editor) :
    Account i (if changed then editorChanged ed else discardIf pushed ed) w
      (fun ed' => ed'.owns i - ed.owns i) :=
  Account.ite (fun _ => editorChanged_account ed) fun _ => discardIf_account pushed ed

theorem editorInsertChar_account (ed : Editor) (c : UInt8) (hy : ed.cursorY < ed.numLines) :
    Account i (editorInsertChar ed c) w (fun ed' => ed'.owns i - ed.owns i) := by
  unfold editorInsertChar
  refine Account.bind (editorPushUndo_account ed) fun r w1 hr => ?_
  obtain ⟨stack, top, hshape⟩ := editorPushUndo_shape ed _ _ hr
  obtain ⟨pushed, ed1⟩ := r
  obtain rfl : ed1 = _ := hshape
  refine Account.lift fun lines hlines => Account.lift fun line hline => ?_
  refine Account.bind (lineInsertChar_account line _ c) fun r w2 _ =>
    Account.lift fun lines' hset => ?_
  have htext := ownsText_set i ed hlines hline hset hy
  refine Account.ite (fun _ => (editorChanged_account _).of_eq fun ed' => ?_) fun _ =>
    (discardIf_account pushed _).of_eq fun ed' => ?_
  all_goals
    simp only [Editor.owns, Editor.ownsText] at htext ⊢
    rw [htext]
    ring

theorem linesOwn_joined {lines lines' lines'' : Block Line} {src dest : Line} {n y : Nat}
    (hy : y + 1 < n) (hn : n < 4294967296) (hsrc : lines.get (y + 1) = some src)
    (hset : lines.set y dest = some lines')
    (hcopy : lines'.copy (y + 1) lines' (y + 2) (wsub (wsub n (y + 1)) 1) = some lines'') :
    linesOwn i (some lines'') (n - 1) = linesOwn i (some lines') n - src.owns i := by
  obtain ⟨m, rfl⟩ : ∃ m, n = y + 1 + (m + 1) := ⟨n - y - 2, by omega⟩
  have hm : wsub (wsub (y + 1 + (m + 1)) (y + 1)) 1 = m := by
    rw [wsub_of_le (a := y + 1 + (m + 1)) (by omega) hn, Nat.add_sub_cancel_left,
      wsub_of_le (by omega) (by omega), Nat.add_sub_cancel]
  have hsrc' : lines'.get (y + 1) = some src := by
    obtain ⟨-, rfl⟩ := Block.set_some hset
    rw [Block.get_eq_some] at hsrc ⊢
    rw [← hsrc, List.getElem?_set_ne (by omega)]
  rw [hm] at hcopy
  have hsplit := total_split (f := Line.owns i) lines'.cells (Nat.le_add_right (y + 1) (m + 1))
  rw [Nat.add_sub_cancel_left, total_drop_succ hsrc'] at hsplit
  rw [show y + 1 + (m + 1) - 1 = y + 1 + m from rfl, linesOwn_some, linesOwn_some, total_copy hcopy,
    owned_copy hcopy, hsplit]
  ring

theorem joinLines_account (ed : Editor) (y : Nat) (hy : y + 1 < ed.numLines)
    (hn : ed.numLines < 4294967296) :
    Account i (joinLines ed y) w (fun r => r.2.owns i - ed.owns i) := by
  unfold joinLines
  refine Account.lift fun lines hlines => Account.lift fun dest hdest =>
    Account.lift fun src hsrc => ?_
  refine Account.bind (lineJoin_account dest src) fun r w1 _ => Account.lift fun lines1 hset => ?_
  have htext := ownsText_set i ed hlines hdest hset (by omega)
  refine Account.ite (fun _ => ?_) fun _ => ?_
  · refine Account.bind Account.release fun _ w2 _ => Account.lift fun lines2 hcopy =>
      Account.pure ?_
    have hjoined := linesOwn_joined (i := i) hy hn hsrc hset hcopy
    simp only [Editor.owns, Editor.ownsText, Line.owns] at htext hjoined ⊢
    rw [hjoined, htext]
    ring
  · refine Account.pure ?_
    simp only [Editor.owns, Editor.ownsText] at htext ⊢
    rw [htext]
    ring

theorem deleteInLine_account (ed : Editor) (pos : Nat) (hy : ed.cursorY < ed.numLines) :
    Account i (deleteInLine ed pos) w (fun r => r.2.owns i - ed.owns i) := by
  unfold deleteInLine
  refine Account.lift fun lines hlines => Account.lift fun line hline => ?_
  refine Account.bind (lineDeleteChar_account line pos) fun r w1 _ =>
    Account.lift fun lines' hset => ?_
  have htext := ownsText_set i ed hlines hline hset hy
  refine Account.pure ?_
  simp only [Editor.owns, Editor.ownsText] at htext ⊢
  rw [htext]
  ring

theorem deleteBefore_account (ed : Editor) (hy : ed.cursorY < ed.numLines)
    (hn : ed.numLines < 4294967296) :
    Account i (deleteBefore ed) w (fun r => r.2.owns i - ed.owns i) := by
  unfold deleteBefore
  refine Account.ite (fun _ => ?_) fun _ => Account.ite (fun hpos => ?_) fun _ =>
    Account.pure (by simp)
  · refine Account.bind (deleteInLine_account ed _ hy) fun r w1 _ => Account.pure ?_
    cases r.1 <;> exact Int.sub_self _
  · refine Account.lift fun len _ => ?_
    refine Account.bind (joinLines_account ed _ (by omega) hn) fun r w1 _ => Account.pure ?_
    cases r.1 <;> exact Int.sub_self _

theorem deleteAt_account (ed : Editor) (hy : ed.cursorY < ed.numLines)
    (hn : ed.numLines < 4294967296) :
    Account i (deleteAt ed) w (fun r => r.2.owns i - ed.owns i) := by
  unfold deleteAt
  refine Account.lift fun len _ => Account.ite (fun _ => deleteInLine_account ed _ hy) fun _ => ?_
  exact Account.ite (fun hmore => joinLines_account ed _ hmore hn) fun _ => Account.pure (by simp)

theorem editorDelete_account {delete : Editor → Alloc (Bool × Editor)} (ed : Editor)
    (hdelete : ∀ stack top w, Account i (delete { ed with undoStack := stack, undoTop := top }) w
      (fun r => r.2.owns i - Editor.owns i { ed with undoStack := stack, undoTop := top })) :
    Account i (do
      let (undoPushed, ed) ← editorPushUndo ed
      let (changed, ed) ← delete ed
      if changed then editorChanged ed else discardIf undoPushed ed) w
      (fun ed' => ed'.owns i - ed.owns i) := by
  refine Account.bind (editorPushUndo_account ed) fun r w1 hr => ?_
  obtain ⟨stack, top, hshape⟩ := editorPushUndo_shape ed _ _ hr
  obtain ⟨pushed, ed1⟩ := r
  obtain rfl : ed1 = _ := hshape
  refine Account.bind (hdelete stack top w1) fun r w2 _ => ?_
  exact (finish_account pushed r.1 r.2).of_eq fun ed' => by ring

theorem editorDeleteBackward_account (ed : Editor) (hy : ed.cursorY < ed.numLines)
    (hn : ed.numLines < 4294967296) :
    Account i (editorDeleteBackward ed) w (fun ed' => ed'.owns i - ed.owns i) :=
  editorDelete_account ed fun _ _ _ => deleteBefore_account _ hy hn

theorem editorDeleteForward_account (ed : Editor) (hy : ed.cursorY < ed.numLines)
    (hn : ed.numLines < 4294967296) :
    Account i (editorDeleteForward ed) w (fun ed' => ed'.owns i - ed.owns i) :=
  editorDelete_account ed fun _ _ _ => deleteAt_account _ hy hn

theorem lineSplit_none (line : Line) (pos : Nat) :
    Leads (lineSplit line pos) w (fun r _ => r.1 = false → r.2.2.owns i = 0) := by
  unfold lineSplit
  refine Leads.ite (fun _ => Leads.pure fun _ => rfl) fun _ => ?_
  refine Leads.bind (lineReserve_failed ⟨none, 0, 0⟩ _) fun r w1 h => ?_
  refine Leads.ite (fun _ => ?_) fun hok => Leads.pure fun _ => ?_
  · exact Leads.lift fun _ _ => Leads.lift fun _ _ => Leads.lift fun _ _ => Leads.lift fun _ _ =>
      Leads.lift fun _ _ => Leads.pure fun hf => absurd hf (by simp)
  · rw [h (by simpa using hok)]
    rfl

theorem linesOwn_inserted {lines new new1 new2 new3 : Block Line} {line : Line} {n y : Nat}
    (hy : y < n) (hn : n < 4294967296) (h1 : new.copy 0 lines 0 n = some new1)
    (h2 : new1.copy (y + 2) new1 (y + 1) (wsub (wsub n y) 1) = some new2)
    (h3 : new2.set (y + 1) line = some new3) :
    linesOwn i (some new3) (n + 1) =
      linesOwn i (some lines) n - owned i (some lines) + owned i (some new) + line.owns i := by
  obtain ⟨m, rfl⟩ : ∃ m, n = y + 1 + m := ⟨n - y - 1, by omega⟩
  have hm : wsub (wsub (y + 1 + m) y) 1 = m := by
    rw [wsub_of_le (a := y + 1 + m) (by omega) hn, wsub_of_le (by omega) (by omega)]
    omega
  rw [hm] at h2
  have hall : new1.cells.take (y + 1 + m) = lines.cells.take (y + 1 + m) := by
    have hdrop := copy_drop h1
    rwa [List.drop_zero, List.drop_zero] at hdrop
  have hsplit := total_split (f := Line.owns i) new1.cells (Nat.le_add_right (y + 1) m)
  rw [Nat.add_sub_cancel_left, hall] at hsplit
  have hset := total_set_split (f := Line.owns i) (n := y + 1 + m + 1) h3 (by omega)
  rw [show y + 1 + m + 1 - (y + 1 + 1) = m by omega, copy_take h2 (by omega), copy_drop h2] at hset
  have howned : owned i (some new3) = owned i (some new) :=
    (owned_set h3).trans ((owned_copy h2).trans (owned_copy h1))
  rw [linesOwn_some, linesOwn_some, howned, hset, hsplit]
  ring

theorem editorInsertNewline_account (ed : Editor) (hy : ed.cursorY < ed.numLines)
    (hn : ed.numLines < 4294967296) :
    Account i (editorInsertNewline ed) w (fun ed' => ed'.owns i - ed.owns i) := by
  unfold editorInsertNewline
  refine Account.bind (editorPushUndo_account ed) fun r w1 hr => ?_
  obtain ⟨stack, top, hshape⟩ := editorPushUndo_shape ed _ _ hr
  obtain ⟨pushed, ed1⟩ := r
  obtain rfl : ed1 = _ := hshape
  refine kmalloc_account (fun new w2 _ hnew => ?_) fun w2 =>
    (discardIf_account pushed _).of_eq fun ed' => by ring
  refine Account.lift fun lines hlines => Account.lift fun current hcurrent => ?_
  refine Account.bind (lineSplit_account current _) fun r w3 hsplit =>
    Account.lift fun lines1 hset => ?_
  have htext := ownsText_set i ed hlines hcurrent hset hy
  refine Account.ite (fun _ => ?_) fun hfail => ?_
  · refine Account.lift fun new1 h1 => Account.bind Account.release fun _ w4 _ => ?_
    refine Account.lift fun new2 h2 => Account.lift fun new3 h3 => (editorChanged_account _).of_eq
      fun ed' => ?_
    have hinserted := linesOwn_inserted (i := i) hy hn h1 h2 h3
    simp only [Editor.owns, Editor.ownsText] at htext hinserted ⊢
    rw [hinserted, htext]
    ring
  · have hnone := lineSplit_none (i := i) current _ _ _ hsplit (by simpa using hfail)
    refine Account.bind Account.release fun _ w4 _ => (discardIf_account pushed _).of_eq fun ed' =>
      ?_
    simp only [Editor.owns, Editor.ownsText] at htext ⊢
    rw [htext, hnone]
    ring

/-! ### Operations -/

theorem editorMoveCursor_account (ed : Editor) (key : SpecialKey) :
    Account i (editorMoveCursor ed key) w (fun ed' => ed'.owns i - ed.owns i) := by
  unfold editorMoveCursor
  refine Account.lift fun ed1 h => Account.pure ?_
  obtain ⟨x, y, rfl⟩ := moveByKey_shape h
  exact Int.sub_self _

/-- **No operation loses a block.** -/
theorem exec_account {v : View} (h : ed.state.Holds v) (op : Op) :
    Account i (exec ed op) w (fun ed' => ed'.owns i - ed.owns i) := by
  have hlines : HoldLines ed.lines ed.numLines v.caret.lines := h.lines
  obtain ⟨hcount, hlt⟩ := hlines.count_lt
  have hn : ed.numLines < 4294967296 := by omega
  have hy : ed.cursorY < ed.numLines := by
    rw [hcount, show ed.cursorY = v.caret.row from h.cursorY]
    exact v.caret.row_lt
  cases op with
  | insertChar c => exact editorInsertChar_account ed c hy
  | insertNewline => exact editorInsertNewline_account ed hy hn
  | deleteBackward => exact editorDeleteBackward_account ed hy hn
  | deleteForward => exact editorDeleteForward_account ed hy hn
  | moveCursor key => exact editorMoveCursor_account ed key
  | undo => exact editorUndo_account ed
  | redo => exact editorRedo_account ed

end

end CobraOS.Snake
