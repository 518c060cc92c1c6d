import CobraOS.Snake.States

/-!
# What the editor operations do

`ed.Holds s` says that the editor `ed` is in the session `s`.  Every operation of the source takes
an editor in a session to one in the session that `Session.exec` gives (`exec_spec`): it has a
result, so that all its accesses are within bounds, whatever requests are refused.
-/

namespace CobraOS.Snake

open Base

/-- The text and the cursor of the editor. -/
structure Editor.At (ed : Editor) (c : Caret UInt8) : Prop where
  lines : HoldLines ed.lines ed.numLines c.lines
  cursorX : ed.cursorX = c.col
  cursorY : ed.cursorY = c.row

structure Editor.Holds (ed : Editor) (s : Session) : Prop where
  state : ed.state.Holds s.view
  modified : ed.modified = s.modified
  undo : HoldStack ed.undoStack ed.undoTop s.undo
  redo : HoldStack ed.redoStack ed.redoTop s.redo

/-- Only the text and the cursor differ. -/
structure Frame (ed ed' : Editor) : Prop where
  scrollX : ed'.scrollX = ed.scrollX
  scrollY : ed'.scrollY = ed.scrollY
  modified : ed'.modified = ed.modified
  undoStack : ed'.undoStack = ed.undoStack
  undoTop : ed'.undoTop = ed.undoTop
  redoStack : ed'.redoStack = ed.redoStack
  redoTop : ed'.redoTop = ed.redoTop

theorem Frame.text (ed : Editor) (lines : Option (Block Line)) (n x y : Nat) :
    Frame ed { ed with lines := lines, numLines := n, cursorX := x, cursorY := y } :=
  ⟨rfl, rfl, rfl, rfl, rfl, rfl, rfl⟩

theorem Editor.Holds.at {ed : Editor} {s : Session} (h : ed.Holds s) : ed.At s.view.caret :=
  ⟨h.state.lines, h.state.cursorX, h.state.cursorY⟩

section

variable {w : World} {ed : Editor} {s : Session} {c : Caret UInt8} {A B : List Text} {t u : Text}

/-! ### Access to the lines -/

theorem HoldLines.count_lt {lines : Option (Block Line)} {n : Nat} {ts : List Text}
    (h : HoldLines lines n ts) : n = ts.length ∧ n < 4194288 := by
  obtain ⟨id, ls, rest, -, hf, hn, hsize⟩ := h
  have := hf.length_eq
  unfold lineSize maxRequest at hsize
  omega

/-- **A line of the array**: it can be read, and replaced by another. -/
theorem HoldLines.focus {lines : Option (Block Line)} {n : Nat}
    (h : HoldLines lines n (A ++ t :: B)) :
    ∃ b l, lines = some b ∧ b.get A.length = some l ∧ l.Holds t ∧ ∀ {l' : Line} {t' : Text},
      l'.Holds t' → ∃ b', b.set A.length l' = some b' ∧ HoldLines (some b') n (A ++ t' :: B) := by
  obtain ⟨id, ls, rest, rfl, hf, hn, hsize⟩ := h
  obtain ⟨la, lb, rfl, ha, hb⟩ := forall₂_append hf
  obtain ⟨l, lb, hl, hb', rfl⟩ := List.forall₂_cons_right_iff.mp hb
  have hcells : (⟨id, (la ++ l :: lb).map some ++ rest⟩ : Block Line).cells =
      la.map some ++ some l :: (lb.map some ++ rest) := by
    simp
  have hi : (la.map some).length = A.length := by rw [List.length_map, ha.length_eq]
  refine ⟨_, l, rfl, Block.get_mid hcells hi, hl, fun {l' t'} hl' => ?_⟩
  refine ⟨_, Block.set_mid l' hcells hi, id, la ++ l' :: lb, rest, by simp,
    List.rel_append ha (.cons hl' hb'), ?_, ?_⟩
  · rw [hn]
    simp
  · simpa using hsize

theorem lineLen_spec {ts : List Text} (h : HoldLines ed.lines ed.numLines ts) {y : Nat}
    (hy : y < ts.length) : lineLen ed y = some ts[y].length := by
  have hsplit : ts.take y ++ ts[y] :: ts.drop (y + 1) = ts := by
    rw [← List.drop_eq_getElem_cons hy, List.take_append_drop]
  rw [← hsplit] at h
  obtain ⟨b, l, hb, hget, hl, -⟩ := h.focus
  rw [List.length_take, Nat.min_eq_left hy.le] at hget
  unfold lineLen
  simp only [hb, hget, Option.bind_eq_bind, Option.bind_some]
  rw [hl.len]

/-! ### Moves -/

theorem Editor.At.goTo (h : ed.At c) {x y k : Nat} (hy : y < c.lines.length)
    (hk : k = min x c.lines[y].length) :
    { ed with cursorX := k, cursorY := y }.At (c.goTo y x) := by
  refine ⟨?_, hk.trans (Caret.goTo_col _ hy).symm, (Caret.goTo_row _ hy).symm⟩
  rw [Caret.lines_goTo]
  exact h.lines

theorem Editor.At.lineLen (h : ed.At c) :
    lineLen ed ed.cursorY = some (c.before ++ c.after).length := by
  have hrow := c.row_lt
  rw [h.cursorY, lineLen_spec h.lines hrow, (List.getElem?_eq_some_iff.mp c.lines_row).2]

theorem Editor.At.goToCol (h : ed.At c) {x k : Nat} (hk : k = min x (c.before ++ c.after).length) :
    { ed with cursorX := k }.At (c.goTo c.row x) := by
  have hrow := c.row_lt
  have := h.goTo hrow (k := k)
      (x := x) (by rw [(List.getElem?_eq_some_iff.mp c.lines_row).2]; exact hk)
  rwa [← h.cursorY] at this ⊢

theorem moveToLine_spec (h : ed.At c) {y : Nat} (hy : y < c.lines.length) :
    ∃ ed', moveToLine ed y = some ed' ∧ ed'.At (c.goTo y c.col) ∧ Frame ed ed' := by
  unfold moveToLine
  rw [lineLen_spec h.lines hy]
  refine ⟨_, rfl, h.goTo hy ?_, .text ..⟩
  rw [h.cursorX]
  split <;> omega

theorem moveLeft_spec (h : ed.At c) :
    ∃ ed', moveByKey ed .left = some ed' ∧ ed'.At c.left ∧ Frame ed ed' := by
  obtain ⟨hl, hx, hy⟩ := h
  have hlines := c.lines_left
  obtain ⟨above, before, after, below⟩ := c
  simp only [Caret.col, Caret.row] at hx hy
  unfold moveByKey
  rcases List.eq_nil_or_concat before with rfl | ⟨before, a, rfl⟩
  · rw [if_neg (by simp [hx])]
    rcases List.eq_nil_or_concat above with rfl | ⟨above, l, rfl⟩
    · rw [if_neg (by simp [hy])]
      exact ⟨_, rfl, ⟨hl, hx, hy⟩, .text ..⟩
    · simp only [List.concat_eq_append, List.length_append, List.length_singleton] at hy
      have hlen := lineLen_spec hl (y := above.length) (by simp [Caret.lines])
      rw [if_pos (by omega), hy, Nat.add_sub_cancel, hlen]
      refine ⟨_, rfl, ⟨?_, ?_, ?_⟩, .text ..⟩
      · rw [hlines]
        exact hl
      · simp [Caret.left, Caret.col, Caret.lines]
      · simp [Caret.left, Caret.row]
  · simp only [List.concat_eq_append, List.length_append, List.length_singleton] at hx
    rw [if_pos (by omega)]
    refine ⟨_, rfl, ⟨?_, ?_, ?_⟩, .text ..⟩
    · rw [hlines]
      exact hl
    · simp [Caret.left, Caret.col, hx]
    · simp [Caret.left, Caret.row, hy]

theorem moveRight_spec (h : ed.At c) :
    ∃ ed', moveByKey ed .right = some ed' ∧ ed'.At c.right ∧ Frame ed ed' := by
  have hlen := h.lineLen
  obtain ⟨hl, hx, hy⟩ := h
  have hlines := c.lines_right
  have hcount := hl.count_lt.1
  obtain ⟨above, before, after, below⟩ := c
  simp only [Caret.col, Caret.row] at hx hy
  simp only [Caret.lines, List.length_append, List.length_cons] at hcount
  unfold moveByKey
  rw [hlen]
  simp only [Option.bind_eq_bind, Option.bind_some, List.length_append]
  cases after with
  | cons a after =>
    rw [if_pos (by simp only [List.length_cons]; omega)]
    refine ⟨_, rfl, ⟨?_, ?_, ?_⟩, .text ..⟩
    · rw [hlines]
      exact hl
    · simp [Caret.right, Caret.col, hx]
    · simp [Caret.right, Caret.row, hy]
  | nil =>
    rw [if_neg (by simp only [List.length_nil]; omega)]
    cases below with
    | nil =>
      rw [if_neg (by simp only [List.length_nil] at hcount; omega)]
      exact ⟨_, rfl, ⟨hl, hx, hy⟩, .text ..⟩
    | cons l below =>
      rw [if_pos (by simp only [List.length_cons] at hcount; omega)]
      refine ⟨_, rfl, ⟨?_, ?_, ?_⟩, .text ..⟩
      · rw [hlines]
        exact hl
      · simp [Caret.right, Caret.col]
      · simp [Caret.right, Caret.row, hy]

/-- **The `switch` of `editor_move_cursor`** takes the cursor where the key says. -/
theorem moveByKey_spec (h : ed.At c) (key : SpecialKey) :
    ∃ ed', moveByKey ed key = some ed' ∧ ed'.At (keyCaret c key) ∧ Frame ed ed' := by
  have hrow := c.row_lt
  have hlen := h.lineLen
  have hcount := h.lines.count_lt
  have hsame : Frame ed ed := .text ..
  cases key with
  | left => exact moveLeft_spec h
  | right => exact moveRight_spec h
  | up =>
    have hiff : 0 < ed.cursorY ↔ 0 < c.row := by rw [h.cursorY]
    simp only [moveByKey, keyCaret]
    by_cases h0 : 0 < c.row
    · rw [if_pos (hiff.mpr h0), if_pos h0, h.cursorY]
      exact moveToLine_spec h (by omega)
    · rw [if_neg (mt hiff.mp h0), if_neg h0]
      exact ⟨_, rfl, h.goToCol (Nat.zero_min _).symm, .text ..⟩
  | down =>
    have hiff : ed.cursorY + 1 < ed.numLines ↔ c.row + 1 < c.lines.length := by
      rw [h.cursorY, hcount.1]
    simp only [moveByKey, keyCaret]
    by_cases h1 : c.row + 1 < c.lines.length
    · rw [if_pos (hiff.mpr h1), if_pos h1, h.cursorY]
      exact moveToLine_spec h h1
    · rw [if_neg (mt hiff.mp h1), if_neg h1, hlen]
      exact ⟨_, rfl, h.goToCol (Nat.min_self _).symm, .text ..⟩
  | home => exact ⟨_, rfl, h.goToCol (Nat.zero_min _).symm, .text ..⟩
  | «end» =>
    simp only [moveByKey, keyCaret]
    rw [hlen]
    exact ⟨_, rfl, h.goToCol (Nat.min_self _).symm, .text ..⟩
  | pageUp =>
    simp only [moveByKey, keyCaret]
    rw [h.cursorY]
    exact moveToLine_spec h (by split <;> omega)
  | pageDown =>
    have hsub : wsub ed.numLines 1 = c.lines.length - 1 := by
      rw [wsub_of_le (by omega) (by omega), hcount.1]
    simp only [moveByKey, keyCaret]
    rw [h.cursorY, hsub, hcount.1]
    exact moveToLine_spec h (by split <;> omega)
  | delete | backspace | enter | tab | save | quit | esc => exact ⟨ed, rfl, h, hsame⟩

/-! ### The stacks of the editor -/

theorem editorPushUndo_spec (h : ed.Holds s) : Meets (editorPushUndo ed) w (fun r w' =>
    Outcome w w' r.1 ∧ r.2.Holds { s with undo := s.undo.save s.view r.1 }) := by
  unfold editorPushUndo
  refine Meets.bind (editorStateClone_spec h.state) ?_
  rintro st w1 ⟨ho, hst⟩
  cases hsome : st.lines.isSome with
  | false =>
    rw [hsome] at ho
    rw [if_pos (by simpa using hsome)]
    exact Meets.pure ⟨ho, h⟩
  | true =>
    rw [hsome] at ho
    rw [if_neg (by rw [← Option.not_isSome, hsome]; decide)]
    refine Meets.bind (undoStackPush_spec h.undo (hst hsome)) ?_
    rintro ⟨stack, top⟩ w2 ⟨hw2, hstack⟩
    refine Meets.pure ⟨?_, h.state, h.modified, hstack, h.redo⟩
    unfold Outcome at *
    rw [hw2]
    exact ho

theorem discardIf_spec {snap : Bool} {hist : History}
    (h : ed.Holds { s with undo := hist.save s.view snap }) :
    Meets (discardIf snap ed) w (fun ed' w' =>
      w'.refusals = w.refusals ∧
        ed'.Holds { s with undo := (hist.save s.view snap).unsave snap }) := by
  cases snap with
  | false => exact Meets.pure ⟨rfl, h⟩
  | true =>
    have hlast : (hist.push s.view).views.getLast? = some s.view := List.getLast?_concat
    have htop : ¬ ed.undoTop < 0 := by
      obtain ⟨id, sts, rest, -, -, htop, -⟩ := h.undo
      have hpos : 0 < (hist.save s.view true).views.length :=
        List.length_pos_iff.mpr (by simp [History.save, History.push])
      simp only at htop
      omega
    obtain ⟨st, hpop, hst, hstack⟩ := undoStackPop_spec h.undo hlast
    show Meets (editorDiscardLastUndo ed) _ _
    unfold editorDiscardLastUndo
    rw [if_neg htop]
    refine Meets.lift hpop (Meets.bind (editorStateFree_spec hst) fun _ w1 hw1 => ?_)
    exact Meets.pure ⟨hw1, h.state, h.modified, hstack, h.redo⟩

/-- **What every edit ends with.** -/
theorem editorChanged_spec {hist hist' : History} (h : ed.At c)
    (hu : HoldStack ed.undoStack ed.undoTop hist) (hr : HoldStack ed.redoStack ed.redoTop hist')
    {v : View} (hx : ed.scrollX = v.scrollX) (hy : ed.scrollY = v.scrollY) :
    Meets (editorChanged ed) w (fun ed' w' => w'.refusals = w.refusals ∧
      ed'.Holds ⟨v.moveTo c, true, hist, .empty⟩) := by
  unfold editorChanged editorClearRedo
  refine Meets.seq (Meets.bind (undoStackClear_spec hr) fun r w1 hr1 => Meets.pure (Meets.pure ?_))
  refine ⟨hr1.1, ⟨h.lines, h.cursorX, h.cursorY, ?_, ?_⟩, rfl, hu, hr1.2⟩
  · show scrollTo screenWidth ed.cursorX ed.scrollX = scrollTo screenWidth c.col v.scrollX
    rw [h.cursorX, hx]
  · show scrollTo textHeight ed.cursorY ed.scrollY = scrollTo textHeight c.row v.scrollY
    rw [h.cursorY, hy]

/-- The result of an edit: the caret `o`, or no change. -/
def Edited (ed ed' : Editor) (c : Caret UInt8) (ok : Bool) (o : Option (Caret UInt8)) : Prop :=
  Frame ed ed' ∧ ok = o.isSome ∧ ed'.At (o.getD c)

/-- **The end of an edit**, of which `ok` says whether it changed the text. -/
theorem finish_spec {snap ok : Bool} {ed' : Editor} {o : Option (Caret UInt8)}
    (h : ed.Holds { s with undo := s.undo.save s.view snap })
    (he : Edited ed ed' s.view.caret ok o) :
    Meets (if ok then editorChanged ed' else discardIf snap ed') w (fun ed'' w' =>
      w'.refusals = w.refusals ∧ ed''.Holds (s.edit snap o)) := by
  obtain ⟨hf, rfl, hat⟩ := he
  have hu : HoldStack ed'.undoStack ed'.undoTop (s.undo.save s.view snap) := by
    rw [hf.undoStack, hf.undoTop]
    exact h.undo
  have hr : HoldStack ed'.redoStack ed'.redoTop s.redo := by
    rw [hf.redoStack, hf.redoTop]
    exact h.redo
  have hx : ed'.scrollX = s.view.scrollX := hf.scrollX.trans h.state.scrollX
  have hy : ed'.scrollY = s.view.scrollY := hf.scrollY.trans h.state.scrollY
  cases o with
  | some c => exact editorChanged_spec hat hu hr hx hy
  | none =>
    have h' : ed'.Holds { s with undo := s.undo.save s.view snap } :=
      ⟨⟨hat.lines, hat.cursorX, hat.cursorY, hx, hy⟩, hf.modified.trans h.modified, hu, hr⟩
    exact discardIf_spec h'

/-! ### Edits of the lines -/

theorem deleteInLine_spec {v : Text} {a : UInt8}
    (h : HoldLines ed.lines ed.numLines (A ++ (u ++ a :: v) :: B)) (hy : ed.cursorY = A.length) :
    Meets (deleteInLine ed u.length) w (fun r w' => w'.refusals = w.refusals ∧ r.1 = true ∧
      ∃ lines, r.2 = { ed with lines := lines } ∧
        HoldLines lines ed.numLines (A ++ (u ++ v) :: B)) := by
  obtain ⟨b, l, hb, hget, hl, hset⟩ := h.focus
  unfold deleteInLine
  rw [hb, hy]
  refine Meets.lift rfl (Meets.lift hget (Meets.bind (lineDeleteChar_spec hl) ?_))
  rintro ⟨ok, l'⟩ w1 ⟨hw1, rfl, hl'⟩
  obtain ⟨b', hset', hlines⟩ := hset hl'
  exact Meets.lift hset' (Meets.pure ⟨hw1, rfl, some b', rfl, hlines⟩)

/-- **`line_join` of two lines that follow each other**, and the array without the second. -/
theorem joinLines_spec {t' : Text} (h : HoldLines ed.lines ed.numLines (A ++ t :: t' :: B)) :
    Meets (joinLines ed A.length) w (fun r w' => Outcome w w' r.1 ∧
      ∃ lines n, r.2 = { ed with lines := lines, numLines := n } ∧
        HoldLines lines n (if r.1 then A ++ (t ++ t') :: B else A ++ t :: t' :: B)) := by
  obtain ⟨hn, hlt⟩ := h.count_lt
  obtain ⟨id, ls, rest, hlines, hf, -, hsize⟩ := h
  obtain ⟨la, lb, rfl, ha, hb⟩ := forall₂_append hf
  obtain ⟨l, lb', hl, hb', rfl⟩ := List.forall₂_cons_right_iff.mp hb
  obtain ⟨l', lb, hl', hlb, rfl⟩ := List.forall₂_cons_right_iff.mp hb'
  have hla := ha.length_eq
  have hlbl := hlb.length_eq
  have hcells : (⟨id, (la ++ l :: l' :: lb).map some ++ rest⟩ : Block Line).cells =
      la.map some ++ some l :: (some l' :: lb.map some ++ rest) := by
    simp
  have hcells' : (⟨id, (la ++ l :: l' :: lb).map some ++ rest⟩ : Block Line).cells =
      (la ++ [l]).map some ++ some l' :: (lb.map some ++ rest) := by
    simp
  have hi : (la.map some).length = A.length := by rw [List.length_map, ha.length_eq]
  have hi' : ((la ++ [l]).map some).length = A.length + 1 := by
    rw [List.length_map, List.length_append, ha.length_eq, List.length_singleton]
  simp only [List.length_append, List.length_cons] at hn hsize
  unfold joinLines
  rw [hlines]
  refine Meets.lift rfl
    (Meets.lift (Block.get_mid hcells hi) (Meets.lift (Block.get_mid hcells' hi')
    (Meets.bind (lineJoin_spec hl hl') ?_)))
  rintro ⟨ok, d⟩ w1 ⟨ho, hok, hfail⟩
  refine Meets.lift (Block.set_mid d hcells hi) ?_
  cases ok with
  | false =>
    obtain rfl : d = l := hfail rfl
    exact Meets.pure ⟨ho, _, _, rfl, id, la ++ d :: l' :: lb, rest, by simp,
      List.rel_append ha (.cons hl (.cons hl' hlb)), by simp [hn], by simpa using hsize⟩
  | true =>
    have hmove := Block.copy_mid (n := lb.length) (j := A.length + 1) (i := A.length + 2)
      (show (⟨id, la.map some ++ some d :: (some l' :: lb.map some ++ rest)⟩ : Block Line).cells =
        (la ++ [d]).map some ++ (((l' :: lb).map some).take lb.length ++
          (((l' :: lb).map some).drop lb.length ++ rest)) by
        rw [← List.append_assoc (List.take _ _), List.take_append_drop]
        simp)
      (show (⟨id, la.map some ++ some d :: (some l' :: lb.map some ++ rest)⟩ : Block Line).cells =
        (la ++ [d, l']).map some ++ (lb.map some ++ rest) by simp)
      (by simp [ha.length_eq]) (by simp [ha.length_eq]) (by simp) (by simp)
    have hcount : wsub (wsub ed.numLines (A.length + 1)) 1 = lb.length := by
      rw [wsub_of_le (show A.length + 1 ≤ ed.numLines by omega) (by omega),
        wsub_of_le (by omega) (by omega)]
      omega
    simp only [if_true]
    rw [hcount]
    refine Meets.seq (Meets.release fun w2 hw2 => Meets.lift hmove (Meets.pure ⟨?_, _, _, rfl, id,
      la ++ d :: lb, ((l' :: lb).map some).drop lb.length ++ rest, ?_,
      List.rel_append ha (.cons (hok rfl) hlb), ?_, ?_⟩))
    · unfold Outcome at *
      rw [hw2]
      exact ho
    · simp
    · show ed.numLines - 1 = (A ++ (t ++ t') :: B).length
      rw [List.length_append, List.length_cons]
      omega
    · simp only [List.length_append, List.length_cons, List.length_drop, List.length_map]
      unfold lineSize at *
      omega

theorem Outcome.same {w' : World} (h : w'.refusals = w.refusals) : Outcome w w' true :=
  Or.inl ⟨rfl, h⟩

/-- **What `editor_delete_backward` does to the text.** -/
theorem deleteBefore_spec (h : ed.At c) : Meets (deleteBefore ed) w (fun r w' =>
    ∃ room, Outcome w w' room ∧
      Edited ed r.2 c r.1 (if room then c.eraseBefore else none)) := by
  obtain ⟨hl, hx, hy⟩ := h
  obtain ⟨above, before, after, below⟩ := c
  simp only [Caret.col, Caret.row] at hx hy
  unfold deleteBefore
  rcases List.eq_nil_or_concat before with rfl | ⟨before, a, rfl⟩
  · rw [if_neg (by simp [hx])]
    rcases List.eq_nil_or_concat above with rfl | ⟨above, t, rfl⟩
    · rw [if_neg (by simp [hy])]
      exact Meets.pure ⟨true, .same rfl, .text .., rfl, hl, hx, hy⟩
    · simp only [List.concat_eq_append, List.length_append, List.length_singleton] at hy
      have hlines : HoldLines ed.lines ed.numLines (above ++ t :: after :: below) := by
        simpa [Caret.lines] using hl
      have hlen : lineLen ed above.length = some t.length := by
        simpa using lineLen_spec hlines (y := above.length) (by simp)
      rw [if_pos (by omega), hy, Nat.add_sub_cancel]
      refine Meets.lift hlen (Meets.bind (joinLines_spec hlines) ?_)
      rintro ⟨ok, ed'⟩ w1 ⟨ho, lines, n, rfl, hjoined⟩
      refine Meets.pure ⟨ok, ho, ?_⟩
      cases ok with
      | false =>
        refine ⟨.text .., rfl, ?_, hx, ?_⟩
        · simpa [Caret.lines] using hjoined
        · simpa [Caret.row] using hy
      | true =>
        refine ⟨.text .., ?_, ?_, ?_, ?_⟩
        · simp [Caret.eraseBefore]
        · simpa [Caret.eraseBefore, Caret.lines] using hjoined
        · simp [Caret.eraseBefore, Caret.col]
        · simp [Caret.eraseBefore, Caret.row, hy]
  · simp only [List.concat_eq_append, List.length_append, List.length_singleton] at hx
    have hlines : HoldLines ed.lines ed.numLines (above ++ (before ++ a :: after) :: below) := by
      simpa [Caret.lines] using hl
    rw [if_pos (by omega), hx, Nat.add_sub_cancel]
    refine Meets.bind (deleteInLine_spec hlines hy) ?_
    rintro ⟨ok, ed'⟩ w1 ⟨hw1, rfl, lines, rfl, hcut⟩
    refine Meets.pure ⟨true, .same hw1, .text .., ?_, ?_, ?_, ?_⟩
    · simp [Caret.eraseBefore]
    · simpa [Caret.eraseBefore, Caret.lines] using hcut
    · simp [Caret.eraseBefore, Caret.col, hx]
    · simpa [Caret.eraseBefore, Caret.row] using hy

/-- **What `editor_delete_forward` does to the text.** -/
theorem deleteAt_spec (h : ed.At c) : Meets (deleteAt ed) w (fun r w' =>
    ∃ room, Outcome w w' room ∧ Edited ed r.2 c r.1 (if room then c.eraseAt else none)) := by
  have hlen := h.lineLen
  obtain ⟨hl, hx, hy⟩ := h
  have hcount := hl.count_lt.1
  obtain ⟨above, before, after, below⟩ := c
  simp only [Caret.col, Caret.row] at hx hy
  simp only [Caret.lines, List.length_append, List.length_cons] at hcount
  simp only [List.length_append] at hlen
  unfold deleteAt
  refine Meets.lift hlen ?_
  cases after with
  | cons a after =>
    rw [if_pos (by simp only [List.length_cons]; omega), hx]
    refine Meets.mono (deleteInLine_spec hl hy) ?_
    rintro ⟨ok, ed'⟩ w1 ⟨hw1, rfl, lines, rfl, hcut⟩
    exact ⟨true, .same hw1, .text .., rfl, hcut, hx, hy⟩
  | nil =>
    rw [if_neg (by simp only [List.length_nil]; omega)]
    cases below with
    | nil =>
      rw [if_neg (by simp only [List.length_nil] at hcount; omega)]
      exact Meets.pure ⟨true, .same rfl, .text .., rfl, hl, hx, hy⟩
    | cons t below =>
      have hlines : HoldLines ed.lines ed.numLines (above ++ before :: t :: below) := by
        simpa [Caret.lines] using hl
      rw [if_pos (by simp only [List.length_cons] at hcount; omega), hy]
      refine Meets.mono (joinLines_spec hlines) ?_
      rintro ⟨ok, ed'⟩ w1 ⟨ho, lines, n, rfl, hjoined⟩
      refine ⟨ok, ho, ?_⟩
      cases ok with
      | false =>
        refine ⟨.text .., rfl, ?_, hx, hy⟩
        simpa [Caret.lines] using hjoined
      | true => exact ⟨.text .., rfl, hjoined, hx, hy⟩

/-- **The array of `editor_insert_newline`**: the lines are copied, those below the cursor move down
by one place, and the new line comes between. -/
theorem splitArray {i j : Nat} {la lb : List Line} (l1 l2 : Line) (rest : List (Option Line))
    {n k : Nat} (hla : la.length = k) (hn : n = k + 1 + lb.length) :
    ∃ b1 b2, (⟨i, List.replicate (n + 1) none⟩ : Block Line).copy 0
        ⟨j, (la ++ l1 :: lb).map some ++ rest⟩ 0 n = some b1 ∧
      b1.copy (k + 2) b1 (k + 1) lb.length = some b2 ∧
      b2.set (k + 1) l2 = some ⟨i, (la ++ l1 :: l2 :: lb).map some ++ []⟩ := by
  have hcopy := Block.copy_fresh (n := n) i
    (show (⟨j, (la ++ l1 :: lb).map some ++ rest⟩ : Block Line).cells =
      [] ++ ((la ++ l1 :: lb).map some ++ rest) from rfl) rfl (by simp; omega)
  -- the place of the new line, and the cells after it
  obtain ⟨x, xs, hx, hxs⟩ : ∃ x xs, lb.map some ++ [none] = x :: xs ∧ xs.length = lb.length := by
    cases lb with
    | nil => exact ⟨none, [], rfl, rfl⟩
    | cons l lb => exact ⟨some l, lb.map some ++ [none], rfl, by simp⟩
  have hmove := Block.copy_mid (n := lb.length) (i := k + 1) (j := k + 2)
    (show (⟨i, (la ++ l1 :: lb).map some ++ [none]⟩ : Block Line).cells =
      ((la ++ [l1]).map some ++ [x]) ++ (xs ++ []) by
      rw [List.append_nil, List.append_assoc, List.singleton_append, ← hx]
      simp)
    (show (⟨i, (la ++ l1 :: lb).map some ++ [none]⟩ : Block Line).cells =
      (la ++ [l1]).map some ++ (lb.map some ++ [none]) by simp)
    (by simp [hla]) (by simp [hla]) (by simp) hxs
  have hset := Block.set_mid (i := k + 1) l2
    (show (⟨i, ((la ++ [l1]).map some ++ [x]) ++ (lb.map some ++ [])⟩ : Block Line).cells =
      (la ++ [l1]).map some ++ x :: lb.map some by simp) (by simp [hla])
  refine ⟨_, _, hcopy, hmove, hset.trans ?_⟩
  simp

/-! ### Edits -/

/-- The end of an edit of the text at `c`, which is to become `f room`, leads to `Q`. -/
def Ends (ed : Editor) (w : World) (snap : Bool) (c : Caret UInt8) (f : Bool → Option (Caret UInt8))
    (Q : Editor → World → Prop) : Prop :=
  ∀ ok ed' w' room, Outcome w w' room → Edited ed ed' c ok (f room) →
    Meets (if ok then editorChanged ed' else discardIf snap ed') w' Q

/-- **An edit**: first the view is saved, then the text is changed to `f c room`, and what follows
is the same for all edits. -/
def Edits (ed : Editor) (w : World) (m : Alloc Editor)
    (f : Caret UInt8 → Bool → Option (Caret UInt8)) : Prop :=
  ∀ ⦃snap ed1 w1 c Q⦄, editorPushUndo ed w = some ((snap, ed1), w1) → ed1.At c →
    Ends ed1 w1 snap c (f c) Q → Meets m w Q

theorem editorDeleteBackward_edits : Edits ed w (editorDeleteBackward ed)
    (fun c room => editCaret c room .deleteBackward) := by
  intro snap ed1 w1 c Q hpush hat hend
  refine Meets.run hpush (Meets.bind (deleteBefore_spec hat) ?_)
  rintro ⟨ok, ed2⟩ w2 ⟨room, ho, he⟩
  exact hend ok ed2 w2 room ho he

theorem editorDeleteForward_edits : Edits ed w (editorDeleteForward ed)
    (fun c room => editCaret c room .deleteForward) := by
  intro snap ed1 w1 c Q hpush hat hend
  refine Meets.run hpush (Meets.bind (deleteAt_spec hat) ?_)
  rintro ⟨ok, ed2⟩ w2 ⟨room, ho, he⟩
  exact hend ok ed2 w2 room ho he

theorem editorInsertChar_edits (a : UInt8) : Edits ed w (editorInsertChar ed a)
    (fun c room => editCaret c room (.insertChar a)) := by
  intro snap ed1 w1 c Q hpush hat hend
  obtain ⟨hl, hx, hy⟩ := hat
  obtain ⟨b, l, hb, hget, hline, hset⟩ := HoldLines.focus hl
  rw [← Caret.row, ← hy] at hget hset
  have hspec := lineInsertChar_spec (w := w1) hline a
  rw [← Caret.col, ← hx] at hspec
  refine Meets.run hpush (Meets.lift hb (Meets.lift hget (Meets.bind hspec ?_)))
  rintro ⟨ok, l'⟩ w2 ⟨ho, hok, hfail⟩
  cases ok with
  | false =>
    obtain rfl : l' = l := hfail rfl
    obtain ⟨b', hset', hlines⟩ := hset hline
    have he : Edited ed1 { ed1 with lines := some b' } c false none :=
      ⟨.text .., rfl, hlines, hx, hy⟩
    exact Meets.lift hset' (hend false _ w2 false ho he)
  | true =>
    obtain ⟨b', hset', hlines⟩ := hset (hok rfl)
    have he : Edited ed1 { ed1 with lines := some b', cursorX := ed1.cursorX + 1 } c true
        (some (c.insert a)) := by
      refine ⟨.text .., rfl, ?_, ?_, hy⟩
      · simpa [Caret.insert, Caret.lines] using hlines
      · show ed1.cursorX + 1 = _
        rw [hx]
        simp [Caret.insert, Caret.col]
    exact Meets.lift hset' (hend true _ w2 true ho he)

theorem newline_edited {i : Nat} {la lb : List Line} {l1 l2 : Line}
    (ha : List.Forall₂ Line.Holds la c.above) (hl1 : l1.Holds c.before) (hl2 : l2.Holds c.after)
    (hb : List.Forall₂ Line.Holds lb c.below) (hn : ed.numLines = c.lines.length)
    (hy : ed.cursorY = c.row) (hmax : (ed.numLines + 1) * lineSize ≤ maxRequest) :
    Edited ed { ed with
      lines := some ⟨i, (la ++ l1 :: l2 :: lb).map some ++ []⟩
      numLines := ed.numLines + 1
      cursorY := ed.cursorY + 1
      cursorX := 0 } c true (some c.newline) := by
  have hla := ha.length_eq
  have hlb := hb.length_eq
  have hlines : c.lines.length = c.above.length + (c.below.length + 1) := by simp [Caret.lines]
  refine ⟨.text .., rfl, ⟨i, la ++ l1 :: l2 :: lb, [], rfl, ?_, ?_, ?_⟩, rfl, ?_⟩
  · have hheld := List.rel_append ha (.cons hl1 (.cons hl2 hb))
    simpa [Caret.newline, Caret.lines] using hheld
  · show ed.numLines + 1 = _
    rw [hn]
    simp [Caret.newline, Caret.lines]
    omega
  · simp only [List.length_append, List.length_cons, List.length_nil]
    rwa [show la.length + (lb.length + 1 + 1) + 0 = ed.numLines + 1 by omega]
  · show ed.cursorY + 1 = _
    rw [hy]
    simp [Caret.newline, Caret.row]

theorem editorInsertNewline_edits : Edits ed w (editorInsertNewline ed)
    (fun c room => editCaret c room .insertNewline) := by
  intro snap ed1 w1 c Q hpush hat hend
  have hsame : Edited ed1 ed1 c false none := ⟨.text .., rfl, hat⟩
  obtain ⟨hl, hx, hy⟩ := hat
  obtain ⟨hcount, hlt⟩ := hl.count_lt
  obtain ⟨id, ls, rest, hlines, hf, -, hsize⟩ := hl
  obtain ⟨la, lb, rfl, ha, hb⟩ := forall₂_append hf
  obtain ⟨l, lb, hline, hlb, rfl⟩ := List.forall₂_cons_right_iff.mp hb
  have hla : la.length = ed1.cursorY := ha.length_eq.trans hy.symm
  have hn : ed1.numLines = ed1.cursorY + 1 + lb.length := by
    have := hf.length_eq
    simp only [List.length_append, List.length_cons] at this
    change ed1.numLines = c.lines.length at hcount
    change _ = c.lines.length at this
    omega
  have hmod : (ed1.numLines + 1) * lineSize % 4294967296 = (ed1.numLines + 1) * lineSize := by
    unfold lineSize
    exact Nat.mod_eq_of_lt (by omega)
  have hsub : wsub (wsub ed1.numLines ed1.cursorY) 1 = lb.length := by
    rw [wsub_of_le (show ed1.cursorY ≤ ed1.numLines by omega) (by omega),
      wsub_of_le (by omega) (by omega)]
    omega
  refine Meets.run hpush ?_
  simp only [kmalloc, hmod]
  refine Meets.seq (Meets.request ?_ ?_)
  · intro idn w2 _ hmax hw2
    rw [Nat.mul_div_cancel _ (by decide)]
    have hcells : (⟨id, (la ++ l :: lb).map some ++ rest⟩ : Block Line).cells =
        la.map some ++ some l :: (lb.map some ++ rest) := by
      simp
    have hi : (la.map some).length = ed1.cursorY := by rw [List.length_map, hla]
    have hspec := lineSplit_spec (w := w2) hline
    rw [← Caret.col, ← hx] at hspec
    refine Meets.lift hlines (Meets.lift (Block.get_mid hcells hi) (Meets.bind hspec ?_))
    rintro ⟨ok, l1, l2⟩ w3 ⟨ho, hok, hfail⟩
    have hform : (⟨id, la.map some ++ some l1 :: (lb.map some ++ rest)⟩ : Block Line) =
        ⟨id, (la ++ l1 :: lb).map some ++ rest⟩ := by
      simp
    have hset := (Block.set_mid l1 hcells hi).trans (congrArg some hform)
    refine Meets.lift hset ?_
    cases ok with
    | false =>
      obtain rfl : l1 = l := hfail rfl
      have he : Edited ed1 { ed1 with lines := some ⟨id, (la ++ l1 :: lb).map some ++ rest⟩ } c
          false none :=
        ⟨.text .., rfl, ⟨id, _, rest, rfl, hf, hcount, hsize⟩, hx, hy⟩
      refine Meets.seq (Meets.release fun w4 hw4 => hend false _ w4 false ?_ he)
      exact (Outcome.trans hw2 ho).then hw4
    | true =>
      obtain ⟨hl1, hl2⟩ := hok rfl
      obtain ⟨b1, b2, hcopy, hmove, hput⟩ := splitArray (i := idn) (j := id) l1 l2 rest hla hn
      have he := newline_edited (i := idn) ha hl1 hl2 hlb hcount hy hmax
      simp only [if_true]
      rw [hsub]
      refine Meets.lift hcopy
        (Meets.seq (Meets.release fun w4 hw4 => Meets.lift hmove (Meets.lift hput ?_)))
      exact hend true _ w4 true ((Outcome.trans hw2 ho).then hw4) he
  · intro w2 hw2
    exact hend false ed1 w2 false (Or.inr ⟨rfl, by omega⟩) hsame

/-- **An edit with its snapshot**: first the view is saved, then the edit itself goes on in the
world `w1` in which the text is to change to `f room`. -/
def Refines (ed : Editor) (w : World) (m : Alloc Editor) (s : Session)
    (f : Bool → Option (Caret UInt8)) : Prop :=
  ∃ snap ed1 w1, editorPushUndo ed w = some ((snap, ed1), w1) ∧ Outcome w w1 snap ∧
    Meets m w (fun ed' w' => ∃ room, Outcome w1 w' room ∧ ed'.Holds (s.edit snap (f room)))

theorem Edits.refines {m : Alloc Editor} {f : Caret UInt8 → Bool → Option (Caret UInt8)}
    (hm : Edits ed w m f) (h : ed.Holds s) : Refines ed w m s (f s.view.caret) := by
  obtain ⟨⟨snap, ed1⟩, w1, hrun, ho, h1⟩ := editorPushUndo_spec (w := w) h
  refine ⟨snap, ed1, w1, hrun, ho, hm hrun h1.at fun ok ed2 w2 room ho2 he => ?_⟩
  exact (finish_spec h1 he).mono fun ed3 w3 h3 => ⟨room, ho2.then h3.1, h3.2⟩

theorem editorDeleteBackward_spec (h : ed.Holds s) : Refines ed w (editorDeleteBackward ed) s
    (fun room => editCaret s.view.caret room .deleteBackward) :=
    editorDeleteBackward_edits.refines h

theorem editorDeleteForward_spec (h : ed.Holds s) : Refines ed w (editorDeleteForward ed) s
    (fun room => editCaret s.view.caret room .deleteForward) := editorDeleteForward_edits.refines h

theorem editorInsertChar_spec (h : ed.Holds s) (a : UInt8) : Refines ed w (editorInsertChar ed a) s
    (fun room => editCaret s.view.caret room (.insertChar a)) :=
    (editorInsertChar_edits a).refines h

theorem editorInsertNewline_spec (h : ed.Holds s) : Refines ed w (editorInsertNewline ed) s
    (fun room => editCaret s.view.caret room .insertNewline) := editorInsertNewline_edits.refines h

/-! ### Moves, undo and redo -/

theorem editorMoveCursor_spec (h : ed.Holds s) (key : SpecialKey) :
    Meets (editorMoveCursor ed key) w (fun ed' w' => w'.refusals = w.refusals ∧
      ed'.Holds (s.move (keyCaret s.view.caret key))) := by
  obtain ⟨ed', hr, hat, hf⟩ := moveByKey_spec h.at key
  refine Meets.lift hr (Meets.pure ⟨rfl, ⟨hat.lines, hat.cursorX, hat.cursorY, ?_, ?_⟩,
    hf.modified.trans h.modified, ?_, ?_⟩)
  · show scrollTo screenWidth ed'.cursorX ed'.scrollX = scrollTo screenWidth _ s.view.scrollX
    rw [hat.cursorX, hf.scrollX]
    exact congrArg _ h.state.scrollX
  · show scrollTo textHeight ed'.cursorY ed'.scrollY = scrollTo textHeight _ s.view.scrollY
    rw [hat.cursorY, hf.scrollY]
    exact congrArg _ h.state.scrollY
  · show HoldStack ed'.undoStack ed'.undoTop _
    rw [hf.undoStack, hf.undoTop]
    exact h.undo
  · show HoldStack ed'.redoStack ed'.redoTop _
    rw [hf.redoStack, hf.redoTop]
    exact h.redo

theorem pushIf_spec {stack : Option (Block EditorState)} {top : Int} {hist : History}
    (hs : HoldStack stack top hist) {st : EditorState} {v : View}
    (hst : st.lines.isSome = true → st.Holds v) : Meets (pushIf stack top st) w (fun r w' =>
      w'.refusals = w.refusals ∧ HoldStack r.1 r.2 (hist.save v st.lines.isSome)) := by
  unfold pushIf
  cases hsome : st.lines.isSome with
  | false => exact Meets.pure ⟨rfl, hs⟩
  | true => exact undoStackPush_spec hs (hst hsome)

theorem HoldStack.top_neg {stack : Option (Block EditorState)} {top : Int} {hist : History}
    (hs : HoldStack stack top hist) : top < 0 ↔ hist.views.getLast? = none := by
  obtain ⟨id, sts, rest, -, -, htop, -⟩ := hs
  rw [List.getLast?_eq_none_iff, ← List.length_eq_zero_iff]
  omega

theorem exchangeStates_spec (h : ed.Holds s) {src dst : Option (Block EditorState)}
    {srcTop dstTop : Int} {hist hist' : History} (hs : HoldStack src srcTop hist)
    (ht : HoldStack dst dstTop hist') {v : View} (hv : hist.views.getLast? = some v) :
    Meets (exchangeStates ed src srcTop dst dstTop) w (fun r w' =>
      ∃ snap, Outcome w w' snap ∧ r.1.state.Holds v ∧ r.1.modified = true ∧
        HoldStack src r.2.1 hist.pop ∧
        HoldStack r.2.2.1 r.2.2.2 (hist'.save s.view snap) ∧ r.1.undoStack = ed.undoStack ∧
        r.1.redoStack = ed.redoStack) := by
  refine Meets.bind (editorStateClone_spec h.state) ?_
  rintro current w1 ⟨ho, hcur⟩
  refine Meets.bind (pushIf_spec ht hcur) ?_
  rintro ⟨dst, dstTop⟩ w2 ⟨hw2, hto⟩
  obtain ⟨st, hpop, hst, hsrc⟩ := undoStackPop_spec hs hv
  refine Meets.lift hpop (Meets.bind (editorStateRestore_spec h.state hst) ?_)
  rintro ⟨ed', st'⟩ w3 ⟨hw3, hed, hnull⟩
  simp only at hed hnull
  subst hed
  refine Meets.bind (editorStateFree_null hnull) fun _ w4 hw4 => ?_
  exact Meets.pure ⟨_, ho.then (hw4.trans (hw3.trans hw2)),
    ⟨hst.lines, hst.cursorX, hst.cursorY, hst.scrollX, hst.scrollY⟩, rfl, hsrc, hto, rfl, rfl⟩

theorem editorUndo_spec (h : ed.Holds s) : Meets (editorUndo ed) w (fun ed' w' =>
    ∃ snap, Outcome w w' snap ∧ ed'.Holds (s.back snap)) := by
  unfold editorUndo Session.back
  have hneg := h.undo.top_neg
  cases hv : s.undo.views.getLast? with
  | none =>
    rw [if_pos (hneg.mpr hv)]
    exact Meets.pure ⟨true, .same rfl, h⟩
  | some v =>
    rw [if_neg (by rw [hneg, hv]; simp)]
    refine Meets.bind (exchangeStates_spec h h.undo h.redo hv) ?_
    rintro ⟨ed', top, stack, top'⟩ w1 ⟨snap, ho, hst, hm, hsrc, hto, hu, -⟩
    refine Meets.pure ⟨snap, ho, hst, hm, ?_, hto⟩
    show HoldStack ed'.undoStack _ _
    rw [hu]
    exact hsrc

theorem editorRedo_spec (h : ed.Holds s) : Meets (editorRedo ed) w (fun ed' w' =>
    ∃ snap, Outcome w w' snap ∧ ed'.Holds (s.forth snap)) := by
  unfold editorRedo Session.forth
  have hneg := h.redo.top_neg
  cases hv : s.redo.views.getLast? with
  | none =>
    rw [if_pos (hneg.mpr hv)]
    exact Meets.pure ⟨true, .same rfl, h⟩
  | some v =>
    rw [if_neg (by rw [hneg, hv]; simp)]
    refine Meets.bind (exchangeStates_spec h h.redo h.undo hv) ?_
    rintro ⟨ed', top, stack, top'⟩ w1 ⟨snap, ho, hst, hm, hsrc, hto, -, hr⟩
    refine Meets.pure ⟨snap, ho, hst, hm, hto, ?_⟩
    show HoldStack ed'.redoStack _ _
    rw [hr]
    exact hsrc

/-- **The refinement**: an operation takes an editor in a session to one in the session that
`Session.exec` gives. -/
theorem exec_spec (h : ed.Holds s) (op : Op) :
    Meets (exec ed op) w (fun ed' _ => ∃ snap room, ed'.Holds (s.exec snap room op)) := by
  have hedit : ∀ {m : Alloc Editor} {f : Bool → Option (Caret UInt8)}, Refines ed w m s f →
      Meets m w (fun ed' _ => ∃ snap room, ed'.Holds (s.edit snap (f room))) := by
    rintro m f ⟨snap, ed1, w1, -, -, hm⟩
    exact hm.mono fun ed' w' ⟨room, _, h'⟩ => ⟨snap, room, h'⟩
  cases op with
  | insertChar a => exact hedit (editorInsertChar_spec h a)
  | insertNewline => exact hedit (editorInsertNewline_spec h)
  | deleteBackward => exact hedit (editorDeleteBackward_spec h)
  | deleteForward => exact hedit (editorDeleteForward_spec h)
  | moveCursor key => exact (editorMoveCursor_spec h key).mono fun _ _ h' => ⟨true, true, h'.2⟩
  | undo => exact (editorUndo_spec h).mono fun _ _ ⟨snap, _, h'⟩ => ⟨snap, true, h'⟩
  | redo => exact (editorRedo_spec h).mono fun _ _ ⟨snap, _, h'⟩ => ⟨snap, true, h'⟩

end
end CobraOS.Snake
