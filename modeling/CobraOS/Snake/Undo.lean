import CobraOS.Snake.FlatText
import CobraOS.Snake.Loaded

/-!
# Undo and redo are inverse

In a session, as many steps forth as there were back lead to where it was (`Session.back_forth`),
and a series of edits keeps the views it has left, the first one undermost (`Session.Kept`).  When
no request is refused, the editor does what the session does (`exec_granted`).  So undo takes the
editor back over any edits it can hold, and redo forth again (`undo_redo_inverse`).
-/

namespace CobraOS.Snake

open Base

/-! ### Histories -/

theorem History.eq_of_views {h h' : History} (hv : h.views = h'.views) : h = h' := by
  cases h
  cases h'
  cases hv
  rfl

theorem History.push_views {h : History} (hlt : h.views.length < maxUndoLevels) (v : View) :
    (h.push v).views = h.views ++ [v] := by
  show (if _ then _ else _) ++ [v] = _
  rw [if_pos hlt]

theorem History.pop_push {h : History} (hlt : h.views.length < maxUndoLevels) (v : View) :
    (h.push v).pop = h := by
  apply History.eq_of_views
  show (h.push v).views.dropLast = _
  rw [History.push_views hlt, List.dropLast_concat]

theorem History.push_pop {h : History} {vs : List View} {v : View} (hv : h.views = vs ++ [v]) :
    h.pop.push v = h := by
  have hle := h.length_le
  have hpop : h.pop.views = vs := by
    show h.views.dropLast = vs
    rw [hv, List.dropLast_concat]
  rw [hv, List.length_append, List.length_singleton] at hle
  apply History.eq_of_views
  rw [History.push_views (by rw [hpop]; omega), hpop, hv]

/-! ### Sessions -/

namespace Session

variable {s : Session}

/-- Operations for which there is memory. -/
def run (s : Session) (ops : List Op) : Session := ops.foldl (fun s op => s.exec true true op) s

theorem back_eq {vs : List View} {v : View} (hv : s.undo.views = vs ++ [v]) :
    s.back true = ⟨v, true, s.undo.pop, s.redo.push s.view⟩ := by
  unfold back
  rw [hv, List.getLast?_concat]
  rfl

theorem forth_back {vs : List View} {v : View} (hv : s.undo.views = vs ++ [v])
    (hr : s.redo.views.length < maxUndoLevels) :
    (s.back true).forth true = { s with modified := true } := by
  rw [back_eq hv]
  unfold forth
  simp only [History.push_views hr, List.getLast?_concat]
  show Session.mk s.view true (s.undo.pop.push v) (s.redo.push s.view).pop = _
  rw [History.push_pop hv, History.pop_push hr]

/-- **Back to the view `v`, and forth again.** -/
theorem back_forth {pre : List View} {v : View} (vs : List View) : ∀ {s : Session},
    s.undo.views = pre ++ v :: vs → s.redo.views.length + (vs.length + 1) ≤ maxUndoLevels →
    (s.run (List.replicate (vs.length + 1) .undo)).view = v ∧
      (s.run (List.replicate (vs.length + 1) .undo)).run (List.replicate (vs.length + 1) .redo) =
        { s with modified := true } := by
  induction vs using List.reverseRecOn with
  | nil =>
    intro s hv hr
    have hback := back_eq hv
    exact ⟨congrArg Session.view hback, forth_back hv (by simp only [List.length_nil] at hr; omega)⟩
  | append_singleton vs x ih =>
    intro s hv hr
    rw [List.length_append, List.length_singleton] at hr ⊢
    have hv' : s.undo.views = (pre ++ v :: vs) ++ [x] := by
      rw [hv]
      simp
    have hback := back_eq hv'
    have hundo : (s.back true).undo.views = pre ++ v :: vs := by
      rw [hback]
      show s.undo.views.dropLast = _
      rw [hv', List.dropLast_concat]
    have hredo : (s.back true).redo.views.length + (vs.length + 1) ≤ maxUndoLevels := by
      rw [hback]
      show (s.redo.push s.view).views.length + _ ≤ _
      rw [History.push_views (by omega), List.length_append, List.length_singleton]
      omega
    obtain ⟨hview, hforth⟩ := ih hundo hredo
    have hmod : { s.back true with modified := true } = s.back true := by
      rw [hback]
    refine ⟨hview, ?_⟩
    -- the last step forth is the one that undoes the first step back
    rw [List.replicate_succ' (n := vs.length + 1) (a := Op.redo)]
    unfold run at hforth ⊢
    rw [List.foldl_append]
    show Session.forth (List.foldl _ (List.foldl _ (s.back true) _) _) true = _
    rw [hforth, hmod]
    exact forth_back hv' (by omega)

/-! ### Edits -/

/-- Since the view `v`, there have been `n` edits. -/
def Kept (v : View) (n : Nat) (s : Session) : Prop :=
  (∃ pre vs, s.undo.views = pre ++ v :: vs ∧ vs.length + 1 = n) ∧ s.redo = .empty

theorem kept_first (s : Session) (c : Caret UInt8) : (s.edit true (some c)).Kept s.view 1 :=
  ⟨⟨_, [], rfl, rfl⟩, rfl⟩

/-- The history does not forget the view when it is full, since older ones are below. -/
theorem Kept.edit {v : View} {n : Nat} (h : s.Kept v n) (hn : n < maxUndoLevels) (c : Caret UInt8) :
    (s.edit true (some c)).Kept v (n + 1) := by
  obtain ⟨⟨pre, vs, hv, hlen⟩, -⟩ := h
  refine ⟨?_, rfl⟩
  show ∃ pre' vs', (if s.undo.views.length < maxUndoLevels then s.undo.views
    else s.undo.views.tail) ++ [s.view] = pre' ++ v :: vs' ∧ vs'.length + 1 = n + 1
  by_cases hlt : s.undo.views.length < maxUndoLevels
  · rw [if_pos hlt, hv]
    exact ⟨pre, vs ++ [s.view], by simp, by simp [hlen]⟩
  · rw [if_neg hlt, hv]
    rw [hv, List.length_append, List.length_cons] at hlt
    obtain ⟨x, pre, rfl⟩ := List.exists_cons_of_length_pos (show 0 < pre.length by omega)
    exact ⟨pre, vs ++ [s.view], by simp, by simp [hlen]⟩

theorem Kept.move {v : View} {n : Nat} (h : s.Kept v n) (c : Caret UInt8) : (s.move c).Kept v n := h

end Session

/-! ### The editor, with memory -/

section

variable {w w' : World} {ed ed' : Editor} {s : Session}

/-- **With memory, the editor does what the session does.** -/
theorem exec_granted (h : ed.Holds s) (op : Op) :
    Meets (exec ed op) w (fun ed' w' => w.refusals ≤ w'.refusals ∧ (∃ s', ed'.Holds s') ∧
      (w'.refusals = w.refusals → ed'.Holds (s.exec true true op))) := by
  have hedit : ∀ {m : Alloc Editor} {f : Bool → Option (Caret UInt8)}, Refines ed w m s f →
      Meets m w (fun ed' w' => w.refusals ≤ w'.refusals ∧ (∃ s', ed'.Holds s') ∧
        (w'.refusals = w.refusals → ed'.Holds (s.edit true (f true)))) := by
    rintro m f ⟨snap, ed1, w1, -, ho, hm⟩
    refine hm.mono fun ed' w' ⟨room, ho', hs'⟩ => ?_
    obtain ⟨rfl, hw⟩ | ⟨rfl, hw⟩ := ho
    · obtain ⟨rfl, hw'⟩ | ⟨rfl, hw'⟩ := ho'
      · exact ⟨by omega, ⟨_, hs'⟩, fun _ => hs'⟩
      · exact ⟨by omega, ⟨_, hs'⟩, fun heq => absurd heq (by omega)⟩
    · obtain ⟨rfl, hw'⟩ | ⟨rfl, hw'⟩ := ho'
      · exact ⟨by omega, ⟨_, hs'⟩, fun heq => absurd heq (by omega)⟩
      · exact ⟨by omega, ⟨_, hs'⟩, fun heq => absurd heq (by omega)⟩
  have hexchange : ∀ {m : Alloc Editor} {f : Bool → Session},
      Meets m w (fun ed' w' => ∃ snap, Outcome w w' snap ∧ ed'.Holds (f snap)) →
      Meets m w (fun ed' w' => w.refusals ≤ w'.refusals ∧ (∃ s', ed'.Holds s') ∧
        (w'.refusals = w.refusals → ed'.Holds (f true))) := by
    intro m f hm
    refine hm.mono fun ed' w' ⟨snap, ho, hs'⟩ => ?_
    obtain ⟨rfl, hw⟩ | ⟨rfl, hw⟩ := ho
    · exact ⟨by omega, ⟨_, hs'⟩, fun _ => hs'⟩
    · exact ⟨by omega, ⟨_, hs'⟩, fun heq => absurd heq (by omega)⟩
  cases op with
  | insertChar a => exact hedit (editorInsertChar_spec h a)
  | insertNewline => exact hedit (editorInsertNewline_spec h)
  | deleteBackward => exact hedit (editorDeleteBackward_spec h)
  | deleteForward => exact hedit (editorDeleteForward_spec h)
  | moveCursor key =>
    exact (editorMoveCursor_spec h key).mono fun _ _ ⟨hw, h'⟩ => ⟨hw.ge, ⟨_, h'⟩, fun _ => h'⟩
  | undo => exact hexchange (editorUndo_spec h)
  | redo => exact hexchange (editorRedo_spec h)

/-- Every series of operations has a result, that of the session when there is memory. -/
theorem run_granted : ∀ (ops : List Op) {ed : Editor} {w : World} {s : Session}, ed.Holds s →
    ∃ u, system.Run (ed, w) ops u ∧ w.refusals ≤ u.2.refusals ∧
      (u.2.refusals = w.refusals → u.1.Holds (s.run ops)) := by
  intro ops
  induction ops with
  | nil => exact fun {ed w s} h => ⟨(ed, w), .nil _, le_rfl, fun _ => h⟩
  | cons op ops ih =>
    intro ed w s h
    obtain ⟨ed1, w1, hr, hw1, ⟨s1, hs1⟩, hgranted⟩ := exec_granted (w := w) h op
    by_cases heq : w1.refusals = w.refusals
    · obtain ⟨u, hrun, hwu, hu⟩ := ih (w := w1) (hgranted heq)
      exact ⟨u, .cons hr hrun, by omega, fun h' => hu (by omega)⟩
    · obtain ⟨u, hrun, hwu, -⟩ := ih (w := w1) hs1
      exact ⟨u, .cons hr hrun, by omega, fun h' => absurd h' (by omega)⟩

end

/-! ### Editing -/

def Op.isEdit : Op → Bool
  | .insertChar _ => true
  | .insertNewline => true
  | .deleteBackward => true
  | .deleteForward => true
  | _ => false

/-- Edits that change the text, and moves, while no request is refused. -/
def editing : System (Editor × World) Op where
  init := documents.Reach
  step p op p' := system.step p op p' ∧ p'.2.refusals = p.2.refusals ∧
    ((∃ key, op = .moveCursor key) ∨ op.isEdit = true ∧ p'.1.texts ≠ p.1.texts)

/-- The same text, cursor and window. -/
structure SameView (ed ed' : Editor) : Prop where
  texts : ed.texts = ed'.texts
  cursorX : ed.cursorX = ed'.cursorX
  cursorY : ed.cursorY = ed'.cursorY
  scrollX : ed.scrollX = ed'.scrollX
  scrollY : ed.scrollY = ed'.scrollY

theorem SameView.of_holds {ed ed' : Editor} {s s' : Session} (h : ed.Holds s) (h' : ed'.Holds s')
    (hv : s.view = s'.view) : SameView ed ed' where
  texts := by rw [h.at.texts, h'.at.texts, hv]
  cursorX := by rw [h.at.cursorX, h'.at.cursorX, hv]
  cursorY := by rw [h.at.cursorY, h'.at.cursorY, hv]
  scrollX := (h.state.scrollX.trans (congrArg View.scrollX hv)).trans h'.state.scrollX.symm
  scrollY := (h.state.scrollY.trans (congrArg View.scrollY hv)).trans h'.state.scrollY.symm

section

variable {p p' : Editor × World} {s : Session} {op : Op}

theorem editing_edit (h : p.1.Holds s) (hstep : editing.step p op p') (hop : op.isEdit = true) :
    ∃ c, p'.1.Holds (s.edit true (some c)) := by
  obtain ⟨hrun, hw, ⟨key, rfl⟩ | ⟨-, hne⟩⟩ := hstep
  · cases hop
  · obtain ⟨-, -, hs'⟩ := Leads.of_meets (exec_granted (w := p.2) h op) p'.1 p'.2 hrun
    replace hs' := hs' hw
    have hexec : s.exec true true op = s.edit true (editCaret s.view.caret true op) := by
      cases op <;> first | rfl | cases hop
    rw [hexec] at hs'
    cases hc : editCaret s.view.caret true op with
    | none =>
      rw [hc] at hs'
      refine absurd ?_ hne
      rw [hs'.at.texts, h.at.texts]
      rfl
    | some c =>
      rw [hc] at hs'
      exact ⟨c, hs'⟩

theorem editing_move (h : p.1.Holds s) (hstep : editing.step p op p') (hop : op.isEdit = false) :
    ∃ c, p'.1.Holds (s.move c) := by
  obtain ⟨hrun, hw, ⟨key, rfl⟩ | ⟨hedit, -⟩⟩ := hstep
  · obtain ⟨-, -, hs'⟩ :=
      Leads.of_meets (exec_granted (w := p.2) h (.moveCursor key)) p'.1 p'.2 hrun
    exact ⟨_, hs' hw⟩
  · rw [hop] at hedit
    cases hedit

/-- **The view before the first edit is kept** by all that follow. -/
theorem editing_kept {v : View} {ops : List Op} {q : Editor × World} (hrun : editing.Run p ops q) :
    ∀ {n : Nat} {s : Session}, p.1.Holds s → s.Kept v n → n + ops.countP Op.isEdit ≤ maxUndoLevels →
    ∃ s', q.1.Holds s' ∧ s'.Kept v (n + ops.countP Op.isEdit) := by
  induction hrun with
  | nil _ => exact fun {n s} hs hk _ => ⟨s, hs, hk⟩
  | @cons p p' q op ops hstep _ ih =>
    intro n s hs hk hn
    rw [List.countP_cons] at hn ⊢
    cases hop : op.isEdit with
    | false =>
      obtain ⟨c, hs'⟩ := editing_move hs hstep hop
      rw [hop] at hn
      exact ih hs' (hk.move c) hn
    | true =>
      obtain ⟨c, hs'⟩ := editing_edit hs hstep hop
      rw [hop, if_pos rfl] at hn
      have := ih hs' (hk.edit (by omega) c) (by omega)
      rwa [if_pos rfl, show n + (List.countP Op.isEdit ops + 1) =
        n + 1 + List.countP Op.isEdit ops by omega]

theorem editing_holds {ops : List Op} {q : Editor × World} (hp : documents.Reach p)
    (hrun : editing.Run p ops q) : ∃ s, q.1.Holds s := by
  refine hrun.induct (P := fun p => ∃ s, p.1.Holds s) (fun p op p' ⟨s, hs⟩ hstep => ?_)
    (documents_holds hp)
  obtain ⟨-, hs', -⟩ := Leads.of_meets (exec_granted (w := p.2) hs op) p'.1 p'.2 hstep.1
  exact hs'

end

/-- **Undo and redo are inverse.**  From any reachable editor there are some moves and then, from
`r` on, edits mixed with moves.  As many times undo as there were edits gives back the text, the
cursor and the window of `r`, and as many times redo those of the end, unless a request is refused
meanwhile. -/
theorem undo_redo_inverse {p r q : Editor × World} {moves ops : List Op} {op : Op} {n : Nat}
    (hp : documents.Reach p) (hmoves : editing.Run p moves r) (_ : ∀ o ∈ moves, o.isEdit = false)
    (hop : op.isEdit = true) (hrun : editing.Run r (op :: ops) q)
    (hn : (op :: ops).countP Op.isEdit = n) (hle : n ≤ maxUndoLevels) :
    ∃ u, system.Run q (List.replicate n .undo) u ∧ (u.2.refusals = q.2.refusals →
      SameView u.1 r.1 ∧ ∃ v, system.Run u (List.replicate n .redo) v ∧
        (v.2.refusals = u.2.refusals → SameView v.1 q.1)) := by
  obtain ⟨s, hs⟩ := editing_holds hp hmoves
  rw [List.countP_cons_of_pos hop] at hn
  obtain ⟨t, ht, ⟨pre, vs, hviews, hlen⟩, hredo⟩ : ∃ t, q.1.Holds t ∧ t.Kept s.view n := by
    cases hrun with
    | cons hstep hrest =>
      obtain ⟨c, hs'⟩ := editing_edit hs hstep hop
      have := editing_kept hrest hs' (s.kept_first c) (by omega)
      rwa [show 1 + List.countP Op.isEdit ops = n by omega] at this
  subst hlen
  obtain ⟨hback, hforth⟩ :=
    Session.back_forth vs hviews (by rw [hredo]; simpa [History.empty] using hle)
  obtain ⟨u, hru, -, hu⟩ := run_granted (List.replicate (vs.length + 1) .undo) (w := q.2) ht
  refine ⟨u, hru, fun hw => ⟨SameView.of_holds (hu hw) hs hback, ?_⟩⟩
  obtain ⟨v, hrv, -, hv⟩ := run_granted (List.replicate (vs.length + 1) .redo) (w := u.2) (hu hw)
  refine ⟨v, hrv, fun hw' => SameView.of_holds (hv hw') ht ?_⟩
  rw [hforth]

/-! ### A run -/

/-- The character `A` has been typed into an empty text, and the cursor is back at its start. -/
def beforeA : Editor × World :=
  (exec (typedA 1000).1 (.moveCursor .left) (typedA 1000).2).get (by decide +kernel)

/-- There is a new line before it. -/
def belowA : Editor × World := (exec beforeA.1 .insertNewline beforeA.2).get (by decide +kernel)

theorem typedA_editing : editing.step (emptyText 1000) (.insertChar 65) (typedA 1000) :=
  ⟨rfl, rfl, .inr ⟨rfl, by decide⟩⟩

theorem beforeA_editing : editing.step (typedA 1000) (.moveCursor .left) beforeA :=
  ⟨(Option.some_get _).symm, by decide +kernel, .inl ⟨_, rfl⟩⟩

theorem belowA_editing : editing.step beforeA .insertNewline belowA :=
  ⟨(Option.some_get _).symm, by decide +kernel, .inr ⟨rfl, by decide +kernel⟩⟩

theorem run_two {p q : Editor × World} {op op' : Op} (h : system.Run p [op, op'] q) :
    ((exec p.1 op p.2).bind fun r => exec r.1 op' r.2) = some q := by
  cases h with
  | cons hfirst hrest =>
    cases hrest with
    | cons hsecond hnil =>
      cases hnil
      rw [show exec p.1 op p.2 = some _ from hfirst]
      exact hsecond

/-- Undo twice gives back the empty text, and redo twice the text with the new line and the
letter. -/
theorem undo_redo_inverse_belowA : ∃ u v, system.Run belowA [.undo, .undo] u ∧
    SameView u.1 (emptyText 1000).1 ∧ u.1.texts = [[]] ∧ system.Run u [.redo, .redo] v ∧
    SameView v.1 belowA.1 ∧ v.1.texts = [[], [65]] := by
  obtain ⟨u, hundo, hback⟩ :=
    undo_redo_inverse (.init ⟨unset, refusing 1000, rfl, rfl⟩) (.nil _) (by simp) rfl
    (.cons typedA_editing (.cons beforeA_editing (.cons belowA_editing (.nil _)))) rfl (by decide)
  have hu := run_two hundo
  have hcheck : (((exec belowA.1 .undo belowA.2).bind fun r => exec r.1 .undo r.2).map fun u =>
      (decide (u.2.refusals = belowA.2.refusals), u.1.texts,
        ((exec u.1 .redo u.2).bind fun r => exec r.1 .redo r.2).map fun v =>
          (decide (v.2.refusals = u.2.refusals), v.1.texts))) =
      some (true, [[]], some (true, [[], [65]])) := by decide +kernel
  rw [hu, Option.map_some, Option.some.injEq] at hcheck
  simp only [Prod.mk.injEq] at hcheck
  obtain ⟨hrefusals, hlines, hcheck⟩ := hcheck
  obtain ⟨hsame, v, hredo, hforth⟩ := hback (of_decide_eq_true hrefusals)
  rw [run_two hredo, Option.map_some, Option.some.injEq, Prod.mk.injEq] at hcheck
  exact ⟨u, v, hundo, hsame, hlines, hredo, hforth (of_decide_eq_true hcheck.1), hcheck.2⟩

end CobraOS.Snake
