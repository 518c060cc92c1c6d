import CobraOS.Snake.Line

/-!
# Saved states and their stacks

`HoldLines` says what the lines of an array are, `EditorState.Holds` which view a saved state is,
and `HoldStack` which history a stack is.  Saving a view either gives a state that holds it or
nothing, because a request was refused; the stacks keep to their bounds.
-/

namespace CobraOS.Snake

open Base

/-- The first `n` items of the array are lines with the texts `ts`. -/
def HoldLines (lines : Option (Block Line)) (n : Nat) (ts : List Text) : Prop :=
  ∃ id ls rest, lines = some ⟨id, ls.map some ++ rest⟩ ∧ List.Forall₂ Line.Holds ls ts ∧
    n = ts.length ∧ (ls.length + rest.length) * lineSize ≤ maxRequest

/-- The state is a copy of the view. -/
structure EditorState.Holds (st : EditorState) (v : View) : Prop where
  lines : HoldLines st.lines st.numLines v.caret.lines
  cursorX : st.cursorX = v.caret.col
  cursorY : st.cursorY = v.caret.row
  scrollX : st.scrollX = v.scrollX
  scrollY : st.scrollY = v.scrollY

/-- The items up to `top` are the views of the history. -/
def HoldStack (stack : Option (Block EditorState)) (top : Int) (h : History) : Prop :=
  ∃ id sts rest, stack = some ⟨id, sts.map some ++ rest⟩ ∧
    List.Forall₂ EditorState.Holds sts h.views ∧ top + 1 = h.views.length ∧
    sts.length + rest.length = maxUndoLevels

/-- The part of an editor that a saved state keeps. -/
def Editor.state (ed : Editor) : EditorState :=
  ⟨ed.lines, ed.numLines, ed.cursorX, ed.cursorY, ed.scrollX, ed.scrollY⟩

section

variable {w : World}

theorem forall₂_append {α β : Type*} {R : α → β → Prop} {l : List α} {xs ys : List β}
    (h : List.Forall₂ R l (xs ++ ys)) :
    ∃ l1 l2, l = l1 ++ l2 ∧ List.Forall₂ R l1 xs ∧ List.Forall₂ R l2 ys :=
  ⟨_, _, (List.take_append_drop xs.length l).symm, List.forall₂_take_append l xs ys h,
    List.forall₂_drop_append l xs ys h⟩

/-! ### Lines -/

theorem freeLines_spec {lines : Block Line} : ∀ (ls pre rest : List (Option Line)),
    lines.cells = pre ++ (ls ++ rest) → (∀ c ∈ ls, c.isSome) →
    Meets (freeLines lines ls.length pre.length) w (fun _ w' => w'.refusals = w.refusals) := by
  intro ls
  induction ls generalizing w with
  | nil => exact fun _ _ _ _ => Meets.pure rfl
  | cons c ls ih =>
    intro pre rest hcells hsome
    obtain ⟨l, rfl⟩ := Option.isSome_iff_exists.mp (hsome c List.mem_cons_self)
    refine Meets.lift (Block.get_mid hcells rfl) (Meets.seq (Meets.release fun w' hw => ?_))
    have hcells' : lines.cells = (pre ++ [some l]) ++ (ls ++ rest) := by
      rw [hcells]
      simp
    have := ih (w := w') _ _ hcells' (fun c hc => hsome c (List.mem_cons_of_mem _ hc))
    rw [List.length_append] at this
    exact this.mono fun _ _ h => h.trans hw

theorem freeLines_all {id n : Nat} {ls : List Line} {rest : List (Option Line)}
    (hn : ls.length = n) :
    Meets (freeLines ⟨id, ls.map some ++ rest⟩ n 0) w (fun _ w' => w'.refusals = w.refusals) := by
  have := freeLines_spec (w := w) (ls.map some) [] rest
    (show (⟨id, ls.map some ++ rest⟩ : Block Line).cells = _ from rfl) (by simp)
  rwa [List.length_map, hn] at this

/-- **The loop of `editor_state_clone`** copies the lines that are left, or frees those it has
copied. -/
theorem cloneLines_spec {src : Block Line} (id : Nat) : ∀ {todo : List Line} {ts : List Text},
    List.Forall₂ Line.Holds todo ts → ∀ {pre : List (Option Line)} {rest : List (Option Line)}
    {d : List Line} {junk : List (Option Line)}, src.cells = pre ++ (todo.map some ++ rest) →
    d.length = pre.length → todo.length ≤ junk.length →
    Meets (cloneLines src todo.length pre.length ⟨id, d.map some ++ junk⟩) w (fun r w' =>
      (∃ ls junk', r = some ⟨id, (d ++ ls).map some ++ junk'⟩ ∧ List.Forall₂ Line.Holds ls ts ∧
        ls.length + junk'.length = junk.length ∧ w'.refusals = w.refusals) ∨
      r = none ∧ w.refusals < w'.refusals) := by
  intro todo ts hts
  induction hts generalizing w with
  | nil =>
    intro pre rest d junk _ _ _
    exact Meets.pure (Or.inl ⟨[], junk, by simp, .nil, by simp, rfl⟩)
  | @cons l t todo ts hl _ ih =>
    intro pre rest d junk hsrc hd' hjunk
    obtain ⟨x, junk, rfl⟩ : ∃ x xs, junk = x :: xs := by
      cases junk with
      | nil => exact absurd hjunk (by simp)
      | cons x xs => exact ⟨x, xs, rfl⟩
    obtain ⟨id', rest', hd, hsize⟩ := hl.data
    have hcap := hl.cap
    have hlen := hl.len
    unfold maxRequest at hcap
    have hmod : (l.len + 1) % 4294967296 = t.length + 1 := by
      rw [Nat.mod_eq_of_lt (by omega), hlen]
    refine Meets.lift (Block.get_mid hsrc rfl) ?_
    unfold kmalloc
    rw [hmod]
    refine Meets.seq (Meets.request ?_ ?_)
    · intro idn w1 _ hmax hw1
      rw [Nat.div_one]
      have hcopy := Block.copy_fresh (n := t.length) idn
        (show (⟨id', t.map some ++ some 0 :: rest'⟩ : Block UInt8).cells =
          [] ++ (t.map some ++ some 0 :: rest') from rfl) rfl (by simp)
      have hset := Block.set_fresh (n := t.length) idn (t.map some) (0 : UInt8) (by simp)
      have hput := Block.set_mid (i := pre.length)
        (⟨some ⟨idn, t.map some ++ [some 0]⟩, t.length, t.length + 1⟩ : Line)
        (show (⟨id, d.map some ++ x :: junk⟩ : Block Line).cells = d.map some ++ x :: junk from rfl)
        (by simp [hd'])
      have hsrc' : src.cells = (pre ++ [some l]) ++ (todo.map some ++ rest) := by
        rw [hsrc]
        simp
      have hnew : Line.Holds ⟨some ⟨idn, t.map some ++ [some 0]⟩, t.length, t.length + 1⟩ t :=
        ⟨⟨idn, [], rfl, rfl⟩, rfl, hmax⟩
      have := ih (w := w1) hsrc' (by simp [hd'])
        (d := d ++ [⟨some ⟨idn, t.map some ++ [some 0]⟩, t.length, t.length + 1⟩])
        (show todo.length ≤ junk.length by simpa using hjunk)
      rw [List.length_append, List.map_append, List.append_assoc] at this
      simp only [hd, hlen]
      refine Meets.lift rfl (Meets.lift hcopy (Meets.lift hset (Meets.lift hput (this.mono ?_))))
      rintro r w2 (⟨ls, junk', rfl, hf, hl', hw2⟩ | ⟨rfl, hw2⟩)
      · refine Or.inl ⟨_ :: ls, junk', by simp, .cons hnew hf, ?_, hw2.trans hw1⟩
        simp only [List.length_cons]
        omega
      · exact Or.inr ⟨rfl, by omega⟩
    · intro w1 hw1
      refine Meets.bind (freeLines_all hd') fun _ w2 hw2 => ?_
      exact Meets.seq (Meets.release fun w3 hw3 => Meets.pure (Or.inr ⟨rfl, by omega⟩))

/-- **`editor_state_clone`** -/
theorem editorStateClone_spec {ed : Editor} {v : View} (h : ed.state.Holds v) :
    Meets (editorStateClone ed) w (fun st w' => Outcome w w' st.lines.isSome ∧
      (st.lines.isSome = true → st.Holds v)) := by
  obtain ⟨id, ls, rest, hlines, hf, hn, hsize⟩ := h.lines
  replace hlines : ed.lines = some ⟨id, ls.map some ++ rest⟩ := hlines
  replace hn : ed.numLines = ls.length := hn.trans hf.length_eq.symm
  have hmul : ed.numLines * lineSize % 4294967296 = ls.length * lineSize := by
    unfold lineSize maxRequest at *
    rw [hn, Nat.mod_eq_of_lt (by omega)]
  unfold editorStateClone kmalloc
  rw [hmul]
  refine Meets.seq (Meets.request ?_ ?_)
  · intro idn w1 _ hmax hw1
    rw [Nat.mul_div_cancel _ (by decide)]
    have hclone := cloneLines_spec (w := w1) idn hf
      (show (⟨id, ls.map some ++ rest⟩ : Block Line).cells = [] ++ (ls.map some ++ rest) from rfl)
      (d := []) rfl (by simp : ls.length ≤ (List.replicate ls.length (none : Option Line)).length)
    rw [← hn] at hclone ⊢
    refine Meets.lift hlines (Meets.bind hclone ?_)
    rintro r w2 (⟨ls', junk, rfl, hf', hl', hw2⟩ | ⟨rfl, hw2⟩)
    · refine Meets.pure ⟨Or.inl ⟨rfl, hw2.trans hw1⟩, fun _ => ⟨⟨idn, ls', junk, rfl, hf', ?_, ?_⟩,
        h.cursorX, h.cursorY, h.scrollX, h.scrollY⟩⟩
      · exact hn.trans hf.length_eq
      · rw [hl', List.length_replicate, hn]
        exact hmax
    · exact Meets.pure ⟨Or.inr ⟨rfl, by omega⟩, fun hs => absurd hs (by simp)⟩
  · intro w1 hw1
    exact Meets.pure ⟨Or.inr ⟨rfl, by omega⟩, fun hs => absurd hs (by simp)⟩

theorem editorStateFree_spec {st : EditorState} {v : View} (h : st.Holds v) :
    Meets (editorStateFree st) w (fun _ w' => w'.refusals = w.refusals) := by
  obtain ⟨id, ls, rest, hlines, hf, hn, -⟩ := h.lines
  unfold editorStateFree
  rw [hlines]
  refine Meets.bind (freeLines_all (hf.length_eq.trans hn.symm)) fun _ w1 hw1 => ?_
  exact Meets.seq (Meets.release fun w2 hw2 => Meets.pure (hw2.trans hw1))

theorem editorStateFree_null {st : EditorState} (h : st.lines = none) :
    Meets (editorStateFree st) w (fun _ w' => w'.refusals = w.refusals) := by
  unfold editorStateFree
  rw [h]
  exact Meets.pure rfl

/-- **`editor_state_restore`** -/
theorem editorStateRestore_spec {ed : Editor} {st : EditorState} {v v' : View}
    (h : ed.state.Holds v) (_ : st.Holds v') :
    Meets (editorStateRestore ed st) w (fun r w' => w'.refusals = w.refusals ∧
      r.1 = { ed with
        lines := st.lines
        numLines := st.numLines
        cursorX := st.cursorX
        cursorY := st.cursorY
        scrollX := st.scrollX
        scrollY := st.scrollY
        modified := true } ∧ r.2.lines = none) := by
  obtain ⟨id, ls, rest, hlines, hf, hn, -⟩ := h.lines
  replace hlines : ed.lines = some ⟨id, ls.map some ++ rest⟩ := hlines
  replace hn : ls.length = ed.numLines := hf.length_eq.trans hn.symm
  unfold editorStateRestore
  rw [hlines]
  refine Meets.bind (freeLines_all hn) fun _ w1 hw1 => ?_
  exact Meets.seq (Meets.release fun w2 hw2 => Meets.pure ⟨hw2.trans hw1, rfl, rfl⟩)

/-! ### Stacks -/

theorem shiftDown_spec (id : Nat) : ∀ (sts : List EditorState) (pre : List (Option EditorState))
    (x : Option EditorState) (rest : List (Option EditorState)),
    ∃ y, shiftDown sts.length (pre.length + 1) ⟨id, pre ++ x :: (sts.map some ++ rest)⟩ =
      some ⟨id, pre ++ (sts.map some ++ y :: rest)⟩ := by
  intro sts
  induction sts with
  | nil => exact fun pre x rest => ⟨x, rfl⟩
  | cons st sts ih =>
    intro pre x rest
    have hget := Block.get_mid (i := pre.length + 1)
      (show (⟨id, pre ++ x :: ((st :: sts).map some ++ rest)⟩ : Block EditorState).cells =
        (pre ++ [x]) ++ some st :: (sts.map some ++ rest) by simp) (by simp)
    have hset := Block.set_mid (i := pre.length) st
      (show (⟨id, pre ++ x :: ((st :: sts).map some ++ rest)⟩ : Block EditorState).cells =
        pre ++ x :: ((st :: sts).map some ++ rest) from rfl) rfl
    obtain ⟨y, hy⟩ := ih (pre ++ [some st]) (some st) rest
    refine ⟨y, ?_⟩
    rw [List.length_cons, shiftDown, hget]
    simp only [Option.bind_eq_bind, Option.bind_some, Nat.add_sub_cancel]
    rw [hset]
    simpa using hy

theorem dropOldest_spec {b : Block EditorState} {top : Int} {h : History}
    (hs : HoldStack (some b) top h) : Meets (dropOldest b top) w (fun r w' =>
      w'.refusals = w.refusals ∧ ∃ sts rest, r.1.cells = sts.map some ++ rest ∧ rest ≠ [] ∧
        List.Forall₂ EditorState.Holds sts
          (if h.views.length < maxUndoLevels then h.views else h.views.tail) ∧
        r.2 + 1 = sts.length ∧ sts.length + rest.length = maxUndoLevels) := by
  obtain ⟨id, sts, rest, hb, hf, htop, hsize⟩ := hs
  cases hb
  have hl := hf.length_eq
  have hle := h.length_le
  unfold dropOldest
  by_cases hlt : h.views.length < maxUndoLevels
  · rw [if_neg (by omega), if_pos hlt]
    refine Meets.pure ⟨rfl, sts, rest, rfl, ?_, hf, by rw [htop, hl], hsize⟩
    rintro rfl
    simp only [List.length_nil] at hsize
    omega
  · rw [if_pos (by omega), if_neg hlt]
    have hviews : h.views.length = maxUndoLevels := by omega
    obtain ⟨v, vs, hv⟩ : ∃ v vs, h.views = v :: vs := List.exists_cons_of_length_pos (by
      rw [hviews]
      decide)
    rw [hv] at hf hl hviews
    rw [hv, List.tail_cons]
    rw [hv, List.length_cons] at htop
    simp only [List.length_cons] at hl hviews
    cases hf with
    | @cons st _ sts _ hst hf =>
      obtain rfl : rest = [] := List.length_eq_zero_iff.mp (by omega)
      have hget := Block.get_mid (i := 0)
        (show (⟨id, (st :: sts).map some ++ []⟩ : Block EditorState).cells = [] ++ _ from rfl) rfl
      refine Meets.lift hget (Meets.bind (editorStateFree_spec hst) fun st' w1 hw1 => ?_)
      have hset := Block.set_mid (i := 0) st'
        (show (⟨id, (st :: sts).map some ++ []⟩ : Block EditorState).cells = [] ++ _ from rfl) rfl
      obtain ⟨y, hshift⟩ := shiftDown_spec id sts [] (some st') []
      have htop' : top.toNat = sts.length := by
        simp only [List.length_cons] at hl
        omega
      rw [htop']
      refine Meets.lift hset
        (Meets.lift hshift (Meets.pure ⟨hw1, sts, [y], rfl, by simp, hf, ?_, ?_⟩))
      · simp only [List.length_cons] at hl
        show top - 1 + 1 = _
        omega
      · simp only [List.length_cons, List.length_nil] at hl ⊢
        omega

/-- **`undo_stack_push`** -/
theorem undoStackPush_spec {stack : Option (Block EditorState)} {top : Int} {h : History}
    (hs : HoldStack stack top h) {st : EditorState} {v : View} (hst : st.Holds v) :
    Meets (undoStackPush stack top st) w (fun r w' => w'.refusals = w.refusals ∧
      HoldStack r.1 r.2 (h.push v)) := by
  obtain ⟨b, rfl⟩ : ∃ b, stack = some b := by
    obtain ⟨id, sts, rest, rfl, -⟩ := hs
    exact ⟨_, rfl⟩
  refine Meets.lift rfl (Meets.bind (dropOldest_spec hs) ?_)
  rintro ⟨⟨id, cells⟩, top'⟩ w1 ⟨hw1, sts, rest, hcells, hne, hf, htop, hsize⟩
  simp only at hcells htop
  subst hcells
  obtain ⟨x, rest, rfl⟩ := List.exists_cons_of_ne_nil hne
  have hindex : index (top' + 1) = some sts.length := by
    unfold index
    rw [if_pos (by omega)]
    congr 1
    omega
  have hset := Block.set_mid (i := sts.length) st
    (show (⟨id, sts.map some ++ x :: rest⟩ : Block EditorState).cells =
      sts.map some ++ x :: rest from rfl)
    (by simp)
  refine Meets.lift hindex
    (Meets.lift hset (Meets.pure ⟨hw1, id, sts ++ [st], rest, by simp, ?_, ?_, ?_⟩))
  · exact List.rel_append hf (.cons hst .nil)
  · show top' + 1 + 1 = ((if _ then _ else _) ++ [v]).length
    rw [List.length_append, ← hf.length_eq, List.length_singleton]
    omega
  · rw [List.length_append, List.length_singleton]
    simp only [List.length_cons] at hsize
    omega

/-- **`undo_stack_pop`** -/
theorem undoStackPop_spec {stack : Option (Block EditorState)} {top : Int} {h : History}
    (hs : HoldStack stack top h) {v : View} (hv : h.views.getLast? = some v) :
    ∃ st, undoStackPop stack top = some (st, top - 1) ∧ st.Holds v ∧
      HoldStack stack (top - 1) h.pop := by
  obtain ⟨id, sts, rest, rfl, hf, htop, hsize⟩ := hs
  obtain ⟨vs, hvs⟩ := List.getLast?_eq_some_iff.mp hv
  rw [hvs] at hf htop
  obtain ⟨sts, last, rfl, hf', hlast⟩ := forall₂_append hf
  obtain ⟨st, _, hst, hnil, rfl⟩ := List.forall₂_cons_right_iff.mp hlast
  obtain rfl := List.forall₂_nil_right_iff.mp hnil
  have hlen := hf'.length_eq
  rw [List.length_append, List.length_singleton] at htop hsize
  have hget := Block.get_mid (i := sts.length)
    (show (⟨id, (sts ++ [st]).map some ++ rest⟩ : Block EditorState).cells =
      sts.map some ++ some st :: rest by simp) (by simp)
  have hindex : index top = some sts.length := by
    unfold index
    rw [if_pos (by omega)]
    congr 1
    omega
  refine ⟨st, ?_, hst, id, sts, some st :: rest, by simp, ?_, ?_, ?_⟩
  · unfold undoStackPop
    simp only [Option.bind_eq_bind, Option.bind_some, hindex, hget]
  · show List.Forall₂ _ sts h.views.dropLast
    rwa [hvs, List.dropLast_concat]
  · show top - 1 + 1 = h.views.dropLast.length
    rw [hvs, List.dropLast_concat]
    omega
  · simp only [List.length_cons]
    omega

theorem clearStates_spec {id : Nat} : ∀ {sts : List EditorState} {vs : List View},
    List.Forall₂ EditorState.Holds sts vs → ∀ (pre rest : List (Option EditorState)),
    Meets (clearStates sts.length pre.length (some ⟨id, pre ++ (sts.map some ++ rest)⟩)) w
      (fun r w' =>
      w'.refusals = w.refusals ∧ ∃ cells, r = some ⟨id, cells⟩ ∧
        cells.length = pre.length + (sts.length + rest.length)) := by
  intro sts vs hf
  induction hf generalizing w with
  | nil => exact fun pre rest => Meets.pure ⟨rfl, _, rfl, by simp⟩
  | @cons st v sts vs hst _ ih =>
    intro pre rest
    have hget := Block.get_mid (i := pre.length)
      (show (⟨id, pre ++ ((st :: sts).map some ++ rest)⟩ : Block EditorState).cells =
        pre ++ some st :: (sts.map some ++ rest) from rfl) rfl
    refine Meets.lift rfl
      (Meets.lift hget (Meets.bind (editorStateFree_spec hst) fun st' w1 hw1 => ?_))
    have hset := Block.set_mid (i := pre.length) st'
      (show (⟨id, pre ++ ((st :: sts).map some ++ rest)⟩ : Block EditorState).cells =
        pre ++ some st :: (sts.map some ++ rest) from rfl) rfl
    have := ih (w := w1) (pre ++ [some st']) rest
    rw [List.length_append, List.append_assoc] at this
    refine Meets.lift hset (this.mono ?_)
    rintro r w2 ⟨hw2, cells, rfl, hlen⟩
    refine ⟨hw2.trans hw1, cells, rfl, ?_⟩
    simp only [List.length_cons, List.length_nil] at hlen ⊢
    omega

/-- **`undo_stack_clear`** -/
theorem undoStackClear_spec {stack : Option (Block EditorState)} {top : Int} {h : History}
    (hs : HoldStack stack top h) : Meets (undoStackClear stack top) w (fun r w' =>
      w'.refusals = w.refusals ∧ HoldStack r.1 r.2 .empty) := by
  obtain ⟨id, sts, rest, rfl, hf, htop, hsize⟩ := hs
  have hn : (top + 1).toNat = sts.length := by
    rw [htop, Int.toNat_natCast, hf.length_eq]
  unfold undoStackClear
  rw [hn]
  refine Meets.bind (clearStates_spec hf [] rest) ?_
  rintro r w1 ⟨hw1, cells, rfl, hlen⟩
  simp only [List.length_nil, Nat.zero_add] at hlen
  exact Meets.pure ⟨hw1, id, [], cells, rfl, .nil, rfl,
    by rw [List.length_nil, Nat.zero_add, hlen, hsize]⟩

end
end CobraOS.Snake
