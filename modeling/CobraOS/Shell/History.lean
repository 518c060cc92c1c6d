import CobraOS.Shell.Refines

/-!
# Every byte has a result

A history escape puts a line of the history into the buffer.  The lines of the history were entered,
so they fit, and no sequence of bytes at all makes the shell access an array outside it
(`Ready.feed`).
-/

namespace CobraOS.Shell

open Base

/-- The lines of the history fit into the buffer. -/
def RowsFit (history : List Bytes) : Prop := ∀ row ∈ history, row.length ≤ 255 ∧ ∀ d ∈ row, d ≠ 0

/-- What holds between two bytes. -/
structure Ready (s : State) : Prop where
  refines : ∃ e, Refines s e
  fit : RowsFit s.history

section

variable {s s' t : State} {c : UInt8} {e : Editor}

/-! ### Lines from the history -/

theorem recall_spec {l : Line} (h : Holds s l) (hrows : s.history.length = 20)
    (hfit : RowsFit s.history) (index : Nat) : ∃ s' l', recallLine s index = some s' ∧
      Edit s s' l' := by
  have hlt : index % historySize < s.history.length := by
    rw [hrows]
    exact Nat.mod_lt _ (by decide)
  obtain ⟨hsmall, hnonzero⟩ := hfit _ (List.getElem_mem hlt)
  generalize hrow : s.history[index % historySize] = row at hsmall hnonzero
  have hget : s.history[index % historySize]? = some row := by
    rw [List.getElem?_eq_getElem hlt, hrow]
  have hcopy : strcpy s.cmdBuffer row = some (row ++ 0 :: s.cmdBuffer.drop (row.length + 1)) := by
    unfold strcpy
    rw [if_pos (by rw [h.length]; omega)]
  have hlen : (row ++ 0 :: s.cmdBuffer.drop (row.length + 1)).length = 256 := by
    simp only [List.length_append, List.length_cons, List.length_drop, h.length]
    omega
  have hholds : Holds {
      s with
        cmdBuffer := row ++ 0 :: s.cmdBuffer.drop (row.length + 1)
        cmdLen := row.length
        cmdPos := row.length
        historyIndex := some index } ⟨row, row.length⟩ := ⟨hlen, ⟨_, rfl⟩, rfl, rfl, le_rfl,
          hsmall, hnonzero⟩
  obtain ⟨s', hs, he⟩ := redraw_spec hholds
  refine ⟨s', _, ?_, he.holds, he.escState, he.escBuf, he.escPos, he.history, he.processed⟩
  unfold recallLine
  simp only [hget, hcopy, Option.bind_eq_bind, Option.bind_some]
  exact hs

theorem historyAct_spec {l : Line} (h : Holds s l) (hrows : s.history.length = 20)
    (hfit : RowsFit s.history) (hc : c = 65 ∨ c = 66) : ∃ s' l', shellHandleEscape s c = some s' ∧
      Edit s s' l' := by
  have hclear : ∃ s' l', (do
      let cells ← setAt s.cmdBuffer 0 0
      shellRedrawLine { s with
        cmdBuffer := cells, cmdLen := 0, cmdPos := 0, historyIndex := none }) = some s' ∧
      Edit s s' l' := by
    have hset : setAt s.cmdBuffer 0 0 = some (s.cmdBuffer.set 0 0) :=
      if_pos (by rw [h.length]; decide)
    have hlen : (s.cmdBuffer.set 0 0).length = 256 := by rw [List.length_set, h.length]
    have hholds : Holds {
        s with cmdBuffer := s.cmdBuffer.set 0 0, cmdLen := 0, cmdPos := 0, historyIndex :=
          none } ⟨[], 0⟩ :=
      ⟨hlen, ⟨_, rfl⟩, rfl, rfl, le_rfl, by simp, fun _ hd => by cases hd⟩
    obtain ⟨s', hs, he⟩ := redraw_spec hholds
    refine ⟨s', _, ?_, he.holds, he.escState, he.escBuf, he.escPos, he.history, he.processed⟩
    rw [hset, Option.bind_eq_bind, Option.bind_some, hs]
  unfold shellHandleEscape
  obtain rfl | rfl := hc
  · rw [if_pos rfl]
    split
    · exact ⟨s, l, rfl, .refl h⟩
    · cases s.historyIndex with
      | none => exact recall_spec h hrows hfit _
      | some i => exact recall_spec h hrows hfit _
  · rw [if_neg (by decide), if_pos rfl]
    cases s.historyIndex with
    | none => exact ⟨s, l, rfl, .refl h⟩
    | some i =>
      dsimp only
      split
      · exact recall_spec h hrows hfit _
      · exact hclear

theorem Ready.refines_feed (h : Ready s) (c : UInt8) : ∃ s' e', shellFeedChar s c = some s' ∧
    Refines s' e' := by
  obtain ⟨e, he⟩ := h.refines
  by_cases hc : ∀ b params, e.pending = some (b :: params) → c ≠ 65 ∧ c ≠ 66
  · obtain ⟨s', hs, he'⟩ := he.feed hc
    exact ⟨s', _, hs, he'⟩
  · -- only a history escape is left
    simp only [not_forall] at hc
    obtain ⟨b, params, hp, hc⟩ := hc
    have hhistory : c = 65 ∨ c = 66 := by
      by_contra hno
      rw [not_or] at hno
      exact hc hno
    obtain ⟨s', l, hs, he', -⟩ :=
      he.bracket_of (c := c) (P := fun _ => True) hp fun _ s₁ hholds hsame _ _ => by
      obtain ⟨s', l, hs, hedit⟩ := historyAct_spec hholds (hsame ▸ he.rows) (hsame ▸ h.fit) hhistory
      exact ⟨s', l, hs, hedit, trivial⟩
    exact ⟨s', _, hs, he'⟩

/-! ### What enters the history -/

/-- The history, and the lines that have been processed, are as they were. -/
structure SameHistory (s s' : State) : Prop where
  rows : s'.history = s.history
  count : s'.historyCount = s.historyCount
  processed : processed s' = processed s

theorem SameHistory.refl (s : State) : SameHistory s s := ⟨rfl, rfl, rfl⟩

theorem SameHistory.trans (h : SameHistory s t) (h' : SameHistory t s') : SameHistory s s' :=
  ⟨h'.rows.trans h.rows, h'.count.trans h.count, h'.processed.trans h.processed⟩

theorem redraw_history (h : shellRedrawLine t = some s') (ht : SameHistory s t) :
    SameHistory s s' := by
  unfold shellRedrawLine at h
  obtain ⟨line, -, hs⟩ := Option.bind_eq_some_iff.mp h
  cases hs
  exact ht.trans ⟨rfl, rfl, by simp [Shell.processed, State.say]⟩

theorem recall_history {index : Nat} (h : recallLine s index = some s') : SameHistory s s' := by
  unfold recallLine at h
  obtain ⟨row, -, h⟩ := Option.bind_eq_some_iff.mp h
  obtain ⟨cells, -, h⟩ := Option.bind_eq_some_iff.mp h
  exact redraw_history h ⟨rfl, rfl, rfl⟩

theorem storeEscape_history (h : storeEscape t c = some s') (ht : SameHistory s t) :
    SameHistory s s' := by
  unfold storeEscape at h
  obtain ⟨buf, -, hs⟩ := Option.bind_eq_some_iff.mp h
  cases hs
  exact ht.trans ⟨rfl, rfl, rfl⟩

theorem insert_history (h : shellInsertChar s c = some s') : SameHistory s s' := by
  unfold shellInsertChar at h
  split at h
  · cases h
    exact .refl s
  · obtain ⟨cells, -, h⟩ := Option.bind_eq_some_iff.mp h
    obtain ⟨cells, -, h⟩ := Option.bind_eq_some_iff.mp h
    exact redraw_history h ⟨rfl, rfl, rfl⟩

theorem eraseBefore_history (h : shellDeleteCharBefore s = some s') : SameHistory s s' := by
  unfold shellDeleteCharBefore at h
  split at h
  · cases h
    exact .refl s
  · obtain ⟨cells, -, h⟩ := Option.bind_eq_some_iff.mp h
    exact redraw_history h ⟨rfl, rfl, rfl⟩

theorem eraseAt_history (h : shellDeleteCharAt s = some s') : SameHistory s s' := by
  unfold shellDeleteCharAt at h
  split at h
  · cases h
    exact .refl s
  · obtain ⟨cells, -, h⟩ := Option.bind_eq_some_iff.mp h
    exact redraw_history h ⟨rfl, rfl, rfl⟩

theorem moveRight_history (h : shellMoveRight s = some s') : SameHistory s s' := by
  unfold shellMoveRight at h
  split at h
  · exact redraw_history h ⟨rfl, rfl, rfl⟩
  · cases h
    exact .refl s

theorem moveLeft_history (h : shellMoveLeft s = some s') : SameHistory s s' := by
  unfold shellMoveLeft at h
  split at h
  · exact redraw_history h ⟨rfl, rfl, rfl⟩
  · cases h
    exact .refl s

theorem escape_history (h : shellHandleEscape s c = some s') : SameHistory s s' := by
  unfold shellHandleEscape at h
  split at h
  · split at h
    · cases h
      exact .refl s
    · split at h <;> exact recall_history h
  split at h
  · split at h
    · cases h
      exact .refl s
    · split at h
      · exact recall_history h
      · obtain ⟨cells, -, h⟩ := Option.bind_eq_some_iff.mp h
        exact redraw_history h ⟨rfl, rfl, rfl⟩
  split at h
  · exact moveRight_history h
  split at h
  · exact moveLeft_history h
  split at h
  · exact redraw_history h ⟨rfl, rfl, rfl⟩
  split at h
  · exact redraw_history h ⟨rfl, rfl, rfl⟩
  split at h
  · split at h
    · obtain ⟨d, -, h⟩ := Option.bind_eq_some_iff.mp h
      split at h
      · exact eraseAt_history h
      · cases h
        exact .refl s
    · cases h
      exact .refl s
  · cases h
    exact .refl s

/-- **A byte enters the line or leaves the history alone.** -/
theorem feed_history (h : shellFeedChar s c = some s') : enterLine s = some s' ∨
    SameHistory s s' := by
  unfold shellFeedChar at h
  split at h
  · unfold feedPlain at h
    split at h
    · exact .inr (storeEscape_history h ⟨rfl, rfl, rfl⟩)
    split at h
    · exact .inl h
    split at h
    · exact .inr (eraseBefore_history h)
    split at h
    · exact .inr (insert_history h)
    · cases h
      exact .inr (.refl s)
  · obtain ⟨s₁, hstore, h⟩ := Option.bind_eq_some_iff.mp h
    have hstored := storeEscape_history hstore (.refl s)
    split at h <;> cases h <;> exact .inr (hstored.trans ⟨rfl, rfl, rfl⟩)
  · obtain ⟨s₁, hstore, h⟩ := Option.bind_eq_some_iff.mp h
    have hstored := storeEscape_history hstore (.refl s)
    split at h
    · obtain ⟨s₂, hact, hs⟩ := Option.bind_eq_some_iff.mp h
      cases hs
      exact .inr ((hstored.trans (escape_history hact)).trans ⟨rfl, rfl, rfl⟩)
    · split at h <;> cases h <;> exact .inr (hstored.trans ⟨rfl, rfl, rfl⟩)

theorem addHistory_fit {cmd : Bytes} (hcmd : ∀ d ∈ cmd, d ≠ 0) (h : shellAddHistory s cmd = some s')
    (hfit : RowsFit s.history) : RowsFit s'.history := by
  unfold shellAddHistory at h
  obtain ⟨last, -, h⟩ := Option.bind_eq_some_iff.mp h
  split at h
  · cases h
    exact hfit
  split at h
  · rename_i hlen
    obtain ⟨history, hset, hs⟩ := Option.bind_eq_some_iff.mp h
    cases hs
    intro row hrow
    unfold setAt at hset
    split at hset
    · cases hset
      obtain hrow | rfl := List.mem_or_eq_of_mem_set hrow
      · exact hfit row hrow
      · exact ⟨by unfold maxCmdLen at hlen; omega, hcmd⟩
    · cases hset
  · cases h

theorem cString_nonzero {cells : List UInt8} {cmd : Bytes} (h : cString cells = some cmd) :
    ∀ d ∈ cmd, d ≠ 0 := by
  unfold cString at h
  split at h
  · cases h
    intro d hd
    have hall := List.all_eq_true.mp List.all_takeWhile d hd
    simpa using hall
  · cases h

/-- **Entering a line** processes nothing, or adds a command to the history and processes it. -/
theorem enter_history (h : enterLine s = some s') : SameHistory s s' ∨
    ∃ t cmd s₁, SameHistory s t ∧ (∀ d ∈ cmd, d ≠ 0) ∧ shellAddHistory t cmd = some s₁ ∧
      s'.history = s₁.history ∧ s'.historyCount = s₁.historyCount ∧
      s'.log = s₁.log ++ [.process cmd, .print prompt] := by
  unfold enterLine at h
  obtain ⟨s₂, hrun, hs⟩ := Option.bind_eq_some_iff.mp h
  cases hs
  have hsay : SameHistory s (s.say (.print [10])) := ⟨rfl, rfl, by simp [processed, State.say]⟩
  unfold runLine at hrun
  split at hrun
  · obtain ⟨cells, -, hrun⟩ := Option.bind_eq_some_iff.mp hrun
    obtain ⟨cmd, hcmd, hrun⟩ := Option.bind_eq_some_iff.mp hrun
    obtain ⟨s₁, hadd, hs⟩ := Option.bind_eq_some_iff.mp hrun
    cases hs
    refine .inr ⟨_, cmd, s₁, ?_, cString_nonzero hcmd, hadd, rfl, rfl, ?_⟩
    · exact hsay.trans ⟨rfl, rfl, rfl⟩
    · simp [State.say]
  · cases hrun
    exact .inl (hsay.trans ⟨rfl, rfl, by simp [processed, State.say]⟩)

theorem enter_fit (hfit : RowsFit s.history) (h : enterLine s = some s') : RowsFit s'.history := by
  rcases enter_history h with hsame | ⟨t, cmd, s₁, hsame, hcmd, hadd, hrows, -, -⟩
  · rw [hsame.rows]
    exact hfit
  · rw [hrows]
    exact addHistory_fit hcmd hadd (by rw [hsame.rows]; exact hfit)

theorem feed_fit (hfit : RowsFit s.history) (h : shellFeedChar s c = some s') :
    RowsFit s'.history := by
  rcases feed_history h with henter | hsame
  · exact enter_fit hfit henter
  · rw [hsame.rows]
    exact hfit

/-- **Every byte has a result**, and the next byte has one too. -/
theorem Ready.feed (h : Ready s) (c : UInt8) : ∃ s', shellFeedChar s c = some s' ∧ Ready s' := by
  obtain ⟨s', e', hs, he⟩ := h.refines_feed c
  exact ⟨s', hs, ⟨e', he⟩, feed_fit h.fit hs⟩

theorem ready_init : Ready shellInit := by
  refine ⟨⟨_, refines_init⟩, fun row hrow => ?_⟩
  obtain rfl := List.eq_of_mem_replicate hrow
  exact ⟨by simp, fun d hd => by cases hd⟩

end

end CobraOS.Shell
