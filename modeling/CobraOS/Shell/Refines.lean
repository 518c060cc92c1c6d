import CobraOS.Shell.Line

/-!
# The line editor refines a text with a cursor

`Refines s e` connects the variables of the shell with the text, the cursor and the pending escape
sequence.  Every byte keeps it (`Refines.feed`), so it holds after every sequence of bytes
(`line_editor_refines`).
-/

namespace CobraOS.Shell

open Base

variable {s s' : State} {e : Editor} {c : UInt8}

/-- The state in which the bytes of the pending sequence have come. -/
def stateOf : Option Bytes → EscState
  | none => .none
  | some [] => .start
  | some (_ :: _) => .bracket

/-- How many bytes have come, with `ESC`. -/
def posOf : Option Bytes → Nat
  | none => 0
  | some seq => seq.length + 1

/-- `esc_buf` and `esc_pos` hold the pending sequence. -/
structure Pending (s : State) (pending : Option Bytes) : Prop where
  state : s.escState = stateOf pending
  length : s.escBuf.length = 8
  pos : s.escPos = posOf pending
  bytes : ∀ seq, pending = some seq → s.escBuf.take s.escPos = esc :: seq
  short : ∀ b params, pending = some (b :: params) → params.length ≤ 4

/-- `cmd_buffer`, `cmd_len` and `cmd_pos` hold the line. -/
structure Holds (s : State) (l : Line) : Prop where
  length : s.cmdBuffer.length = 256
  text : ∃ junk, s.cmdBuffer = l.text ++ junk
  len : s.cmdLen = l.text.length
  pos : s.cmdPos = l.cursor
  cursor : l.cursor ≤ l.text.length
  small : l.text.length ≤ 255
  nonzero : ∀ c ∈ l.text, c ≠ 0

structure Refines (s : State) (e : Editor) : Prop where
  holds : Holds s e.line
  pending : Pending s e.pending
  rows : s.history.length = 20
  entered : processed s = e.entered

/-! ### Edits of the line -/

/-- What an edit may change: the line and what is on the screen. -/
structure Edit (s s' : State) (l : Line) : Prop where
  holds : Holds s' l
  escState : s'.escState = s.escState
  escBuf : s'.escBuf = s.escBuf
  escPos : s'.escPos = s.escPos
  history : s'.history = s.history
  processed : processed s' = processed s

theorem Edit.refl {l : Line} (h : Holds s l) : Edit s s l := ⟨h, rfl, rfl, rfl, rfl, rfl⟩

theorem Holds.same {l : Line} (h : Holds s l) (hbuf : s'.cmdBuffer = s.cmdBuffer)
    (hlen : s'.cmdLen = s.cmdLen) (hpos : s'.cmdPos = s.cmdPos) : Holds s' l :=
  ⟨hbuf ▸ h.length, hbuf ▸ h.text, hlen ▸ h.len, hpos ▸ h.pos, h.cursor, h.small, h.nonzero⟩

theorem Holds.take {l : Line} (h : Holds s l) : s.cmdBuffer.take s.cmdLen = l.text := by
  obtain ⟨junk, hjunk⟩ := h.text
  rw [hjunk, h.len]
  exact List.take_left

theorem Holds.split {l : Line} (h : Holds s l) : ∃ pre post junk, l.text = pre ++ post ∧
    s.cmdBuffer = pre ++ (post ++ junk) ∧ pre.length = l.cursor ∧ s.cmdPos = pre.length ∧
    s.cmdLen - s.cmdPos = post.length ∧ s.cmdLen = pre.length + post.length ∧
    pre.length + post.length + junk.length = 256 := by
  obtain ⟨junk, hjunk⟩ := h.text
  have hpre : (l.text.take l.cursor).length = l.cursor := by
    rw [List.length_take]
    exact Nat.min_eq_left h.cursor
  have hlen : l.text.length = (l.text.take l.cursor).length + (l.text.drop l.cursor).length := by
    rw [← List.length_append, List.take_append_drop]
  have hl := h.length
  rw [hjunk, List.length_append] at hl
  have h1 := h.len
  have h2 := h.pos
  refine ⟨l.text.take l.cursor, l.text.drop l.cursor, junk, (List.take_append_drop _ _).symm, ?_,
    hpre, ?_, ?_, ?_, ?_⟩
  · rw [← List.append_assoc, List.take_append_drop, hjunk]
  all_goals omega

theorem redraw_spec {l : Line} (h : Holds s l) : ∃ s', shellRedrawLine s = some s' ∧
    Edit s s' l := by
  have hle : s.cmdLen ≤ s.cmdBuffer.length := by
    have := h.small
    rw [h.len, h.length]
    omega
  refine ⟨s.say (.redraw (s.cmdBuffer.take s.cmdLen) s.cmdPos), ?_,
    h.same rfl rfl rfl, rfl, rfl, rfl, rfl, ?_⟩
  · simp [shellRedrawLine, readCells, hle]
  · simp [processed, State.say]

theorem redraw_of {cells : List UInt8} {len pos : Nat} {l : Line}
    (h : Holds { s with cmdBuffer := cells, cmdLen := len, cmdPos := pos } l) :
    ∃ s', shellRedrawLine { s with cmdBuffer := cells, cmdLen := len, cmdPos := pos } = some s' ∧
      Edit s s' l := by
  obtain ⟨s', hs, he⟩ := redraw_spec h
  exact ⟨s', hs, he.holds, he.escState, he.escBuf, he.escPos, he.history, he.processed⟩

theorem insertIdx_mid (pre post : Bytes) :
    (pre ++ post).insertIdx pre.length c = pre ++ c :: post := by
  induction pre with
  | nil => simp
  | cons d pre ih => simp [ih]

theorem eraseIdx_mid (pre post : Bytes) : (pre ++ c :: post).eraseIdx pre.length = pre ++ post := by
  rw [List.eraseIdx_append_of_length_le (Nat.le_refl _), Nat.sub_self]
  rfl

theorem insert_spec {l : Line} (h : Holds s l) (hc : c ≠ 0) :
    ∃ s', shellInsertChar s c = some s' ∧ Edit s s' (l.insert c) := by
  obtain ⟨pre, post, junk, htext, hbuf, hpre, hpos, hn, hlen, h256⟩ := h.split
  unfold shellInsertChar Line.insert
  have hl : l.text.length = pre.length + post.length := by rw [htext, List.length_append]
  by_cases hfull : maxCmdLen - 1 ≤ s.cmdLen
  · have hfull' : ¬ l.text.length < 255 := by
      unfold maxCmdLen at hfull
      omega
    rw [if_pos hfull, if_neg hfull']
    exact ⟨s, rfl, Edit.refl h⟩
  · have hfull' : l.text.length < 255 := by
      unfold maxCmdLen at hfull
      omega
    rw [if_neg hfull, if_pos hfull']
    cases junk with
    | nil =>
      simp only [List.length_nil] at h256
      omega
    | cons x junk =>
      obtain ⟨y, hy⟩ := shiftUp_spec post x junk hpos.symm
      have hset := setAt_mid hpos.symm y c (post ++ junk)
      rw [← hbuf, ← hn] at hy
      have hins : l.text.insertIdx l.cursor c = pre ++ c :: post := by
        rw [htext, ← hpre]
        exact insertIdx_mid pre post
      simp only [Option.bind_eq_bind, hy, Option.bind_some, hset]
      refine redraw_of ⟨?_, ⟨junk, ?_⟩, ?_, ?_, ?_, ?_, ?_⟩
      · simp only [List.length_append, List.length_cons] at h256 ⊢
        omega
      · simp [hins]
      · simp only [hins, List.length_append, List.length_cons]
        omega
      · simp only
        omega
      · simp only [hins, List.length_append, List.length_cons]
        omega
      · simp only [hins, List.length_append, List.length_cons]
        omega
      · intro d hd
        rw [hins] at hd
        simp only [List.mem_append, List.mem_cons] at hd
        obtain hd | rfl | hd := hd
        · exact h.nonzero d (by rw [htext]; exact List.mem_append_left _ hd)
        · exact hc
        · exact h.nonzero d (by rw [htext]; exact List.mem_append_right _ hd)

theorem Holds.sub {l : Line} (h : Holds s l) {cells : List UInt8} {pre post junk : Bytes}
    {pos : Nat} (hcells : cells = pre ++ post ++ junk) (hlen : cells.length = 256)
    (hpos : pos ≤ (pre ++ post).length) (hsmall : (pre ++ post).length ≤ 255)
    (hmem : ∀ d ∈ pre ++ post, d ∈ l.text) :
    Holds { s with cmdBuffer := cells, cmdLen := (pre ++ post).length, cmdPos := pos }
      ⟨pre ++ post, pos⟩ :=
  ⟨hlen, ⟨junk, hcells⟩, rfl, rfl, hpos, hsmall, fun d hd => h.nonzero d (hmem d hd)⟩

theorem eraseAt_spec {l : Line} (h : Holds s l) :
    ∃ s', shellDeleteCharAt s = some s' ∧ Edit s s' l.eraseAt := by
  obtain ⟨pre, post, junk, htext, hbuf, hpre, hpos, hn, hlen, h256⟩ := h.split
  have hsmall := h.small
  unfold shellDeleteCharAt
  cases post with
  | nil =>
    have hend : s.cmdLen ≤ s.cmdPos := by
      simp only [List.length_nil] at hlen
      omega
    have hsame : l.eraseAt = l := by
      unfold Line.eraseAt
      rw [List.eraseIdx_of_length_le (by rw [htext, List.append_nil, hpre])]
    rw [if_pos hend, hsame]
    exact ⟨s, rfl, Edit.refl h⟩
  | cons x post =>
    rw [htext] at hsmall
    simp only [List.length_append, List.length_cons] at hsmall h256 hlen
    have hgo : ¬ s.cmdLen ≤ s.cmdPos := by omega
    have herase : l.eraseAt = ⟨pre ++ post, s.cmdPos⟩ := by
      unfold Line.eraseAt
      rw [htext, ← hpre, eraseIdx_mid, hpos]
    obtain ⟨y, hy⟩ := shiftDown_spec post x junk pre s.cmdPos hpos.symm
    have hcount : s.cmdLen - 1 - s.cmdPos = post.length := by omega
    have hnew : s.cmdLen - 1 = (pre ++ post).length := by
      rw [List.length_append]
      omega
    rw [if_neg hgo, hcount, hbuf, List.cons_append, hy, herase]
    simp only [Option.bind_eq_bind, Option.bind_some, hnew]
    refine redraw_of (h.sub (show _ = pre ++ post ++ y :: junk by simp) ?_ ?_ ?_ (fun d hd => ?_))
    · simp only [List.length_append, List.length_cons]
      omega
    · rw [List.length_append]
      omega
    · rw [List.length_append]
      omega
    · rw [htext]
      rcases List.mem_append.mp hd with hd | hd
      · exact List.mem_append_left _ hd
      · exact List.mem_append_right _ (List.mem_cons_of_mem _ hd)

theorem eraseBefore_spec {l : Line} (h : Holds s l) :
    ∃ s', shellDeleteCharBefore s = some s' ∧ Edit s s' l.eraseBefore := by
  obtain ⟨pre, post, junk, htext, hbuf, hpre, hpos, hn, hlen, h256⟩ := h.split
  have hsmall := h.small
  unfold shellDeleteCharBefore Line.eraseBefore
  rcases List.eq_nil_or_concat pre with rfl | ⟨pre, x, rfl⟩
  · have hzero : l.cursor = 0 := hpre.symm
    rw [if_pos (show s.cmdPos = 0 from hpos), if_neg (by omega)]
    exact ⟨s, rfl, Edit.refl h⟩
  · rw [List.concat_eq_append] at *
    rw [htext] at hsmall
    simp only [List.length_append, List.length_cons, List.length_nil] at hsmall h256 hlen hpos hpre
    have hcur : l.cursor - 1 = pre.length := by omega
    have hgo : ¬ s.cmdPos = 0 := by omega
    have hidx : s.cmdPos - 1 = pre.length := by omega
    have hcount : s.cmdLen - 1 - pre.length = post.length := by omega
    have hnew : s.cmdLen - 1 = (pre ++ post).length := by
      rw [List.length_append]
      omega
    have hbuf' : s.cmdBuffer = pre ++ x :: (post ++ junk) := by rw [hbuf]; simp
    have htext' : l.text = pre ++ x :: post := by rw [htext]; simp
    obtain ⟨y, hy⟩ := shiftDown_spec post x junk pre pre.length rfl
    rw [if_neg hgo, if_pos (by omega), hidx, hcount, hbuf', hy, hcur, htext', eraseIdx_mid]
    simp only [Option.bind_eq_bind, Option.bind_some, hnew]
    refine redraw_of (h.sub (show _ = pre ++ post ++ y :: junk by simp) ?_ ?_ ?_ (fun d hd => ?_))
    · simp only [List.length_append, List.length_cons]
      omega
    · rw [List.length_append]
      omega
    · rw [List.length_append]
      omega
    · rw [htext']
      rcases List.mem_append.mp hd with hd | hd
      · exact List.mem_append_left _ hd
      · exact List.mem_append_right _ (List.mem_cons_of_mem _ hd)

theorem move_spec {l : Line} (h : Holds s l) {pos : Nat} (hpos : pos ≤ l.text.length) :
    ∃ s', shellRedrawLine { s with cmdPos := pos } = some s' ∧ Edit s s' ⟨l.text, pos⟩ :=
  redraw_of ⟨h.length, h.text, h.len, rfl, hpos, h.small, h.nonzero⟩

theorem letterAct_spec {l : Line} (h : Holds s l) (h65 : c ≠ 65) (h66 : c ≠ 66)
    (htilde : c ≠ tilde) :
    ∃ s', shellHandleEscape s c = some s' ∧ Edit s s' (letterAct c l) := by
  have hcursor := h.cursor
  have hpos := h.pos
  have hlen := h.len
  unfold shellHandleEscape letterAct
  rw [if_neg h65, if_neg h66]
  by_cases h67 : c = 67
  · rw [if_pos h67, if_pos h67]
    unfold shellMoveRight Line.right
    by_cases hlt : s.cmdPos < s.cmdLen
    · rw [if_pos hlt, Nat.min_eq_left (by omega), hpos]
      exact move_spec h (by omega)
    · rw [if_neg hlt, Nat.min_eq_right (by omega), show l.text.length = l.cursor by omega]
      exact ⟨s, rfl, Edit.refl h⟩
  rw [if_neg h67, if_neg h67]
  by_cases h68 : c = 68
  · rw [if_pos h68, if_pos h68]
    unfold shellMoveLeft Line.left
    by_cases hlt : 0 < s.cmdPos
    · rw [if_pos hlt, hpos]
      exact move_spec h (by omega)
    · rw [if_neg hlt, show l.cursor - 1 = l.cursor by omega]
      exact ⟨s, rfl, Edit.refl h⟩
  rw [if_neg h68, if_neg h68]
  by_cases h72 : c = 72
  · rw [if_pos h72, if_pos h72]
    exact move_spec h (Nat.zero_le _)
  rw [if_neg h72, if_neg h72]
  by_cases h70 : c = 70
  · rw [if_pos h70, if_pos h70]
    unfold shellMoveEnd Line.toEnd
    have hmove := move_spec h (show s.cmdLen ≤ l.text.length by omega)
    rwa [show (⟨l.text, s.cmdLen⟩ : Line) = ⟨l.text, l.text.length⟩ by rw [hlen]] at hmove
  rw [if_neg h70, if_neg h70, if_neg htilde]
  exact ⟨s, rfl, Edit.refl h⟩

/-! ### The history -/

theorem cString_text {text junk : Bytes} (h : ∀ d ∈ text, d ≠ 0) :
    cString (text ++ 0 :: junk) = some text := by
  have htake : (text ++ 0 :: junk).takeWhile (· != 0) = text := by
    rw [List.takeWhile_append_of_pos (fun d hd => by simpa using h d hd),
      List.takeWhile_cons_of_neg (by simp),
      List.append_nil]
  unfold cString
  rw [if_pos (by simp), htake]

theorem addHistory_spec (hrows : s.history.length = 20) {cmd : Bytes} (hcmd : cmd.length ≤ 255) :
    ∃ s', shellAddHistory s cmd = some s' ∧ s'.history.length = 20 ∧ s'.log = s.log ∧
      s'.cmdBuffer = s.cmdBuffer ∧ s'.escState = s.escState ∧ s'.escBuf = s.escBuf ∧
        s'.escPos = s.escPos := by
  have hrow : ∀ i, i % historySize < s.history.length := by
    intro i
    rw [hrows]
    exact Nat.mod_lt _ (by decide)
  obtain ⟨last, hlast⟩ : ∃ last, lastLine s = some last := by
    unfold lastLine
    split
    · rw [List.getElem?_eq_getElem (hrow _)]
      exact ⟨_, rfl⟩
    · exact ⟨_, rfl⟩
  unfold shellAddHistory
  simp only [Option.bind_eq_bind, hlast, Option.bind_some]
  split
  · exact ⟨s, rfl, hrows, rfl, rfl, rfl, rfl, rfl⟩
  · rw [if_pos (show cmd.length < maxCmdLen by unfold maxCmdLen; omega), setAt, if_pos (hrow _)]
    exact ⟨_, rfl, by simpa using hrows, rfl, rfl, rfl, rfl, rfl⟩

/-- What entering a line leaves alone. -/
structure SameEscape (s s' : State) : Prop where
  state : s'.escState = s.escState
  buf : s'.escBuf = s.escBuf
  pos : s'.escPos = s.escPos

theorem processed_say (s : State) (o : Output) :
    processed (s.say o) = processed s ++ (match o with
      | .process line => [line]
      | _ => []) := by
  cases o <;> simp [processed, State.say]

theorem runLine_spec {l : Line} (h : Holds s l) (hrows : s.history.length = 20) :
    ∃ s', runLine s = some s' ∧ s'.cmdBuffer.length = 256 ∧ s'.history.length = 20 ∧
      SameEscape s s' ∧
      processed s' = processed s ++ if l.text = [] then [] else [l.text] := by
  unfold runLine
  by_cases hempty : l.text = []
  · have hlen := h.len
    rw [hempty, List.length_nil] at hlen
    rw [if_neg (by omega), if_pos hempty, List.append_nil]
    exact ⟨s, rfl, h.length, hrows, ⟨rfl, rfl, rfl⟩, rfl⟩
  · obtain ⟨junk, hjunk⟩ := h.text
    have hpos := List.length_pos_iff.mpr hempty
    have hsmall := h.small
    have hlength := h.length
    rw [hjunk, List.length_append] at hlength
    rw [if_pos (by rw [h.len]; exact hpos), if_neg hempty]
    cases junk with
    | nil =>
      simp only [List.length_nil] at hlength
      omega
    | cons x junk =>
      have hset : setAt s.cmdBuffer s.cmdLen 0 = some (l.text ++ 0 :: junk) := by
        rw [hjunk]
        exact setAt_mid h.len.symm x 0 junk
      simp only [Option.bind_eq_bind, hset, Option.bind_some, cString_text h.nonzero]
      obtain ⟨s', hadd, hrows', hlog, hbuf, hes, heb, hep⟩ :=
        addHistory_spec (s := { s with cmdBuffer := l.text ++ 0 :: junk }) hrows hsmall
      rw [hadd]
      refine ⟨s'.say (.process l.text), rfl, ?_, hrows', ⟨hes, heb, hep⟩, ?_⟩
      · show s'.cmdBuffer.length = 256
        rw [hbuf]
        simpa using hlength
      · rw [processed_say]
        unfold processed
        rw [hlog]

/-- **The line is entered**: it is processed if it is not empty, and it is empty afterwards. -/
theorem enter_spec {l : Line} (h : Holds s l) (hrows : s.history.length = 20) :
    ∃ s', enterLine s = some s' ∧ Holds s' ⟨[], 0⟩ ∧ s'.history.length = 20 ∧ SameEscape s s' ∧
      processed s' = processed s ++ if l.text = [] then [] else [l.text] := by
  have hsay : Holds (s.say (.print [10])) l := h.same rfl rfl rfl
  obtain ⟨s', hrun, hlen, hrows', hesc, hproc⟩ := runLine_spec hsay hrows
  refine ⟨({ s' with cmdLen := 0, cmdPos := 0, historyIndex := none }.say (.print prompt)), ?_, ?_,
    hrows', ⟨hesc.state, hesc.buf, hesc.pos⟩, ?_⟩
  · unfold enterLine
    rw [hrun]
    rfl
  · exact ⟨hlen, ⟨s'.cmdBuffer, rfl⟩, rfl, rfl, Nat.le_refl _, by simp, fun d hd => by cases hd⟩
  · rw [processed_say, List.append_nil]
    have hquiet : processed (s.say (.print [10])) = processed s := by
      rw [processed_say, List.append_nil]
    rw [← hquiet, ← hproc]
    rfl

/-! ### Escape sequences -/

theorem take_set (cells : List UInt8) {i : Nat} (hi : i < cells.length) :
    (cells.set i c).take (i + 1) = cells.take i ++ [c] := by
  rw [List.take_succ_eq_append_getElem (by simpa using hi), List.getElem_set_self,
    List.take_set_of_le (Nat.le_refl i)]

theorem storeEscape_spec (hlen : s.escBuf.length = 8) (hpos : s.escPos < 8) (c : UInt8) :
    storeEscape s c =
      some { s with escBuf := s.escBuf.set s.escPos c, escPos := s.escPos + 1 } := by
  unfold storeEscape setAt
  rw [if_pos (by omega)]
  rfl

theorem Pending.idle (hes : s.escState = .none) (hbuf : s.escBuf.length = 8) (hpos : s.escPos = 0) :
    Pending s none :=
  ⟨hes, hbuf, hpos, fun _ hp => (by cases hp), fun _ _ hp => (by cases hp)⟩

theorem Pending.same {p : Option Bytes} (h : Pending s p) (hsame : SameEscape s s') :
    Pending s' p :=
  ⟨hsame.state.trans h.state, by rw [hsame.buf]; exact h.length, hsame.pos.trans h.pos,
    fun seq hseq => by rw [hsame.buf, hsame.pos]; exact h.bytes seq hseq, h.short⟩

theorem Pending.store {seq : Bytes} (h : Pending s (some seq)) (hseq : seq.length ≤ 5) (c : UInt8) :
    ∃ buf, storeEscape s c = some { s with escBuf := buf, escPos := seq.length + 2 } ∧
      buf.length = 8 ∧
      buf.take (seq.length + 2) = esc :: (seq ++ [c]) := by
  have hpos : s.escPos = seq.length + 1 := h.pos
  have hbytes := h.bytes seq rfl
  refine ⟨s.escBuf.set s.escPos c, ?_, ?_, ?_⟩
  · rw [storeEscape_spec h.length (by omega) c, hpos]
  · rw [List.length_set, h.length]
  · rw [show seq.length + 2 = s.escPos + 1 by omega, take_set _ (by rw [h.length]; omega), hbytes]
    rfl

/-! ### A byte -/

theorem Refines.edit {l : Line} {p : Option Bytes} (h : Refines s e) (he : Edit s s' l)
    (hp : Pending s' p) :
    Refines s' { e with line := l, pending := p } :=
  ⟨he.holds, hp, he.history ▸ h.rows, he.processed.trans h.entered⟩

theorem Edit.escape {l : Line} (h : Edit s s' l) : SameEscape s s' :=
  ⟨h.escState, h.escBuf, h.escPos⟩

theorem key_esc : e.key esc = e := by
  unfold Editor.key
  rw [if_neg (by decide), if_neg (by decide), if_neg (by decide)]

theorem Refines.plain (h : Refines s e) (hp : e.pending = none) (c : UInt8) :
    ∃ s', feedPlain s c = some s' ∧ Refines s' (e.feed codeAct c) := by
  have hpend : Pending s none := hp ▸ h.pending
  unfold feedPlain
  simp only [Editor.feed, hp, parseStep]
  by_cases hesc : c = esc
  · subst hesc
    have hstore := storeEscape_spec (s := { s with escState := .start, escPos := 0 }) hpend.length
      (show 0 < 8 by decide) esc
    rw [if_pos rfl, if_pos rfl, key_esc, hstore]
    refine ⟨_, rfl, h.holds.same rfl rfl rfl, ⟨rfl, ?_, rfl, ?_, fun _ _ hq => (by cases hq)⟩,
      h.rows, h.entered⟩
    · show (s.escBuf.set 0 esc).length = 8
      rw [List.length_set, hpend.length]
    · intro seq hseq
      cases hseq
      exact take_set s.escBuf (i := 0) (by rw [hpend.length]; decide)
  rw [if_neg hesc, if_neg hesc]
  unfold Editor.key
  by_cases henter : c = 10
  · rw [if_pos henter, if_pos henter]
    obtain ⟨s', hs, hholds, hrows, hsame, hproc⟩ := enter_spec h.holds h.rows
    exact ⟨s', hs, hholds, hpend.same hsame, hrows, by rw [hproc, h.entered]⟩
  rw [if_neg henter, if_neg henter]
  by_cases hback : c = 8 ∨ c = 127
  · rw [if_pos hback, if_pos hback]
    obtain ⟨s', hs, he⟩ := eraseBefore_spec h.holds
    exact ⟨s', hs, h.edit he (hpend.same he.escape)⟩
  rw [if_neg hback, if_neg hback]
  by_cases hprint : 32 ≤ c ∧ c ≤ 126
  · rw [if_pos hprint, if_pos hprint]
    obtain ⟨s', hs, he⟩ :=
      insert_spec h.holds (c := c) (fun hzero => (by rw [hzero] at hprint; simp at hprint))
    exact ⟨s', hs, h.edit he (hpend.same he.escape)⟩
  · rw [if_neg hprint, if_neg hprint]
    exact ⟨s, rfl, h.edit (Edit.refl h.holds) hpend⟩

theorem Refines.start (h : Refines s e) (hp : e.pending = some []) (c : UInt8) :
    ∃ s', shellFeedChar s c = some s' ∧ Refines s' (e.feed codeAct c) := by
  have hpend : Pending s (some []) := hp ▸ h.pending
  obtain ⟨buf, hstore, hlen, hbytes⟩ := hpend.store (by simp) c
  have hstate : s.escState = .start := hpend.state
  simp only [shellFeedChar, hstate, Option.bind_eq_bind, hstore, Option.bind_some, Editor.feed,
    hp, parseStep]
  by_cases hbracket : c = bracket
  · rw [if_pos hbracket, if_pos hbracket]
    refine ⟨_, rfl, h.holds.same rfl rfl rfl, ⟨rfl, hlen, rfl, ?_, ?_⟩, h.rows, h.entered⟩
    · intro seq hseq
      cases hseq
      exact hbytes
    · intro b params hseq
      cases hseq
      exact Nat.zero_le _
  · rw [if_neg hbracket, if_neg hbracket]
    exact ⟨_, rfl, h.holds.same rfl rfl rfl, Pending.idle rfl hlen rfl, h.rows, h.entered⟩

/-- The last byte of a sequence, when the bytes before it have been stored. -/
theorem final_spec {l : Line} {b : UInt8} {params : Bytes} (h : Holds s l)
    (hbytes : s.escBuf.take (params.length + 3) = esc :: b :: (params ++ [c]))
    (hpos : s.escPos = params.length + 3) (hc : c ≠ 65 ∧ c ≠ 66) :
    ∃ s', shellHandleEscape s c = some s' ∧ Edit s s' (codeAct params c l) := by
  unfold codeAct
  by_cases htilde : c = tilde
  · subst htilde
    have hthird : s.escBuf[2]? = (params ++ [tilde])[0]? := by
      rw [← List.getElem?_take_of_lt (show 2 < params.length + 3 by omega), hbytes]
      simp
    unfold shellHandleEscape
    rw [if_pos rfl, if_neg (by decide), if_neg (by decide), if_neg (by decide), if_neg (by decide),
      if_neg (by decide), if_neg (by decide), if_pos rfl, if_pos (by omega), hthird]
    cases params with
    | nil =>
      rw [if_neg (by simp)]
      exact ⟨s, rfl, Edit.refl h⟩
    | cons d params =>
      simp only [List.cons_append, List.getElem?_cons_zero, Option.bind_eq_bind, Option.bind_some,
        List.head?_cons, Option.some.injEq]
      by_cases h51 : d = 51
      · rw [if_pos h51, if_pos h51]
        exact eraseAt_spec h
      · rw [if_neg h51, if_neg h51]
        exact ⟨s, rfl, Edit.refl h⟩
  · rw [if_neg htilde]
    exact letterAct_spec h hc.1 hc.2 htilde

/-- A byte after `ESC [`, when the last byte of a sequence makes a line with `P`. -/
theorem Refines.bracket_of (h : Refines s e) {b : UInt8} {params : Bytes}
    (hp : e.pending = some (b :: params)) {P : Line → Prop}
    (hfin : isFinal c = true → ∀ {s₁ : State}, Holds s₁ e.line → s₁.history = s.history →
      s₁.escBuf.take (params.length + 3) = esc :: b :: (params ++ [c]) →
        s₁.escPos = params.length + 3 →
      ∃ s' l, shellHandleEscape s₁ c = some s' ∧ Edit s₁ s' l ∧ P l) :
    ∃ s' l, shellFeedChar s c = some s' ∧
      Refines s' { e with line := l, pending := parseStep (some (b :: params)) c } ∧
      if isFinal c then P l else l = e.line := by
  have hpend : Pending s (some (b :: params)) := hp ▸ h.pending
  have hshort := hpend.short b params rfl
  obtain ⟨buf, hstore, hlen, hbytes⟩ := hpend.store (by simp only [List.length_cons]; omega) c
  have hstate : s.escState = .bracket := hpend.state
  have hholds :
      Holds { s with escState := .bracket, escBuf := buf, escPos := params.length + 1 + 2 }
        e.line :=
    h.holds.same rfl rfl rfl
  simp only [List.length_cons] at hstore hbytes
  simp only [shellFeedChar, hstate, Option.bind_eq_bind, hstore, Option.bind_some, parseStep]
  by_cases hfinal : isFinal c
  · rw [if_pos (show (isFinalLetter c || c == tilde) = true from hfinal), if_pos (Or.inl hfinal)]
    obtain ⟨s', l, hs, he, hl⟩ := hfin hfinal hholds rfl hbytes rfl
    rw [hs]
    refine ⟨endEscape s', l, rfl, ⟨?_, ?_, ?_, ?_⟩, by rwa [if_pos hfinal]⟩
    · exact he.holds.same rfl rfl rfl
    · exact Pending.idle rfl (he.escBuf ▸ hlen) rfl
    · exact he.history ▸ h.rows
    · exact he.processed.trans h.entered
  · rw [if_neg (show ¬ (isFinalLetter c || c == tilde) = true from hfinal)]
    by_cases hmore : 4 ≤ params.length
    · rw [if_neg (by unfold escBufSize; omega), if_pos (Or.inr hmore)]
      exact ⟨_, e.line, rfl,
        ⟨hholds.same rfl rfl rfl, Pending.idle rfl hlen rfl, h.rows, h.entered⟩,
        by rw [if_neg hfinal]⟩
    · rw [if_pos (by unfold escBufSize; omega), if_neg (by simp [hfinal, hmore])]
      refine ⟨_, e.line, rfl, ⟨hholds, ⟨rfl, hlen, ?_, ?_, ?_⟩, h.rows, h.entered⟩,
        by rw [if_neg hfinal]⟩
      · simp [posOf]
      · intro seq hseq
        cases hseq
        exact hbytes
      · intro b' params' hseq
        cases hseq
        rw [List.length_append, List.length_singleton]
        omega

theorem Refines.bracket (h : Refines s e) {b : UInt8} {params : Bytes}
    (hp : e.pending = some (b :: params)) (hc : c ≠ 65 ∧ c ≠ 66) :
    ∃ s', shellFeedChar s c = some s' ∧ Refines s' (e.feed codeAct c) := by
  obtain ⟨s', l, hs, href, hl⟩ := h.bracket_of (P := fun l => l = codeAct params c e.line) hp
    fun _ _ hholds _ hbytes hpos => by
      obtain ⟨s', hs, he⟩ := final_spec hholds hbytes hpos hc
      exact ⟨s', _, hs, he, rfl⟩
  have hline : l = if isFinal c then codeAct params c e.line else e.line := by
    split at hl
    · rw [hl, if_pos ‹_›]
    · rw [hl, if_neg ‹_›]
  simp only [Editor.feed, hp]
  exact ⟨s', hs, hline ▸ href⟩

/-- **Every byte keeps the refinement**, unless it ends a history escape. -/
theorem Refines.feed (h : Refines s e)
    (hc : ∀ b params, e.pending = some (b :: params) → c ≠ 65 ∧ c ≠ 66) :
    ∃ s', shellFeedChar s c = some s' ∧ Refines s' (e.feed codeAct c) := by
  match hp : e.pending with
  | none =>
    have hstate : s.escState = .none := h.pending.state.trans (by rw [hp]; rfl)
    unfold shellFeedChar
    rw [hstate]
    exact h.plain hp c
  | some [] => exact h.start hp c
  | some (b :: params) => exact h.bracket hp (hc b params hp)

/-! ### Runs -/

theorem feed_pending (act : Bytes → UInt8 → Line → Line) (e : Editor) (c : UInt8) :
    (e.feed act c).pending = parseStep e.pending c := by
  unfold Editor.feed
  match e.pending with
  | none => rfl
  | some [] => rfl
  | some (_ :: _) => rfl

theorem Refines.feedAll (h : Refines s e) (cs : List UInt8)
    (hcs : ∀ pre c post, cs = pre ++ c :: post → ∀ b params,
      pre.foldl parseStep e.pending = some (b :: params) → c ≠ 65 ∧ c ≠ 66) :
    ∃ s', feedAll s cs = some s' ∧ Refines s' (cs.foldl (Editor.feed codeAct) e) := by
  induction cs generalizing s e with
  | nil => exact ⟨s, rfl, h⟩
  | cons c cs ih =>
    obtain ⟨s₁, hs₁, h₁⟩ := h.feed (hcs [] c cs rfl)
    obtain ⟨s₂, hs₂, h₂⟩ := ih h₁ (fun pre d post hpre => by
      have hrest := hcs (c :: pre) d post (by rw [hpre]; rfl)
      rwa [List.foldl_cons, ← feed_pending codeAct] at hrest)
    refine ⟨s₂, ?_, h₂⟩
    unfold Shell.feedAll
    rw [hs₁]
    exact hs₂

theorem refines_init : Refines shellInit ⟨⟨[], 0⟩, none, []⟩ :=
  ⟨⟨List.length_replicate, ⟨_, rfl⟩, rfl, rfl, Nat.le_refl _, by simp, fun _ hd => (by cases hd)⟩,
    Pending.idle rfl List.length_replicate rfl, List.length_replicate, rfl⟩

/-- **The shell's line editor is a text with a cursor**, for every sequence of bytes without a
history escape, in which every access to an array is inside it. -/
theorem line_editor_refines (cs : List UInt8) (h : NoHistory cs) :
    ∃ s, feedAll shellInit cs = some s ∧
      let e := Editor.feedAll codeAct cs
      s.cmdBuffer.take s.cmdLen = e.line.text ∧ s.cmdLen = e.line.text.length ∧
        s.cmdPos = e.line.cursor ∧
        s.cmdPos ≤ s.cmdLen ∧ s.cmdLen ≤ 255 ∧ s.escPos ≤ 7 ∧ processed s = e.entered := by
  obtain ⟨s, hs, href⟩ := refines_init.feedAll cs h
  have hholds := href.holds
  refine ⟨s, hs, hholds.take, hholds.len, hholds.pos, ?_, ?_, ?_, href.entered⟩
  · rw [hholds.len, hholds.pos]
    exact hholds.cursor
  · rw [hholds.len]
    exact hholds.small
  · have hpos := href.pending.pos
    have hshort := href.pending.short
    rw [hpos]
    match hp : (List.foldl (Editor.feed codeAct) ⟨⟨[], 0⟩, none, []⟩ cs).pending with
    | none => exact Nat.zero_le _
    | some [] => simp [posOf]
    | some (b :: params) =>
      have := hshort b params hp
      simp only [posOf, List.length_cons]
      omega

/-- `a`, the key that moves to the start, and `ESC [ 3 5 ~`. -/
def fiveTilde : List UInt8 := [97, 27, 91, 72, 27, 91, 51, 53, 126]

theorem noHistory_fiveTilde : NoHistory fiveTilde := by
  intro pre c post h _ _ _
  have hmem : c ∈ fiveTilde := by
    rw [h]
    exact List.mem_append_right _ List.mem_cons_self
  have hall : ∀ d ∈ fiveTilde, d ≠ 65 ∧ d ≠ 66 := by decide +kernel
  exact hall c hmem

theorem line_editor_refines_fiveTilde : NoHistory fiveTilde ∧
    ∃ s, feedAll shellInit fiveTilde = some s ∧
    s.cmdLen = 0 ∧ s.escPos ≤ 7 := by
  obtain ⟨s, hs, -, hlen, -, -, -, hesc, -⟩ := line_editor_refines fiveTilde noHistory_fiveTilde
  exact ⟨noHistory_fiveTilde, s, hs, hlen.trans (by decide), hesc⟩

/-- `ESC [ 3 5 ~` erases at the cursor like `ESC [ 3 ~`. -/
theorem five_tilde_erases : ∃ cs : List UInt8, NoHistory cs ∧ ∃ s, feedAll shellInit cs = some s ∧
    s.cmdBuffer.take s.cmdLen ≠ (Editor.feedAll exactAct cs).line.text := by
  obtain ⟨s, hs, href⟩ := refines_init.feedAll fiveTilde noHistory_fiveTilde
  have htext : s.cmdBuffer.take s.cmdLen = [] := href.holds.take.trans (by decide)
  refine ⟨fiveTilde, noHistory_fiveTilde, s, hs, ?_⟩
  rw [htext]
  decide

end CobraOS.Shell
