import CobraOS.Base.Ring
import CobraOS.Shell.Keys

/-!
# Browsing the history

`recorded s` are the lines that have been recorded, of which the ring `history` keeps the last 20,
in every run (`Recording`).  The keys `Up` and `Down` move an index over all of them, and show what
is in the slot of the index: the line of that index as long as it is one of the last 20.
`browses_iff` says exactly when the keys show the retained lines in order.
-/

namespace CobraOS.Shell

open Base
open Keyboard (TypedKey codes codesOf)

/-- What `shell_add_history` does to the recorded lines. -/
def record (lines : List Bytes) (line : Bytes) : List Bytes :=
  if lines.getLast? = some line then lines else lines ++ [line]

/-- The recorded lines. -/
def recorded (s : State) : List Bytes := (processed s).foldl record []

/-- A prompt, with nothing typed. -/
structure Fresh (s : State) : Prop where
  idle : s.escState = .none
  index : s.historyIndex = none
  len : s.cmdLen = 0

/-- The command line is `line`, and has been drawn last. -/
structure Shows (s : State) (line : Bytes) : Prop where
  text : s.cmdBuffer.take s.cmdLen = line
  drawn : s.log.getLast? = some (.redraw line line.length)

/-- The `n`-th most recent line. -/
def recent (lines : List Bytes) (n : Nat) : Option Bytes := lines[lines.length - n]?

/-- The characters of `k` times `Up` and then `j` times `Down`. -/
def browse (k j : Nat) : Bytes := codesOf (List.replicate k .up ++ List.replicate j .down)

/-- **`k` times `Up`, and `Down` again**: the retained lines are shown in order, and the empty line
at last. -/
def Browses (s : State) (k : Nat) : Prop :=
  let n := min k (min (recorded s).length historySize)
  (∀ j < n, ∃ s' line, feedAll s (browse k j) = some s' ∧ recent (recorded s) (n - j) = some line ∧
    Shows s' line) ∧
  ∃ s', feedAll s (browse k n) = some s' ∧ Shows s' []

/-- The ring keeps the last of the recorded lines, none of which is empty. -/
structure Recording (s : State) : Prop where
  ring : KeepsLast s.history historySize (recorded s)
  count : s.historyCount = (recorded s).length
  nonempty : ∀ line ∈ recorded s, line ≠ []

variable {s s' t s₀ : State} {c : UInt8} {lines : List Bytes} {line cmd : Bytes} {i j k : Nat}

/-! ### The recorded lines -/

theorem SameHistory.recorded (h : SameHistory s s') : recorded s' = recorded s := by
  unfold Shell.recorded
  rw [h.processed]

theorem Recording.same (h : Recording s) (hsame : SameHistory s s') : Recording s' := by
  refine ⟨?_, ?_, ?_⟩
  · rw [hsame.rows, hsame.recorded]
    exact h.ring
  · rw [hsame.count, hsame.recorded]
    exact h.count
  · rw [hsame.recorded]
    exact h.nonempty

theorem lastLine_eq (h : KeepsLast s.history historySize lines)
    (hcount : s.historyCount = lines.length) :
    lastLine s = some lines.getLast? := by
  unfold lastLine
  rw [List.getLast?_eq_getElem?, hcount]
  split
  · have hlt : lines.length - 1 < lines.length := by omega
    rw [h.get _ hlt (by unfold historySize; omega), List.getElem?_eq_getElem hlt]
    rfl
  · have hnil : lines.length - 1 = 0 ∧ lines = [] :=
      ⟨by omega, List.length_eq_zero_iff.mp (by omega)⟩
    rw [hnil.2]
    rfl

/-- **`shell_add_history`** records a line. -/
theorem addHistory_ring (h : KeepsLast s.history historySize lines)
    (hcount : s.historyCount = lines.length) (hs : shellAddHistory s cmd = some s') :
    KeepsLast s'.history historySize (record lines cmd) ∧
      s'.historyCount = (record lines cmd).length ∧
      s'.log = s.log := by
  unfold shellAddHistory at hs
  unfold record
  rw [lastLine_eq h hcount, Option.bind_eq_bind, Option.bind_some] at hs
  split at hs
  · cases hs
    rw [if_pos ‹_›]
    exact ⟨h, hcount, rfl⟩
  rw [if_neg ‹_›]
  split at hs
  · obtain ⟨history, hset, hs⟩ := Option.bind_eq_some_iff.mp hs
    cases hs
    unfold setAt at hset
    split at hset
    · cases hset
      refine ⟨?_, by simp [hcount], rfl⟩
      rw [hcount]
      exact h.put (by decide) cmd
    · cases hset
  · cases hs

theorem record_mem (h : line ∈ record lines cmd) : line ∈ lines ∨ line = cmd := by
  unfold record at h
  split at h
  · exact .inl h
  · simpa using h

theorem record_ne_nil (lines : List Bytes) (line : Bytes) : record lines line ≠ [] := by
  unfold record
  split
  · rintro rfl
    simp_all
  · simp

theorem recorded_ne_nil (h : processed s ≠ []) : recorded s ≠ [] := by
  obtain ⟨pre, line, heq⟩ := (List.eq_nil_or_concat (processed s)).resolve_left h
  unfold recorded
  rw [heq, List.concat_eq_append, List.foldl_append]
  exact record_ne_nil _ _

theorem Recording.enter (h : Recording s) (hready : Ready s) (hs : enterLine s = some s') :
    Recording s' := by
  obtain ⟨e, he⟩ := hready.refines
  rcases enter_history hs with hsame | ⟨t, cmd, s₁, hsame, -, hadd, hrows, hcount, hlog⟩
  · exact h.same hsame
  · have ht := h.same hsame
    obtain ⟨hring, hcount₁, hlog₁⟩ := addHistory_ring ht.ring ht.count hadd
    have hprocessed : processed s' = processed s ++ [cmd] := by
      rw [← hsame.processed]
      simp [processed, hlog, hlog₁]
    have hrecorded : recorded s' = record (recorded t) cmd := by
      unfold recorded
      rw [hprocessed, hsame.processed, List.foldl_append]
      rfl
    -- the command is the text of the line, which is not empty
    have hcmd : cmd ≠ [] := by
      obtain ⟨s₂, hs₂, -, -, -, hentered⟩ := enter_spec he.holds he.rows
      rw [hs] at hs₂
      cases hs₂
      rw [hprocessed, List.append_cancel_left_eq] at hentered
      split at hentered
      · cases hentered
      · rename_i htext
        rwa [List.singleton_inj.mp hentered]
    refine ⟨?_, ?_, fun line hline => ?_⟩
    · rw [hrows, hrecorded]
      exact hring
    · rw [hcount, hrecorded]
      exact hcount₁
    · rw [hrecorded] at hline
      rcases record_mem hline with hline | rfl
      · exact ht.nonempty line hline
      · exact hcmd

/-- **A byte** keeps the recorded lines in the ring. -/
theorem Recording.feed (h : Recording s) (hready : Ready s) (hs : shellFeedChar s c = some s') :
    Recording s' := by
  rcases feed_history hs with henter | hsame
  · exact h.enter hready henter
  · exact h.same hsame

/-- **Every run** does. -/
theorem Recording.feedAll {cs : Bytes} (h : Recording s) (hready : Ready s)
    (hs : feedAll s cs = some s') :
    Ready s' ∧ Recording s' := by
  induction cs generalizing s with
  | nil =>
    cases hs
    exact ⟨hready, h⟩
  | cons c cs ih =>
    obtain ⟨s₁, hs₁, hready₁⟩ := hready.feed c
    rw [Shell.feedAll, hs₁] at hs
    exact ih (h.feed hready hs₁) hready₁ hs

theorem recording_init : Recording shellInit :=
  ⟨.nil _ List.length_replicate, rfl, fun line hline => by cases hline⟩

/-! ### The keys -/

/-- Between two keys: the history is that of `s₀`, and the index is `i`. -/
structure Browsing (s₀ s : State) (i : Option Nat) : Prop where
  ready : Ready s
  idle : s.escState = .none
  same : SameHistory s₀ s
  index : s.historyIndex = i

/-- The line in the slot of the index `i` is shown. -/
structure Viewing (s₀ s : State) (i : Nat) : Prop where
  browsing : Browsing s₀ s (some i)
  shows : ∃ line, s₀.history[i % historySize]? = some line ∧ Shows s line

theorem recall_shows {index : Nat} (h : recallLine s index = some s') :
    s'.historyIndex = some index ∧ ∃ line, s.history[index % historySize]? = some line ∧
      Shows s' line := by
  unfold recallLine at h
  obtain ⟨row, hrow, h⟩ := Option.bind_eq_some_iff.mp h
  obtain ⟨cells, hcells, h⟩ := Option.bind_eq_some_iff.mp h
  obtain ⟨line, hline, h⟩ := Option.bind_eq_some_iff.mp h
  cases h
  have htake : cells.take row.length = row := by
    unfold strcpy at hcells
    split at hcells
    · cases hcells
      exact List.take_left
    · cases hcells
  have hread : line = row := by
    unfold readCells at hline
    split at hline
    · cases hline
      exact htake
    · cases hline
  subst hread
  exact ⟨rfl, line, hrow, htake, by simp [State.say]⟩

theorem Shows.escaped (h : Shows s line) (t : State) : Shows (s.escaped t) line := ⟨h.text, h.drawn⟩

theorem does_result {key : TypedKey} (h : Does key s s') : ∃ u t, act key s = some u ∧
    s' = u.escaped t := by
  obtain ⟨u, hu, he⟩ := h.act
  exact ⟨u, s', hu, he⟩

theorem up_printable : TypedKey.up.Printable := trivial

theorem down_printable : TypedKey.down.Printable := trivial

theorem Browsing.key {key : TypedKey} {o : Option Nat} (h : Browsing s₀ s o) (hkey : key.Printable)
    (hact : act key s = recallLine s i) : ∃ s', feedAll s (codes key) = some s' ∧
      Viewing s₀ s' i := by
  obtain ⟨s', hdoes, hready⟩ := feed_key h.ready h.idle hkey
  obtain ⟨u, t, hu, rfl⟩ := does_result hdoes
  rw [hact] at hu
  obtain ⟨hindex, line, hrow, hshows⟩ := recall_shows hu
  rw [h.same.rows] at hrow
  exact ⟨_, hdoes.feed,
    ⟨hready, hdoes.idle, (h.same.trans (recall_history hu)).trans ⟨rfl, rfl, rfl⟩, hindex⟩,
    line, hrow, hshows.escaped _⟩

theorem Browsing.up_first (h : Browsing s₀ s none) (hne : s₀.historyCount ≠ 0) :
    ∃ s', feedAll s (codes .up) = some s' ∧ Viewing s₀ s' (s₀.historyCount - 1) := by
  refine h.key up_printable ?_
  unfold act shellHandleEscape
  rw [if_pos rfl, if_neg (by rwa [h.same.count]), h.index, h.same.count]

theorem Viewing.up (h : Viewing s₀ s i) (hne : s₀.historyCount ≠ 0) :
    ∃ s', feedAll s (codes .up) = some s' ∧ Viewing s₀ s' (i - 1) := by
  refine h.browsing.key up_printable ?_
  unfold act shellHandleEscape
  rw [if_pos rfl, if_neg (by rwa [h.browsing.same.count]), h.browsing.index]
  show recallLine s (if 0 < i then i - 1 else i) = _
  split
  · rfl
  · rw [Nat.sub_eq_zero_of_le (by omega), show i = 0 by omega]

theorem down_eq (h : s.historyIndex = some i) : act .down s =
    (if i + 1 < s.historyCount then recallLine s (i + 1)
    else do
      let cells ← setAt s.cmdBuffer 0 0
      shellRedrawLine { s with
        cmdBuffer := cells, cmdLen := 0, cmdPos := 0, historyIndex := none }) := by
  have hdown : ¬ (66 : UInt8) = 65 := by decide
  show shellHandleEscape s 66 = _
  unfold shellHandleEscape
  rw [if_neg hdown, if_pos rfl, h]

theorem Viewing.down (h : Viewing s₀ s i) (hlt : i + 1 < s₀.historyCount) :
    ∃ s', feedAll s (codes .down) = some s' ∧ Viewing s₀ s' (i + 1) := by
  refine h.browsing.key down_printable ?_
  rw [down_eq h.browsing.index, if_pos (by rwa [h.browsing.same.count])]

theorem Viewing.leave (h : Viewing s₀ s i) (hle : s₀.historyCount ≤ i + 1) :
    ∃ s', feedAll s (codes .down) = some s' ∧ Shows s' [] := by
  obtain ⟨s', hdoes, -⟩ := feed_key h.browsing.ready h.browsing.idle down_printable
  obtain ⟨u, t, hu, rfl⟩ := does_result hdoes
  refine ⟨_, hdoes.feed, Shows.escaped ?_ _⟩
  rw [down_eq h.browsing.index, if_neg (by rw [h.browsing.same.count]; omega)] at hu
  obtain ⟨cells, -, hu⟩ := Option.bind_eq_some_iff.mp hu
  unfold shellRedrawLine at hu
  obtain ⟨line, hline, hu⟩ := Option.bind_eq_some_iff.mp hu
  cases hu
  unfold readCells at hline
  rw [if_pos (Nat.zero_le _)] at hline
  cases hline
  exact ⟨rfl, by simp [State.say]⟩

/-! ### Browsing -/

theorem feedAll_codes {typed : List TypedKey} {key : TypedKey}
    (h : feedAll s (codesOf typed) = some t) (hkey : feedAll t (codes key) = some s') :
    feedAll s (codesOf (typed ++ [key])) = some s' := by
  rw [Keyboard.codesOf_append, feedAll_append, h, Option.bind_some]
  show feedAll t (codesOf [key]) = _
  rwa [Keyboard.codesOf_cons, Keyboard.codesOf_nil, List.append_nil]

/-- **`Up`** goes back one line each time, and stays at the first line. -/
theorem Browsing.ups (h : Browsing s₀ s none) (hne : s₀.historyCount ≠ 0) (k : Nat) :
    ∃ s', feedAll s (codesOf (List.replicate (k + 1) .up)) = some s' ∧
      Viewing s₀ s' (s₀.historyCount - (k + 1)) := by
  induction k with
  | zero =>
    obtain ⟨s', hs', hview⟩ := h.up_first hne
    exact ⟨s', by simpa [codesOf] using hs', hview⟩
  | succ k ih =>
    obtain ⟨s₁, hs₁, hview₁⟩ := ih
    obtain ⟨s', hs', hview'⟩ := hview₁.up hne
    rw [List.replicate_succ']
    exact ⟨s', feedAll_codes hs₁ hs', by rwa [Nat.sub_sub] at hview'⟩

/-- **`Down`** goes forward one line each time. -/
theorem Browsing.downs (h : Browsing s₀ s none) (hne : s₀.historyCount ≠ 0) (hk : 1 ≤ k)
    (hj : s₀.historyCount - k + j < s₀.historyCount) :
    ∃ s', feedAll s (browse k j) = some s' ∧ Viewing s₀ s' (s₀.historyCount - k + j) := by
  induction j with
  | zero =>
    obtain ⟨s', hs', hview⟩ := h.ups hne (k - 1)
    rw [Nat.sub_add_cancel hk] at hs' hview
    exact ⟨s', by simpa [browse] using hs', hview⟩
  | succ j ih =>
    obtain ⟨s₁, hs₁, hview₁⟩ := ih (by omega)
    obtain ⟨s', hs', hview'⟩ := hview₁.down (by omega)
    unfold browse
    rw [List.replicate_succ', ← List.append_assoc]
    exact ⟨s', feedAll_codes hs₁ hs', hview'⟩

theorem Browsing.leaves (h : Browsing s₀ s none) (hne : s₀.historyCount ≠ 0) (hk : 1 ≤ k)
    (hj : 0 < j) (heq : s₀.historyCount - k + j = s₀.historyCount) :
    ∃ s', feedAll s (browse k j) = some s' ∧ Shows s' [] := by
  obtain ⟨j, rfl⟩ := Nat.exists_eq_succ_of_ne_zero hj.ne'
  obtain ⟨s₁, hs₁, hview₁⟩ := h.downs hne hk (j := j) (by omega)
  obtain ⟨s', hs', hshows⟩ := hview₁.leave (by omega)
  refine ⟨s', ?_, hshows⟩
  unfold browse
  rw [Nat.succ_eq_add_one, List.replicate_succ', ← List.append_assoc]
  exact feedAll_codes hs₁ hs'

theorem Fresh.browsing (h : Fresh s) (hready : Ready s) : Browsing s s none :=
  ⟨hready, h.idle, .refl s, h.index⟩

/-- **The index is one of the last 20.** -/
theorem browses_of (h : Fresh s) (hready : Ready s) (hrec : Recording s) (hne : recorded s ≠ [])
    (hk : 1 ≤ k) (hsmall : (recorded s).length ≤ 20 ∨ k ≤ 20) : Browses s k := by
  have hb := h.browsing hready
  have hpos := List.length_pos_iff.mpr hne
  have hcount := hrec.count
  have h20 : historySize = 20 := rfl
  have hmin : (recorded s).length - k =
      (recorded s).length - min k (min (recorded s).length historySize) := by
    omega
  refine ⟨fun j hj => ?_, ?_⟩
  · obtain ⟨s', hs', -, line, hslot, hshows⟩ := hb.downs (by omega) hk (j := j) (by omega)
    refine ⟨s', line, hs', ?_, hshows⟩
    rw [hcount, hrec.ring.get _ (by omega) (by omega)] at hslot
    rw [recent, ← hslot]
    congr 1
    omega
  · exact hb.leaves (by omega) hk (by omega) (by omega)

/-- **The index has gone further back**, and the last `Down` does not come to the empty line. -/
theorem not_browses_of (h : Fresh s) (hready : Ready s) (hrec : Recording s)
    (hlarge : 20 < (recorded s).length ∧ 20 < k) : ¬Browses s k := by
  rintro ⟨-, s', hs', hempty⟩
  have hcount := hrec.count
  have hn : min k (min (recorded s).length historySize) = 20 := by
    unfold historySize
    omega
  rw [hn] at hs'
  obtain ⟨s₁, hs₁, -, line, hslot, hshows⟩ :=
    (h.browsing hready).downs (j := 20) (k := k) (by omega) (by omega) (by omega)
  rw [hs₁] at hs'
  cases hs'
  obtain ⟨line', hmem, hslot'⟩ :=
    hrec.ring.mem (i := s.historyCount - k + 20) (by decide) (by omega)
  rw [hslot'] at hslot
  cases hslot
  exact hrec.nonempty line hmem (hshows.text.symm.trans hempty.text)

/-- **When browsing the history shows the retained lines in order**, from any prompt to which any
bytes have led and at which lines have been processed: not more than 20 lines have been recorded, or
`Up` is pressed not more than 20 times. -/
theorem browses_iff {cs : Bytes} (hs : feedAll shellInit cs = some s) (hfresh : Fresh s)
    (hne : processed s ≠ []) (hk : 1 ≤ k) : Browses s k ↔ (recorded s).length ≤ 20 ∨ k ≤ 20 := by
  obtain ⟨hready, hrec⟩ := recording_init.feedAll ready_init hs
  constructor
  · intro h
    by_contra hlarge
    exact not_browses_of hfresh hready hrec (by omega) h
  · exact browses_of hfresh hready hrec (recorded_ne_nil hne) hk

/-- What a prompt is, and the number of lines recorded. -/
def promptOf (s : State) : Bool × Option Nat × Nat × Nat :=
  (s.escState matches .none, s.historyIndex, s.cmdLen, (recorded s).length)

theorem fresh_of {cs : Bytes} {n : Nat}
    (h : (feedAll shellInit cs).map promptOf = some (true, none, 0, n + 1)) :
    ∃ s, feedAll shellInit cs = some s ∧ Fresh s ∧ processed s ≠ [] ∧
      (recorded s).length = n + 1 := by
  obtain ⟨s, hs, heq⟩ := Option.map_eq_some_iff.mp h
  unfold promptOf at heq
  simp only [Prod.mk.injEq] at heq
  obtain ⟨hidle, hindex, hlen, hcount⟩ := heq
  refine ⟨s, hs, ⟨?_, hindex, hlen⟩, fun hnil => ?_, hcount⟩
  · cases hstate : s.escState <;> simp_all
  · rw [recorded, hnil] at hcount
    cases hcount

/-- `a` is entered, and `Up` is pressed. -/
theorem browses_iff_a : ∃ s, feedAll shellInit [97, 10] = some s ∧ Browses s 1 := by
  obtain ⟨s, hs, hfresh, hne, -⟩ := @fresh_of [97, 10] 0 (by decide +kernel)
  exact ⟨s, hs, (browses_iff hs hfresh hne le_rfl).mpr (.inr (by decide))⟩

/-- The letters from `a` to `u`, each on a line. -/
def manyLines : Bytes := (List.range 21).flatMap fun n => [97 + UInt8.ofNat n, 10]

/-- **A line that is gone is asked for**: 21 lines are recorded, and `Up` is pressed 21 times. -/
theorem browses_too_far : ∃ cs s k, feedAll shellInit cs = some s ∧ Fresh s ∧
    processed s ≠ [] ∧ 1 ≤ k ∧
    ¬Browses s k := by
  obtain ⟨s, hs, hfresh, hne, hcount⟩ := @fresh_of manyLines 20 (by decide +kernel)
  obtain ⟨hready, hrec⟩ := recording_init.feedAll ready_init hs
  exact ⟨manyLines, s, 21, hs, hfresh, hne, by decide, not_browses_of hfresh hready hrec (by omega)⟩

end CobraOS.Shell
