import CobraOS.Screen.Model
import CobraOS.Shell.History

/-!
# The shell on the screen

The terminal is the shell with the screen that it prints on.  What a character makes the shell print
is in its log, and a command that runs prints what the input says.

`shell_redraw_line` sets the cursor from the row that it has read before it printed the line, and
does not ask whether that place is on the screen.  `Fits` says that it is; as long as it does, the
cursor stays on the screen, and no longer (`on_screen_iff`).
-/

namespace CobraOS.Shell

open Screen (OnScreen screenWidth screenHeight)

/-- The calls of a command that only prints. -/
inductive Call
  | cprint (c : UInt8)
  | setTextColor (colors : UInt8)
  | clearScreen

def call (scr : Screen.State) : Call → Screen.State
  | .cprint c => Screen.cprint scr c
  | .setTextColor colors => { scr with colors := colors }
  | .clearScreen => Screen.clearScreen scr

/-- A character, and the calls of the command if one runs. -/
structure Input where
  char : UInt8
  command : List Call

structure Terminal where
  shell : State
  screen : Screen.State

/-- `shell_redraw_line` -/
def redrawLine (scr : Screen.State) (line : Bytes) (pos : Nat) : Screen.State :=
  let row := scr.cursorRow
  let scr := Screen.clearScreenRow scr row
  let scr := Screen.setCursorPosition scr 0 row
  let scr := Screen.vprint (Screen.vprint scr prompt) line
  Screen.setCursorPosition scr (prompt.length + pos) row

def display (command : List Call) (scr : Screen.State) : Output → Screen.State
  | .print text => Screen.vprint scr text
  | .redraw line pos => redrawLine scr line pos
  | .process _ => command.foldl call scr

/-- The log starts again with every character. -/
def State.quiet (s : State) : State := { s with log := [] }

/-- `shell_feed_char` with what it prints. -/
def Terminal.feed (t : Terminal) (i : Input) : Option Terminal := do
  let shell ← shellFeedChar t.shell.quiet i.char
  some ⟨shell, shell.log.foldl (display i.command) t.screen⟩

def Terminal.feedAll (t : Terminal) : List Input → Option Terminal
  | [] => some t
  | i :: l => do
    let t ← t.feed i
    t.feedAll l

/-- `"\nCobraOS Shell v0.4\nType 'help' for available commands.\n> "` -/
def banner : Bytes :=
  [10, 67, 111, 98, 114, 97, 79, 83, 32, 83, 104, 101, 108, 108, 32, 118, 48, 46, 52, 10, 84, 121,
    112, 101, 32,
    39, 104, 101, 108, 112, 39, 32, 102, 111, 114, 32, 97, 118, 97, 105, 108, 97, 98, 108, 101, 32,
      99, 111, 109,
    109, 97, 110, 100, 115, 46, 10] ++ prompt

/-- After `shell_init`, whatever was on the screen before. -/
def start (scr : Screen.State) : Terminal :=
  ⟨shellInit, Screen.vprint (Screen.clearScreen { scr with touched := [] }) banner⟩

/-- The length of a line of the history, where the cursor goes when the line is recalled. -/
def rowEnd (s : State) (index : Nat) : Option Nat := s.history[index % historySize]?.map List.length

/-- The place in the line where the cursor goes with the byte `c`, when the line is drawn again. -/
def redrawAt (s : State) (c : UInt8) : Option Nat :=
  match s.escState with
  | .none =>
    if c = 8 ∨ c = 127 then if s.cmdPos = 0 then none else some (s.cmdPos - 1)
    else if 32 ≤ c ∧ c ≤ 126 then if maxCmdLen - 1 ≤ s.cmdLen then none else some (s.cmdPos + 1)
    else none
  | .start => none
  | .bracket =>
    if c = 65 then
      if s.historyCount = 0 then none
      else
        match s.historyIndex with
        | none => rowEnd s (s.historyCount - 1)
        | some i => rowEnd s (if 0 < i then i - 1 else i)
    else if c = 66 then
      match s.historyIndex with
      | none => none
      | some i => if i + 1 < s.historyCount then rowEnd s (i + 1) else some 0
    else if c = 67 then if s.cmdPos < s.cmdLen then some (s.cmdPos + 1) else none
    else if c = 68 then if 0 < s.cmdPos then some (s.cmdPos - 1) else none
    else if c = 72 then some 0
    else if c = 70 then some s.cmdLen
    else if c = tilde then
      if 3 ≤ s.escPos ∧ s.escBuf[2]? = some 51 ∧ s.cmdPos < s.cmdLen then some s.cmdPos else none
    else none

/-- **The condition.**  If the line is drawn again, the place of its cursor, behind the prompt in
the row of the cursor, is on the screen. -/
def Fits (t : Terminal) (c : UInt8) : Prop :=
  ∀ pos ∈ redrawAt t.shell c,
    t.screen.cursorRow * screenWidth + (prompt.length + pos) < screenWidth * screenHeight

/-! ### The screen -/

section

variable {scr : Screen.State}

theorem onScreen_call (h : OnScreen scr) : ∀ call, OnScreen (Shell.call scr call)
  | .cprint c => h.cprint c
  | .setTextColor _ => ⟨h.row, h.col, h.touched⟩
  | .clearScreen => Screen.onScreen_clear h.touched

theorem onScreen_command (h : OnScreen scr) (command : List Call) :
    OnScreen (command.foldl call scr) := by
  induction command generalizing scr with
  | nil => exact h
  | cons c command ih => exact ih (onScreen_call h c)

/-- **A line drawn again** leaves the cursor on the screen just when its place is. -/
theorem onScreen_redraw (h : OnScreen scr) (line : Bytes) (pos : Nat) :
    OnScreen (redrawLine scr line pos) ↔
      scr.cursorRow * screenWidth + (prompt.length + pos) < screenWidth * screenHeight := by
  have hclear := h.clearScreenRow h.row
  have hstart :
      OnScreen (Screen.setCursorPosition (Screen.clearScreenRow scr scr.cursorRow) 0
        scr.cursorRow) := by
    rw [Screen.onScreen_setCursorPosition hclear.touched]
    exact Screen.index_lt h.row (by decide)
  exact Screen.onScreen_setCursorPosition ((hstart.vprint prompt).vprint line).touched _ _

end

/-! ### What a byte draws -/

section

variable {s s' : State} {c : UInt8}

/-- The line is drawn again at that place, or nothing is printed. -/
def Drawn (s s' : State) : Option Nat → Prop
  | none => s'.log = s.log
  | some pos => ∃ line, s'.log = s.log ++ [.redraw line pos]

theorem redraw_drawn (h : shellRedrawLine s = some s') : Drawn s s' (some s.cmdPos) := by
  unfold shellRedrawLine at h
  obtain ⟨line, -, hs⟩ := Option.bind_eq_some_iff.mp h
  cases hs
  exact ⟨line, rfl⟩

theorem recall_drawn {index : Nat} (h : recallLine s index = some s') :
    Drawn s s' (rowEnd s index) := by
  unfold recallLine at h
  obtain ⟨row, hrow, h⟩ := Option.bind_eq_some_iff.mp h
  obtain ⟨cells, -, h⟩ := Option.bind_eq_some_iff.mp h
  unfold rowEnd
  rw [hrow]
  exact (redraw_drawn h :)

theorem insert_drawn (h : shellInsertChar s c = some s') :
    Drawn s s' (if maxCmdLen - 1 ≤ s.cmdLen then none else some (s.cmdPos + 1)) := by
  unfold shellInsertChar at h
  split at h
  · rename_i hfull
    cases h
    rw [if_pos hfull]
    rfl
  · rename_i hfull
    obtain ⟨cells, -, h⟩ := Option.bind_eq_some_iff.mp h
    obtain ⟨cells, -, h⟩ := Option.bind_eq_some_iff.mp h
    rw [if_neg hfull]
    exact (redraw_drawn h :)

theorem eraseBefore_drawn (h : shellDeleteCharBefore s = some s') :
    Drawn s s' (if s.cmdPos = 0 then none else some (s.cmdPos - 1)) := by
  unfold shellDeleteCharBefore at h
  split at h
  · rename_i hzero
    cases h
    rw [if_pos hzero]
    rfl
  · rename_i hzero
    obtain ⟨cells, -, h⟩ := Option.bind_eq_some_iff.mp h
    rw [if_neg hzero]
    exact (redraw_drawn h :)

theorem eraseAt_drawn (h : shellDeleteCharAt s = some s') :
    Drawn s s' (if s.cmdPos < s.cmdLen then some s.cmdPos else none) := by
  unfold shellDeleteCharAt at h
  split at h
  · rename_i hend
    cases h
    rw [if_neg (by omega)]
    rfl
  · rename_i hend
    obtain ⟨cells, -, h⟩ := Option.bind_eq_some_iff.mp h
    rw [if_pos (by omega)]
    exact (redraw_drawn h :)

theorem moveRight_drawn (h : shellMoveRight s = some s') :
    Drawn s s' (if s.cmdPos < s.cmdLen then some (s.cmdPos + 1) else none) := by
  unfold shellMoveRight at h
  split at h
  · rename_i hlt
    rw [if_pos hlt]
    exact (redraw_drawn h :)
  · rename_i hlt
    cases h
    rw [if_neg hlt]
    rfl

theorem moveLeft_drawn (h : shellMoveLeft s = some s') :
    Drawn s s' (if 0 < s.cmdPos then some (s.cmdPos - 1) else none) := by
  unfold shellMoveLeft at h
  split at h
  · rename_i hlt
    rw [if_pos hlt]
    exact (redraw_drawn h :)
  · rename_i hlt
    cases h
    rw [if_neg hlt]
    rfl

theorem up_drawn (h : shellHandleEscape s 65 = some s') :
    Drawn s s' (if s.historyCount = 0 then none
      else
        match s.historyIndex with
        | none => rowEnd s (s.historyCount - 1)
        | some i => rowEnd s (if 0 < i then i - 1 else i)) := by
  unfold shellHandleEscape at h
  rw [if_pos rfl] at h
  by_cases hzero : s.historyCount = 0
  · rw [if_pos hzero] at h ⊢
    cases h
    rfl
  · rw [if_neg hzero] at h ⊢
    cases hi : s.historyIndex with
    | none =>
      simp only [hi] at h ⊢
      exact recall_drawn h
    | some i =>
      simp only [hi] at h ⊢
      exact recall_drawn h

theorem down_drawn (h : shellHandleEscape s 66 = some s') :
    Drawn s s' (match s.historyIndex with
      | none => none
      | some i => if i + 1 < s.historyCount then rowEnd s (i + 1) else some 0) := by
  unfold shellHandleEscape at h
  rw [if_neg (by decide), if_pos rfl] at h
  cases hi : s.historyIndex with
  | none =>
    rw [hi] at h
    cases h
    rfl
  | some i =>
    simp only [hi] at h ⊢
    by_cases hmore : i + 1 < s.historyCount
    · rw [if_pos hmore] at h ⊢
      exact recall_drawn h
    · rw [if_neg hmore] at h ⊢
      obtain ⟨cells, -, h⟩ := Option.bind_eq_some_iff.mp h
      exact (redraw_drawn h :)

theorem letter_drawn (h65 : c ≠ 65) (h66 : c ≠ 66) (htilde : c ≠ tilde)
    (h : shellHandleEscape s c = some s') :
    Drawn s s' (if c = 67 then if s.cmdPos < s.cmdLen then some (s.cmdPos + 1) else none
      else if c = 68 then if 0 < s.cmdPos then some (s.cmdPos - 1) else none
      else if c = 72 then some 0
      else if c = 70 then some s.cmdLen
      else none) := by
  unfold shellHandleEscape at h
  rw [if_neg h65, if_neg h66] at h
  by_cases h67 : c = 67
  · rw [if_pos h67] at h ⊢
    exact moveRight_drawn h
  rw [if_neg h67] at h ⊢
  by_cases h68 : c = 68
  · rw [if_pos h68] at h ⊢
    exact moveLeft_drawn h
  rw [if_neg h68] at h ⊢
  by_cases h72 : c = 72
  · rw [if_pos h72] at h ⊢
    exact (redraw_drawn h :)
  rw [if_neg h72] at h ⊢
  by_cases h70 : c = 70
  · rw [if_pos h70] at h ⊢
    exact (redraw_drawn h :)
  rw [if_neg h70, if_neg htilde] at h
  rw [if_neg h70]
  cases h
  rfl

/-- `ESC [ 3 ~` deletes at the cursor, and no other sequence that ends in a tilde does anything. -/
theorem tilde_drawn (h : shellHandleEscape s tilde = some s') :
    Drawn s s' (if 3 ≤ s.escPos ∧ s.escBuf[2]? = some 51 ∧
      s.cmdPos < s.cmdLen then some s.cmdPos else none) := by
  unfold shellHandleEscape at h
  rw [if_neg (by decide), if_neg (by decide), if_neg (by decide), if_neg (by decide),
    if_neg (by decide), if_neg (by decide), if_pos rfl] at h
  by_cases hlong : 3 ≤ s.escPos
  · rw [if_pos hlong] at h
    obtain ⟨d, hd, h⟩ := Option.bind_eq_some_iff.mp h
    by_cases h51 : d = 51
    · rw [if_pos h51] at h
      have hiff : (3 ≤ s.escPos ∧ s.escBuf[2]? = some 51 ∧ s.cmdPos < s.cmdLen) ↔
          s.cmdPos < s.cmdLen := by
        rw [hd, h51]
        exact ⟨fun hall => hall.2.2, fun hlt => ⟨hlong, rfl, hlt⟩⟩
      simp only [hiff]
      exact eraseAt_drawn h
    · rw [if_neg h51] at h
      cases h
      rw [if_neg (fun hall => h51 (Option.some.inj (hd.symm.trans hall.2.1)))]
      rfl
  · rw [if_neg hlong] at h
    cases h
    rw [if_neg (fun hall => hlong hall.1)]
    rfl

/-- The byte that has just been stored is no digit, so what is deleted depends on the bytes before
it. -/
theorem delete_stored (hlen : s.escPos < s.escBuf.length) :
    (3 ≤ s.escPos + 1 ∧ (s.escBuf.set s.escPos tilde)[2]? = some 51) ↔ 3 ≤ s.escPos ∧
      s.escBuf[2]? = some 51 := by
  by_cases hfar : 3 ≤ s.escPos
  · rw [List.getElem?_set_ne (by omega)]
    exact and_congr_left' (iff_of_true (by omega) hfar)
  · refine iff_of_false (fun ⟨hlong, hdigit⟩ => ?_) (fun h => hfar h.1)
    rw [show s.escPos = 2 by omega, List.getElem?_set_self (by omega)] at hdigit
    exact absurd (Option.some.inj hdigit) (by decide)

/-- The last byte of a sequence, once it is stored behind the others. -/
theorem escape_drawn {t : State} (hstate : s.escState = .bracket)
    (hlen : s.escPos < s.escBuf.length)
    (ht : t = { s with escBuf := s.escBuf.set s.escPos c, escPos := s.escPos + 1 })
    (h : shellHandleEscape t c = some s') : Drawn s s' (redrawAt s c) := by
  have hsame : ∀ {at' : Option Nat}, Drawn t s' at' → Drawn s s' at' := fun hd => by
    unfold Drawn at *
    rwa [ht] at hd
  simp only [redrawAt, hstate]
  by_cases h65 : c = 65
  · subst h65 ht
    exact hsame (up_drawn h)
  rw [if_neg h65]
  by_cases h66 : c = 66
  · subst h66 ht
    exact hsame (down_drawn h)
  rw [if_neg h66]
  by_cases htilde : c = tilde
  · subst htilde ht
    have hiff := and_congr_left' (c := s.cmdPos < s.cmdLen) (delete_stored hlen)
    rw [and_assoc, and_assoc] at hiff
    have hdelete := hsame (tilde_drawn h)
    simp only [hiff] at hdelete
    exact hdelete
  · simp only [if_neg htilde]
    subst ht
    exact hsame (letter_drawn h65 h66 htilde h)

/-- Nothing is drawn again. -/
def NoRedraw (log : List Output) : Prop := ∀ o ∈ log, ∀ line pos, o ≠ .redraw line pos

theorem noRedraw_say {o : Output} (h : NoRedraw s.log) (ho : ∀ line pos, o ≠ .redraw line pos) :
    NoRedraw (s.say o).log := by
  intro o' ho'
  obtain ho' | ho' := List.mem_append.mp ho'
  · exact h o' ho'
  · rw [List.mem_singleton] at ho'
    exact ho' ▸ ho

theorem addHistory_log {cmd : Bytes} (h : shellAddHistory s cmd = some s') : s'.log = s.log := by
  unfold shellAddHistory at h
  obtain ⟨last, -, h⟩ := Option.bind_eq_some_iff.mp h
  split at h
  · cases h
    rfl
  split at h
  · obtain ⟨history, -, hs⟩ := Option.bind_eq_some_iff.mp h
    cases hs
    rfl
  · cases h

theorem enter_noRedraw (hlog : NoRedraw s.log) (h : enterLine s = some s') : NoRedraw s'.log := by
  unfold enterLine at h
  obtain ⟨s₁, hrun, hs⟩ := Option.bind_eq_some_iff.mp h
  cases hs
  have hsay : NoRedraw (s.say (.print [10])).log := noRedraw_say hlog (fun _ _ heq => by cases heq)
  have hline : NoRedraw s₁.log := by
    unfold runLine at hrun
    split at hrun
    · obtain ⟨cells, -, hrun⟩ := Option.bind_eq_some_iff.mp hrun
      obtain ⟨cmd, -, hrun⟩ := Option.bind_eq_some_iff.mp hrun
      obtain ⟨s₂, hadd, hs⟩ := Option.bind_eq_some_iff.mp hrun
      cases hs
      have hadded : s₂.log = (s.say (.print [10])).log := (addHistory_log hadd :)
      exact noRedraw_say (hadded ▸ hsay) (fun _ _ heq => by cases heq)
    · cases hrun
      exact hsay
  exact noRedraw_say hline (fun _ _ heq => by cases heq)

theorem storeEscape_eq (h : storeEscape s c = some s') : s.escPos < s.escBuf.length ∧
    s' = { s with escBuf := s.escBuf.set s.escPos c, escPos := s.escPos + 1 } := by
  unfold storeEscape Base.setAt at h
  split at h
  · rename_i hlen
    cases h
    exact ⟨hlen, rfl⟩
  · cases h

/-- **What a byte prints**: the line is drawn again at that place, or no line is. -/
theorem feed_drawn (h : shellFeedChar s c = some s') :
    Drawn s s' (redrawAt s c) ∨ (redrawAt s c = none ∧ (NoRedraw s.log → NoRedraw s'.log)) := by
  unfold shellFeedChar at h
  cases hstate : s.escState with
  | none =>
    simp only [hstate, feedPlain] at h
    simp only [redrawAt, hstate]
    by_cases hesc : c = esc
    · rw [if_pos hesc] at h
      have hlog : s'.log = s.log := by rw [(storeEscape_eq h).2]
      refine .inr ⟨?_, fun hno => hlog ▸ hno⟩
      rw [hesc]
      rfl
    rw [if_neg hesc] at h
    by_cases henter : c = 10
    · rw [if_pos henter] at h
      refine .inr ⟨?_, fun hno => enter_noRedraw hno h⟩
      rw [henter]
      rfl
    rw [if_neg henter] at h
    by_cases hback : c = 8 ∨ c = 127
    · rw [if_pos hback] at h ⊢
      exact .inl (eraseBefore_drawn h)
    rw [if_neg hback] at h ⊢
    by_cases hprint : 32 ≤ c ∧ c ≤ 126
    · rw [if_pos hprint] at h ⊢
      exact .inl (insert_drawn h)
    · rw [if_neg hprint] at h ⊢
      cases h
      exact .inl rfl
  | start =>
    simp only [hstate] at h
    simp only [redrawAt, hstate]
    obtain ⟨s₁, hstore, h⟩ := Option.bind_eq_some_iff.mp h
    have hlog : s₁.log = s.log := by rw [(storeEscape_eq hstore).2]
    split at h <;> cases h <;> exact .inl hlog
  | bracket =>
    simp only [hstate] at h
    obtain ⟨s₁, hstore, h⟩ := Option.bind_eq_some_iff.mp h
    obtain ⟨hlen, heq⟩ := storeEscape_eq hstore
    by_cases hfinal : (isFinalLetter c || c == tilde) = true
    · rw [if_pos hfinal] at h
      obtain ⟨s₂, hact, hs⟩ := Option.bind_eq_some_iff.mp h
      cases hs
      have hdrawn := escape_drawn hstate hlen (heq.trans (by rw [hstate])) hact
      exact .inl hdrawn
    · rw [if_neg hfinal] at h
      have hlog : s₁.log = s.log := by rw [heq]
      have hnone : redrawAt s c = none := by
        have hno : ∀ d : UInt8, (isFinalLetter d || d == tilde) = true → c ≠ d :=
          fun d hd hcd => hfinal (hcd ▸ hd)
        simp only [redrawAt, hstate]
        rw [if_neg (hno 65 (by decide)), if_neg (hno 66 (by decide)), if_neg (hno 67 (by decide)),
          if_neg (hno 68 (by decide)), if_neg (hno 72 (by decide)), if_neg (hno 70 (by decide)),
          if_neg (hno tilde (by decide))]
      rw [hnone]
      split at h <;> cases h <;> exact .inl hlog

end

/-! ### Runs -/

section

variable {t t' : Terminal} {i : Input}

theorem onScreen_display (command : List Call) (log : List Output) {scr : Screen.State}
    (h : OnScreen scr) (hlog : NoRedraw log) : OnScreen (log.foldl (display command) scr) := by
  induction log generalizing scr with
  | nil => exact h
  | cons o log ih =>
    refine ih ?_ (fun o' ho' => hlog o' (List.mem_cons_of_mem _ ho'))
    cases o with
    | print text => exact h.vprint text
    | redraw line pos => exact absurd rfl (hlog _ List.mem_cons_self line pos)
    | process line => exact onScreen_command h command

/-- **A step**: the cursor stays on the screen just when the place for it does. -/
theorem Terminal.feed_onScreen (h : OnScreen t.screen) (hf : t.feed i = some t') :
    OnScreen t'.screen ↔ Fits t i.char := by
  unfold Terminal.feed at hf
  obtain ⟨shell, hshell, ht⟩ := Option.bind_eq_some_iff.mp hf
  cases ht
  have hat : redrawAt t.shell.quiet i.char = redrawAt t.shell i.char := rfl
  have hstart : NoRedraw t.shell.quiet.log := fun o ho => by cases ho
  have hquiet : ∀ {log : List Output}, NoRedraw log → redrawAt t.shell i.char = none →
      (OnScreen (log.foldl (display i.command) t.screen) ↔ Fits t i.char) := by
    intro log hlog hnone
    refine ⟨fun _ pos hpos => ?_, fun _ => onScreen_display i.command log h hlog⟩
    rw [hnone] at hpos
    cases hpos
  obtain hdrawn | ⟨hnone, hno⟩ := feed_drawn hshell
  · rw [hat] at hdrawn
    cases hredraw : redrawAt t.shell i.char with
    | none =>
      rw [hredraw] at hdrawn
      exact hquiet (hdrawn ▸ hstart) hredraw
    | some pos =>
      rw [hredraw] at hdrawn
      obtain ⟨line, hlog⟩ := hdrawn
      have hscreen :
          shell.log.foldl (display i.command) t.screen = redrawLine t.screen line pos := by
        rw [hlog]
        rfl
      show OnScreen (shell.log.foldl (display i.command) t.screen) ↔ _
      rw [hscreen, onScreen_redraw h line pos]
      unfold Fits
      rw [hredraw]
      exact ⟨fun hlt _ heq => by cases heq; exact hlt, fun hall => hall pos rfl⟩
  · exact hquiet (hno hstart) hnone

theorem Ready.quiet {s : State} (h : Ready s) : Ready s.quiet := by
  obtain ⟨e, he⟩ := h.refines
  have hpend : Pending s.quiet e.pending :=
    ⟨he.pending.state, he.pending.length, he.pending.pos, he.pending.bytes, he.pending.short⟩
  exact ⟨⟨{ e with entered := [] }, he.holds.same rfl rfl rfl, hpend, he.rows, rfl⟩, h.fit⟩

theorem Terminal.feed_ready (h : Ready t.shell) (i : Input) : ∃ t', t.feed i = some t' ∧
    Ready t'.shell := by
  obtain ⟨shell, hshell, hready⟩ := h.quiet.feed i.char
  refine ⟨⟨shell, shell.log.foldl (display i.command) t.screen⟩, ?_, hready⟩
  unfold Terminal.feed
  rw [hshell]
  rfl

theorem onScreen_start (scr : Screen.State) : OnScreen (start scr).screen :=
  (Screen.onScreen_clear (s := { scr with touched := [] }) (fun i hi => by cases hi)).vprint banner

theorem Terminal.onScreen_iff (h : OnScreen t.screen) (hready : Ready t.shell) (l : List Input) :
    (∀ pre post, l = pre ++ post → ∃ t', t.feedAll pre = some t' ∧ OnScreen t'.screen) ↔
      ∀ pre i post t', l = pre ++ i :: post → t.feedAll pre = some t' → Fits t' i.char := by
  induction l generalizing t with
  | nil =>
    refine ⟨fun _ pre i post _ hl => ?_, fun _ pre post hl => ?_⟩
    · exact absurd hl.symm (by simp)
    · obtain ⟨rfl, -⟩ := List.append_eq_nil_iff.mp hl.symm
      exact ⟨t, rfl, h⟩
  | cons i l ih =>
    obtain ⟨t₁, hf, hready₁⟩ := Terminal.feed_ready hready i
    have hstep : ∀ pre, t.feedAll (i :: pre) = t₁.feedAll pre := by
      intro pre
      show (t.feed i >>= fun t => t.feedAll pre) = _
      rw [hf]
      rfl
    have hon := Terminal.feed_onScreen h hf
    constructor
    · intro hall
      obtain ⟨t₂, ht₂, hon₁⟩ := hall [i] l rfl
      rw [hstep] at ht₂
      cases ht₂
      have hrest := (ih hon₁ hready₁).mp fun pre post hl => by
        obtain ⟨t', ht', hon'⟩ := hall (i :: pre) post (by rw [hl]; rfl)
        exact ⟨t', hstep pre ▸ ht', hon'⟩
      intro pre j post t' hl ht'
      cases pre with
      | nil =>
        cases ht'
        cases hl
        exact hon.mp hon₁
      | cons k pre =>
        cases hl
        exact hrest pre j post t' rfl (hstep pre ▸ ht')
    · intro hall
      have hon₁ : OnScreen t₁.screen := hon.mpr (hall [] i l t rfl rfl)
      have hrest := (ih hon₁ hready₁).mpr fun pre j post t' hl ht' =>
        hall (i :: pre) j post t' (by rw [hl]; rfl) ((hstep pre).trans ht')
      intro pre post hl
      cases pre with
      | nil => exact ⟨t, rfl, h⟩
      | cons k pre =>
        cases hl
        obtain ⟨t', ht', hon'⟩ := hrest pre post rfl
        exact ⟨t', (hstep pre).trans ht', hon'⟩

/-- **The cursor stays on the screen, and everything that is written is inside the video memory**,
after every character of a run from `shell_init`, just when every line that is drawn again has room
for its cursor. -/
theorem on_screen_iff (scr : Screen.State) (l : List Input) :
    (∀ pre post, l = pre ++ post → ∃ t, (start scr).feedAll pre = some t ∧ OnScreen t.screen) ↔
      ∀ pre i post t, l = pre ++ i :: post → (start scr).feedAll pre = some t → Fits t i.char :=
  Terminal.onScreen_iff (onScreen_start scr) ready_init l

/-! ### A line too long for the last row -/

theorem feed_enter (h : OnScreen t.screen) (hshell : t.shell.quiet = shellInit) :
    ∃ t', t.feed ⟨10, []⟩ = some t' ∧ OnScreen t'.screen ∧ t'.shell.quiet = shellInit ∧
      t'.screen.cursorRow = min (t.screen.cursorRow + 1) (screenHeight - 1) := by
  have hnewline := h.cprint 10
  obtain ⟨hrow, hcol⟩ := Screen.cprint_newline h
  obtain ⟨hrow₁, hcol₁⟩ :=
    Screen.cprint_char (c := 62) hnewline (by decide) (by decide) (by rw [hcol]; decide)
  obtain ⟨hrow₂, -⟩ := Screen.cprint_char (c := 32) (hnewline.cprint 62) (by decide) (by decide)
    (by rw [hcol₁, hcol]; decide)
  refine ⟨⟨{ shellInit with log := [.print [10], .print prompt] },
    Screen.cprint (Screen.cprint (Screen.cprint t.screen 10) 62) 32⟩, ?_,
      (hnewline.cprint 62).cprint 32, rfl, ?_⟩
  · unfold Terminal.feed
    rw [hshell]
    rfl
  · show (Screen.cprint (Screen.cprint (Screen.cprint t.screen 10) 62) 32).cursorRow = _
    rw [hrow₂, hrow₁, hrow]

theorem feed_enters (n : Nat) {t : Terminal} (h : OnScreen t.screen)
    (hshell : t.shell.quiet = shellInit) :
    ∃ t', t.feedAll (List.replicate n ⟨10, []⟩) = some t' ∧ OnScreen t'.screen ∧
      t'.shell.quiet = shellInit ∧
      min (t.screen.cursorRow + n) (screenHeight - 1) ≤ t'.screen.cursorRow := by
  induction n generalizing t with
  | zero => exact ⟨t, rfl, h, hshell, Nat.min_le_left _ _⟩
  | succ n ih =>
    obtain ⟨t₁, hf, h₁, hshell₁, hrow₁⟩ := feed_enter h hshell
    obtain ⟨t', hl, h', hshell', hrow'⟩ := ih h₁ hshell₁
    refine ⟨t', ?_, h', hshell', by omega⟩
    rw [List.replicate_succ, Terminal.feedAll, hf]
    exact hl

/-- What holds after `n` letters `a`. -/
structure Letters (t : Terminal) (n : Nat) : Prop where
  refines : ∃ e, Refines t.shell.quiet e ∧ e.line = ⟨List.replicate n 97, n⟩ ∧ e.pending = none

theorem Letters.redrawAt {n : Nat} (h : Letters t n) (hn : n < 255) :
    redrawAt t.shell 97 = some (n + 1) := by
  obtain ⟨e, he, hline, hpending⟩ := h.refines
  have hstate : t.shell.escState = .none := he.pending.state.trans (by rw [hpending]; rfl)
  have hlen : t.shell.cmdLen = n := he.holds.len.trans (by rw [hline]; exact List.length_replicate)
  have hpos : t.shell.cmdPos = n := he.holds.pos.trans (by rw [hline])
  simp only [Shell.redrawAt, hstate]
  rw [if_neg (by decide), if_pos (by decide), hlen, hpos, if_neg (by unfold maxCmdLen; omega)]

theorem Letters.feed {n : Nat} (h : Letters t n) (hn : n < 255) :
    ∃ t', t.feed ⟨97, []⟩ = some t' ∧ Letters t' (n + 1) ∧
      t'.screen.cursorRow = (t.screen.cursorRow * screenWidth + (prompt.length + (n + 1))) /
        screenWidth := by
  obtain ⟨e, he, hline, hpending⟩ := h.refines
  obtain ⟨s', hs, he'⟩ := he.feed (c := 97) (fun b params hp => by rw [hpending] at hp; cases hp)
  have hlog : ∃ line, s'.log = [.redraw line (n + 1)] := by
    have hat : Shell.redrawAt t.shell.quiet 97 = some (n + 1) := h.redrawAt hn
    obtain hdrawn | ⟨hnone, -⟩ := feed_drawn hs
    · rw [hat] at hdrawn
      exact hdrawn
    · rw [hat] at hnone
      cases hnone
  obtain ⟨line, hlog⟩ := hlog
  have hnext : e.feed codeAct 97 =
      { e with line := ⟨List.replicate (n + 1) 97, n + 1⟩, pending := none } := by
    have hins : e.line.insert 97 = ⟨List.replicate (n + 1) 97, n + 1⟩ := by
      have hend : (List.replicate n (97 : UInt8)).insertIdx n 97 = List.replicate n 97 ++ [97] := by
        have := insertIdx_mid (c := 97) (List.replicate n 97) []
        rwa [List.append_nil, List.length_replicate] at this
      unfold Line.insert
      rw [hline, List.length_replicate, if_pos hn, hend, List.replicate_succ']
    simp only [Editor.feed, hpending, Editor.key]
    rw [if_neg (by decide), if_neg (by decide), if_pos (by decide), hins]
    rfl
  refine ⟨⟨s', s'.log.foldl (display []) t.screen⟩, ?_,
    ⟨⟨{ e.feed codeAct 97 with entered := [] }, ?_, ?_, ?_⟩⟩, ?_⟩
  · unfold Terminal.feed
    rw [hs]
    rfl
  · have hpend : Pending s'.quiet (e.feed codeAct 97).pending :=
      ⟨he'.pending.state, he'.pending.length, he'.pending.pos, he'.pending.bytes, he'.pending.short⟩
    exact ⟨he'.holds.same rfl rfl rfl, hpend, he'.rows, rfl⟩
  · rw [hnext]
  · rw [hnext]
  · rw [hlog]
    exact (Screen.setCursorPosition_cursor _ _ _).1

theorem Letters.feedAll : ∀ (m : Nat) {n : Nat} {t : Terminal}, Letters t n → n + m ≤ 77 →
    t.screen.cursorRow = screenHeight - 1 →
    ∃ t', t.feedAll (List.replicate m ⟨97, []⟩) = some t' ∧ Letters t' (n + m) ∧
      t'.screen.cursorRow = screenHeight - 1 := by
  intro m
  induction m with
  | zero => exact fun h _ hrow => ⟨_, rfl, h, hrow⟩
  | succ m ih =>
    intro n t h hm hrow
    obtain ⟨t₁, hf, h₁, hrow₁⟩ := h.feed (by omega)
    have hlast : t₁.screen.cursorRow = screenHeight - 1 := by
      have hlen : prompt.length = 2 := rfl
      rw [hrow₁, hrow, hlen]
      unfold screenHeight screenWidth
      omega
    obtain ⟨t', hl, h', hrow'⟩ := ih h₁ (by omega) hlast
    refine ⟨t', ?_, by rwa [show n + (m + 1) = n + 1 + m by omega], hrow'⟩
    rw [List.replicate_succ, Terminal.feedAll, hf]
    exact hl

theorem Terminal.feedAll_append (l l' : List Input) {t₁ t₂ : Terminal} (h : t.feedAll l = some t₁)
    (h' : t₁.feedAll l' = some t₂) : t.feedAll (l ++ l') = some t₂ := by
  induction l generalizing t with
  | nil =>
    cases h
    exact h'
  | cons i l ih =>
    obtain ⟨t₀, hf, h⟩ := Option.bind_eq_some_iff.mp h
    show (t.feed i >>= fun t => t.feedAll (l ++ l')) = _
    rw [hf]
    exact ih h

/-- `Enter` until the cursor is in the last row, and 78 letters. -/
def longLine : List Input :=
  List.replicate 24 ⟨10, []⟩ ++ (List.replicate 77 ⟨97, []⟩ ++ [⟨97, []⟩])

/-- The last letter of `longLine` puts the cursor into the row below the screen. -/
theorem cursor_leaves (scr : Screen.State) :
    ∃ t, (start scr).feedAll longLine = some t ∧ t.screen.cursorRow = screenHeight := by
  obtain ⟨t₁, h₁, hon, hshell, hrow⟩ := feed_enters 24 (onScreen_start scr) rfl
  have hlast : t₁.screen.cursorRow = screenHeight - 1 := by
    have hlt := hon.row
    unfold screenHeight at *
    omega
  have hletters : Letters t₁ 0 := ⟨⟨⟨⟨[], 0⟩, none, []⟩, hshell ▸ refines_init, rfl, rfl⟩⟩
  obtain ⟨t₂, h₂, hl₂, hrow₂⟩ := hletters.feedAll 77 (Nat.le_refl _) hlast
  obtain ⟨t₃, hf, -, hrow₃⟩ := hl₂.feed (by decide)
  refine ⟨t₃, Terminal.feedAll_append _ _ h₁ (Terminal.feedAll_append _ _ h₂ ?_), ?_⟩
  · rw [Terminal.feedAll, hf]
    rfl
  · rw [hrow₃, hrow₂]
    rfl

/-- A black screen. -/
def blackScreen : Screen.State where
  video := fun _ => Screen.vgaEntry 32 15
  colors := 15
  cursorRow := 0
  cursorCol := 0
  touched := []
  ports := []

/-- **The cursor leaves the screen.** -/
theorem cursor_off_screen : ¬ ∀ pre post, longLine = pre ++ post →
    ∃ t, (start blackScreen).feedAll pre = some t ∧ OnScreen t.screen := by
  intro hall
  obtain ⟨t, ht, hrow⟩ := cursor_leaves blackScreen
  obtain ⟨t', ht', hon⟩ := hall longLine [] (List.append_nil _).symm
  cases ht.symm.trans ht'
  have hlt := hon.row
  omega

end

end CobraOS.Shell
