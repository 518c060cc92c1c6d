import CobraOS.Snake.Render

/-!
# The prompt for a file name, `editor_prompt_filename` in `arch/x86/snake/snake.c`

The prompt draws each character when it is typed and a space when it is deleted.  It does not look
at the end of the row: what is typed behind the last column is in the name but not on the screen,
and the cursor goes on in the rows below (`prompt_shows`).
-/

namespace CobraOS.Snake

open Base
open Screen (Bytes vgaEntry setCursorPosition screenHeight)

/-! ### The program -/

/-- `"Open file: "` -/
def promptText : Bytes := [79, 112, 101, 110, 32, 102, 105, 108, 101, 58, 32]

def promptScreen (s : Screen.State) : Screen.State :=
  setCursorPosition (screenPrintString (screenClear s) 0 0 0x0F promptText) 11 0

/-- The name in the buffer and the screen. -/
structure Prompt where
  buf : Bytes
  screen : Screen.State

/-- `KEY_BACKSPACE` -/
def Prompt.erase (p : Prompt) : Prompt :=
  if 0 < p.buf.length then
    let pos := p.buf.length - 1
    ⟨p.buf.dropLast, setCursorPosition (screenPutc p.screen (11 + pos : Nat) 0 32 0x0F)
      (11 + pos) 0⟩
  else p

/-- `KEY_CHAR` -/
def Prompt.type (bufSize : Nat) (p : Prompt) (c : UInt8) : Prompt :=
  if 32 ≤ c ∧ c < 127 ∧ p.buf.length < bufSize - 1 then
    let pos := p.buf.length + 1
    ⟨p.buf ++ [c], setCursorPosition (screenPutc p.screen (11 + pos - 1 : Nat) 0 c 0x0F)
      (11 + pos) 0⟩
  else p

/-- An event that does not end the prompt. -/
def promptStep (bufSize : Nat) (p : Prompt) : KeyEvent → Prompt
  | .special .backspace => p.erase
  | .special _ => p
  | .char c => p.type bufSize c

/-- The loop of `editor_prompt_filename`, with what it draws. -/
def promptDrawn (bufSize : Nat) : Prompt → List KeyEvent →
    Option (Option Bytes × List KeyEvent × Screen.State)
  | _, [] => none
  | p, .special .enter :: events =>
    some (if 0 < p.buf.length then some p.buf else none, events, p.screen)
  | p, .special .esc :: events => some (none, events, p.screen)
  | p, e :: events => promptDrawn bufSize (promptStep bufSize p e) events

/-- The events that end the prompt. -/
def KeyEvent.Ends (e : KeyEvent) : Prop := e = .special .enter ∨ e = .special .esc

/-- The prompt between two keys. -/
def prompting : System Prompt KeyEvent where
  init p := ∃ s, Inside s ∧ p = ⟨[], promptScreen s⟩
  step p e p' := ¬ e.Ends ∧ p' = promptStep maxPathLen p e

/-! ### Names -/

theorem Prompt.erase_buf (p : Prompt) : p.erase.buf = p.buf.dropLast := by
  unfold Prompt.erase
  split
  · rfl
  · next h =>
    rw [List.length_pos_iff, not_not] at h
    rw [h]
    rfl

theorem Prompt.type_buf (bufSize : Nat) (p : Prompt) (c : UInt8) : (p.type bufSize c).buf =
    if 32 ≤ c ∧ c < 127 ∧ p.buf.length < bufSize - 1 then p.buf ++ [c] else p.buf := by
  unfold Prompt.type
  split <;> rfl

theorem promptDrawn_name (bufSize : Nat) : ∀ (events : List KeyEvent) (p : Prompt),
    (promptDrawn bufSize p events).map (fun r => (r.1, r.2.1)) =
      promptLoop bufSize p.buf events := by
  intro events
  induction events with
  | nil => exact fun _ => rfl
  | cons e events ih =>
    intro p
    cases e with
    | char c =>
      show (promptDrawn bufSize (p.type bufSize c) events).map _ = _
      rw [ih, Prompt.type_buf]
      rfl
    | special key =>
      cases key with
      | enter => rfl
      | esc => rfl
      | backspace =>
        show (promptDrawn bufSize p.erase events).map _ = _
        rw [ih, Prompt.erase_buf]
        rfl
      | _ => exact ih p

/-! ### The screen -/

/-- **The prompt is on the screen**: its row shows the text and the name as far as they fit, the
other rows are blank, and the cursor is behind the name, also the one of the controller. -/
structure Prompt.Shown (p : Prompt) : Prop where
  row : ∀ col < screenWidth, ∃ attr, cell p.screen 0 col =
    vgaEntry (((promptText ++ p.buf)[col]?).getD 32) attr ∧
    (col < (promptText ++ p.buf).length → attr = 0x0F)
  blank : ∀ row < screenHeight, 0 < row → ∀ col < screenWidth, cell p.screen row col =
    vgaEntry 32 0x07
  cursor : p.screen.cursorRow * screenWidth + p.screen.cursorCol = (promptText ++ p.buf).length ∧
    p.screen.cursorCol < screenWidth
  hardware : p.screen.hardwareCursor = (promptText ++ p.buf).length
  name : p.buf.length < maxPathLen ∧ ∀ c ∈ p.buf, 32 ≤ c ∧ c < 127
  inside : Inside p.screen

section

variable {p : Prompt} {s s' : Screen.State} {text : Bytes} {c : UInt8}

/-- The row of the prompt. -/
def RowShows (s : Screen.State) (text : Bytes) : Prop :=
  ∀ col < screenWidth, ∃ attr, cell s 0 col = vgaEntry ((text[col]?).getD 32) attr ∧
    (col < text.length → attr = 0x0F)

/-- A character is drawn into the row of the prompt, and the cursor is moved. -/
theorem drawn_top (s : Screen.State) (x i : Nat) (c : UInt8) :
    Drawn s (setCursorPosition (screenPutc s x 0 c 0x0F) i 0) 0 x 0x0F [c] := by
  have hd : Drawn s (screenPutc s x (0 : Nat) c 0x0F) 0 x 0x0F [c] := screenPutc_drawn (by decide)
  rw [Nat.cast_zero] at hd
  exact hd.setCursor i 0

theorem RowShows.type (h : RowShows s text) (hd : Drawn s s' 0 text.length 0x0F [c]) :
    RowShows s' (text ++ [c]) := by
  intro col hcol
  obtain ⟨attr, hcell, hattr⟩ := h col hcol
  rw [hd.cells 0 (by decide) col hcol]
  obtain hlt | rfl | hgt := Nat.lt_trichotomy col text.length
  · rw [if_neg (by omega), List.getElem?_append_left hlt]
    exact ⟨attr, hcell, fun _ => hattr hlt⟩
  · rw [if_pos ⟨rfl, le_rfl⟩, Nat.sub_self, List.getElem?_concat_length]
    exact ⟨0x0F, rfl, fun _ => rfl⟩
  · have hlen : (text ++ [c]).length ≤ col := by
      rw [List.length_append, List.length_singleton]
      exact hgt
    rw [if_pos ⟨rfl, hgt.le⟩,
      List.getElem?_eq_none (l := [c]) (by rw [List.length_singleton]; omega),
      List.getElem?_eq_none hlen]
    rw [List.getElem?_eq_none hgt.le] at hcell
    exact ⟨attr, hcell, fun hlt => absurd hlt (Nat.not_lt.mpr hlen)⟩

theorem RowShows.erase (h : RowShows s (text ++ [c])) (hd : Drawn s s' 0 text.length 0x0F [32]) :
    RowShows s' text := by
  intro col hcol
  obtain ⟨attr, hcell, hattr⟩ := h col hcol
  have hlen : (text ++ [c]).length = text.length + 1 := List.length_append
  rw [hd.cells 0 (by decide) col hcol]
  obtain hlt | rfl | hgt := Nat.lt_trichotomy col text.length
  · rw [List.getElem?_append_left hlt] at hcell
    rw [if_neg (by omega)]
    exact ⟨attr, hcell, fun _ => hattr (by omega)⟩
  · rw [if_pos ⟨rfl, le_rfl⟩, Nat.sub_self, List.getElem?_eq_none (Nat.le_refl _)]
    exact ⟨0x0F, rfl, fun h => absurd h (Nat.lt_irrefl _)⟩
  · rw [if_pos ⟨rfl, hgt.le⟩,
      List.getElem?_eq_none (l := [32]) (by rw [List.length_singleton]; omega),
      List.getElem?_eq_none hgt.le]
    rw [List.getElem?_eq_none (by omega)] at hcell
    exact ⟨attr, hcell, fun hlt => absurd hlt (Nat.not_lt.mpr hgt.le)⟩

theorem cursor_behind (s : Screen.State) (x : Nat) :
    (setCursorPosition s x 0).cursorRow * screenWidth + (setCursorPosition s x 0).cursorCol = x ∧
      (setCursorPosition s x 0).cursorCol < screenWidth := by
  obtain ⟨hrow, hcol⟩ := Screen.setCursorPosition_cursor s x 0
  rw [hrow, hcol, Nat.zero_mul, Nat.zero_add]
  exact ⟨Nat.div_add_mod' x 80, Nat.mod_lt _ (by decide)⟩

theorem hardware_behind (s : Screen.State) {x : Nat} (h : x < 65536) :
    (setCursorPosition s x 0).hardwareCursor = x := by
  rw [Screen.setCursorPosition_hardware s (by rwa [Nat.zero_mul, Nat.zero_add]), Nat.zero_mul,
    Nat.zero_add]

theorem Prompt.shown_init (hs : Inside s) : Prompt.Shown ⟨[], promptScreen s⟩ := by
  have hclear := screenClear_inside hs
  have hblank : ∀ row < screenHeight, ∀ col < screenWidth, cell (screenClear s) row col =
      vgaEntry 32 0x07 :=
    fun row hrow col hcol => screenClear_cell hrow hcol
  unfold promptScreen
  generalize screenClear s = t at hclear hblank
  have hprint :
      Drawn t (screenPrintString t (0 : Nat) (0 : Nat) 0x0F promptText) 0 0 0x0F promptText :=
    screenPrintString_drawn (by decide)
  rw [Nat.cast_zero] at hprint
  have hd := hprint.setCursor 11 0
  refine ⟨fun col hcol => ?_, fun row hr hrow col hcol => ?_, cursor_behind _ _,
    hardware_behind _ (by decide),
    ⟨show 0 < maxPathLen by decide, List.forall_mem_nil _⟩, hd.inside hclear⟩
  · have hcell := hd.cells 0 (by decide) col hcol
    rw [if_pos ⟨rfl, Nat.zero_le _⟩, hblank 0 (by decide) col hcol, Nat.sub_zero] at hcell
    rw [List.append_nil, hcell]
    obtain hlt | hge := Nat.lt_or_ge col promptText.length
    · rw [List.getElem?_eq_getElem hlt]
      exact ⟨0x0F, rfl, fun _ => rfl⟩
    · rw [List.getElem?_eq_none hge]
      exact ⟨0x07, rfl, fun hlt => absurd hlt (Nat.not_lt.mpr hge)⟩
  · have hcell := hd.cells row hr col hcol
    rw [if_neg (by omega), hblank row hr col hcol] at hcell
    exact hcell

theorem Prompt.Shown.erase (h : p.Shown) : p.erase.Shown := by
  unfold Prompt.erase
  split
  · next hpos =>
    obtain ⟨init, c, hbuf⟩ :=
      (List.eq_nil_or_concat' p.buf).resolve_left (List.length_pos_iff.mp hpos)
    obtain ⟨buf, screen⟩ := p
    obtain rfl : buf = init ++ [c] := hbuf
    have hlen : (init ++ [c]).length - 1 = init.length := by
      rw [List.length_append, List.length_singleton, Nat.add_sub_cancel]
    have htext : (promptText ++ init).length = 11 + init.length := List.length_append
    have hd := drawn_top screen (11 + init.length) (11 + init.length) 32
    have hrow : RowShows screen ((promptText ++ init) ++ [c]) :=
      List.append_assoc promptText init [c] ▸ h.row
    dsimp only
    have hlt : (init ++ [c]).length < 256 := h.name.1
    rw [List.length_append] at hlt
    rw [hlen, List.dropLast_concat]
    refine ⟨hrow.erase (htext ▸ hd), fun row hr hrow col hcol => ?_, htext ▸ cursor_behind _ _,
      htext ▸ hardware_behind _ (by omega), ⟨?_, ?_⟩, hd.inside h.inside⟩
    · exact ((hd.cells row hr col hcol).trans (if_neg (by omega))).trans
        (h.blank row hr hrow col hcol)
    · exact (Nat.le_add_right ..).trans_lt hlt
    · exact fun d hd => h.name.2 d (List.mem_append_left _ hd)
  · exact h

theorem Prompt.Shown.type (h : p.Shown) (c : UInt8) : (p.type maxPathLen c).Shown := by
  unfold Prompt.type
  split
  · next hc =>
    obtain ⟨h32, h127, hroom⟩ := hc
    obtain ⟨buf, screen⟩ := p
    have htext : (promptText ++ buf).length = 11 + buf.length := List.length_append
    have hd := drawn_top screen (11 + buf.length) (11 + (buf.length + 1)) c
    have hrow : RowShows screen (promptText ++ buf) := h.row
    have hlt : buf.length < 256 := h.name.1
    refine ⟨List.append_assoc promptText buf [c] ▸ hrow.type (htext ▸ hd),
      fun row hr hrow col hcol => ?_, ?_, ?_, ⟨?_, ?_⟩, hd.inside h.inside⟩
    · exact ((hd.cells row hr col hcol).trans (if_neg (by omega))).trans
        (h.blank row hr hrow col hcol)
    · rw [← List.append_assoc, List.length_append, htext]
      exact cursor_behind _ _
    · rw [← List.append_assoc, List.length_append, htext]
      exact hardware_behind _ (show 11 + buf.length + 1 < 65536 by omega)
    · show (buf ++ [c]).length < maxPathLen
      rw [List.length_append, List.length_singleton]
      exact Nat.add_lt_of_lt_sub hroom
    · intro d hd
      obtain hd | hd := List.mem_append.mp hd
      · exact h.name.2 d hd
      · rw [List.mem_singleton.mp hd]
        exact ⟨h32, h127⟩
  · exact h

/-- **The prompt shows the name**, after any keys, and it is the name that the editor goes on
with. -/
theorem prompt_shows (h : prompting.Reach p) : p.Shown ∧ ∀ events,
    (promptDrawn maxPathLen p events).map (fun r => (r.1, r.2.1)) =
      promptLoop maxPathLen p.buf events := by
  refine ⟨h.induct (P := Prompt.Shown) ?_ ?_, fun events => promptDrawn_name maxPathLen events p⟩
  · rintro _ ⟨s, hs, rfl⟩
    exact Prompt.shown_init hs
  · rintro p e _ hp ⟨-, rfl⟩
    cases e with
    | char c => exact hp.type c
    | special key =>
      cases key with
      | backspace => exact hp.erase
      | _ => exact hp

end

/-- A letter was typed and deleted. -/
def deletedLetter (s : Screen.State) : Prompt :=
  promptStep maxPathLen (promptStep maxPathLen ⟨[], promptScreen s⟩ (.char 65))
    (.special .backspace)

theorem deletedLetter_reach {s : Screen.State} (hs : Inside s) :
    prompting.Reach (deletedLetter s) := by
  have hstart : prompting.Reach ⟨[], promptScreen s⟩ := .init ⟨s, hs, rfl⟩
  have htyped := hstart.step (e := .char 65) ⟨by unfold KeyEvent.Ends; decide, rfl⟩
  exact htyped.step (e := .special .backspace) ⟨by unfold KeyEvent.Ends; decide, rfl⟩

/-- A screen on which nothing was written. -/
def darkScreen : Screen.State := ⟨fun _ => 0, 0, 0, 0, [], []⟩

theorem prompt_shows_deletedLetter : (deletedLetter darkScreen).Shown ∧ ∀ events,
    (promptDrawn maxPathLen (deletedLetter darkScreen) events).map (fun r => (r.1, r.2.1)) =
      promptLoop maxPathLen (deletedLetter darkScreen).buf events :=
  prompt_shows
    (deletedLetter_reach (show Inside ⟨fun _ => 0, 0, 0, 0, [], []⟩ from List.forall_mem_nil _))

end CobraOS.Snake
