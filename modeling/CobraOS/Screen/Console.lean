import CobraOS.Base.Layout
import CobraOS.Lib.Memory
import CobraOS.Screen.Model

/-!
# What the screen shows

The screen shows a page, which is a list of rows of characters: every cell has the entry of its
character, and is blank where there is none, and the cursor is behind the last character (`Shows`).
A character that is printed goes on in the last row of the page, and the page may get one row too
long by it (`Shows.putChar`); then the screen is scrolled (`Shows.keepCursor`).

So the screen shows the last rows of everything that was printed since it was cleared
(`console_shows_tail`).
-/

namespace CobraOS.Screen

open Base

/-- The rows of a text: `'\\n'` starts a row, and so does a character in the last column. -/
def rows (text : Bytes) : List Bytes := layout screenWidth 10 text

/-- The entry of a cell, a space where the page has no character. -/
def pageEntry (color : UInt8) (page : List Bytes) (row col : Nat) : UInt16 :=
  vgaEntry (((page[row]?.getD [])[col]?).getD 32) color

/-- **The screen shows a page.** -/
structure Shows (s : State) (page : List Bytes) : Prop where
  cells : ∀ row < screenHeight, ∀ col < screenWidth,
    s.video (row * screenWidth + col) = pageEntry s.colors page row col
  row : s.cursorRow + 1 = page.length
  col : s.cursorCol = (page.getLast?.getD []).length

/-! ### Pages -/

section

variable {color c : UInt8} {page init : List Bytes} {last : Bytes} {row col : Nat}

theorem getElem?_behind {α : Type*} {l : List α} {a : α} {i : Nat} (h : l.length < i) :
    (l ++ [a])[i]? = none := by
  rw [List.getElem?_eq_none]
  rw [List.length_append, List.length_singleton]
  omega

theorem pageEntry_concat_nil :
    pageEntry color (page ++ [[]]) row col = pageEntry color page row col := by
  unfold pageEntry
  obtain hlt | heq | hgt := Nat.lt_trichotomy row page.length
  · rw [List.getElem?_append_left hlt]
  · rw [heq, List.getElem?_concat_length, List.getElem?_eq_none (Nat.le_refl _)]
    rfl
  · rw [getElem?_behind hgt, List.getElem?_eq_none (Nat.le_of_lt hgt)]

theorem pageEntry_here : pageEntry color (init ++ [last ++ [c]]) init.length last.length =
    vgaEntry c color := by
  unfold pageEntry
  rw [List.getElem?_concat_length, Option.getD_some, List.getElem?_concat_length, Option.getD_some]

theorem pageEntry_other (h : ¬ (row = init.length ∧ col = last.length)) :
    pageEntry color (init ++ [last ++ [c]]) row col = pageEntry color (init ++ [last]) row col := by
  unfold pageEntry
  obtain hlt | heq | hgt := Nat.lt_trichotomy row init.length
  · rw [List.getElem?_append_left hlt, List.getElem?_append_left hlt]
  · rw [heq, List.getElem?_concat_length, List.getElem?_concat_length, Option.getD_some,
      Option.getD_some]
    have hcol : col ≠ last.length := fun hc => h ⟨heq, hc⟩
    obtain hlt | hge := Nat.lt_or_ge col last.length
    · rw [List.getElem?_append_left hlt]
    · rw [List.getElem?_eq_none hge, getElem?_behind (Nat.lt_of_le_of_ne hge hcol.symm)]
  · rw [getElem?_behind hgt, getElem?_behind hgt]

end

/-! ### The video memory -/

section

variable {s : State}

theorem fill_video : ∀ {n i : Nat} {s : State} (j : Nat),
    (fill s i n).video j = (if i ≤ j ∧ j < i + n then s.blank else s.video j) ∧
      (fill s i n).colors = s.colors := by
  intro n
  induction n with
  | zero => exact fun {i s} j => ⟨by rw [if_neg (by omega)]; rfl, rfl⟩
  | succ n ih =>
    intro i s j
    obtain ⟨hvideo, hcolors⟩ := ih (i := i + 1) (s := s.poke i s.blank) j
    refine ⟨?_, hcolors⟩
    rw [fill, hvideo]
    by_cases hj : j = i
    · rw [if_neg (by omega), if_pos (by omega), hj]
      exact Function.update_self ..
    · have hold : (s.poke i s.blank).video j = s.video j := Function.update_of_ne hj ..
      rw [hold]
      by_cases hin : i + 1 ≤ j ∧ j < i + 1 + n
      · rw [if_pos hin, if_pos (by omega)]
        rfl
      · rw [if_neg hin, if_neg (by omega)]

/-- `VIDEO_MEMORY` -/
def videoMemory : Nat := 0xB8000

/-- The entry that the bytes of the video memory hold. -/
def videoEntry (m : Mem) (i : Nat) : UInt16 :=
  (m (videoMemory + 2 * i)).toUInt16 ||| (m (videoMemory + (2 * i + 1))).toUInt16 <<< 8

/-- **The rows are moved up by `memmove`**, from a range that overlaps the one they go to. -/
theorem moveRowsUp_memmove {m : Mem}
    (h : ∀ i < screenWidth * screenHeight, videoEntry m i = s.video i) :
    ∀ i < screenWidth * screenHeight,
      videoEntry (Lib.memmove m videoMemory (videoMemory + 2 * screenWidth)
      ((screenHeight - 1) * screenWidth * 2)).2 i = (moveRowsUp s).video i := by
  intro i hi
  have hmoved := Lib.memmove_moved m
    (show videoMemory + (screenHeight - 1) * screenWidth * 2 ≤ 4294967296 by decide)
    (show videoMemory + 2 * screenWidth + (screenHeight - 1) * screenWidth * 2 ≤
      4294967296 by decide)
  have hup : (moveRowsUp s).video i =
      if i < (screenHeight - 1) * screenWidth then s.video (i + screenWidth) else s.video i := rfl
  have hshift : ∀ k, videoMemory + 2 * screenWidth + k = videoMemory + (2 * screenWidth + k) :=
    fun k => by omega
  rw [hup]
  unfold videoEntry
  by_cases hlow : i < (screenHeight - 1) * screenWidth
  · have hsource := h (i + screenWidth) (by unfold screenHeight screenWidth at *; omega)
    unfold videoEntry at hsource
    rw [if_pos hlow, hmoved.copied (2 * i) (by omega), hmoved.copied (2 * i + 1) (by omega),
      hshift, hshift,
      ← hsource, show 2 * (i + screenWidth) = 2 * screenWidth + 2 * i by
        omega, Nat.add_assoc (2 * screenWidth)]
  · have hsource := h i hi
    unfold videoEntry at hsource
    rw [if_neg hlow, hmoved.kept _ (by omega), hmoved.kept _ (by omega), hsource]

theorem scroll_video (s : State) {row col : Nat} (hrow : row < screenHeight)
    (hcol : col < screenWidth) :
    (scroll s).video (row * screenWidth + col) =
      if row + 1 < screenHeight then s.video ((row + 1) * screenWidth + col) else s.blank := by
  have hscroll :
      (scroll s).video =
        (fill (moveRowsUp s) ((screenHeight - 1) * screenWidth) screenWidth).video := rfl
  have hup : (moveRowsUp s).video (row * screenWidth + col) =
      if row * screenWidth + col < (screenHeight - 1) * screenWidth then
        s.video (row * screenWidth + col + screenWidth) else s.video (row * screenWidth + col) :=
          rfl
  have hnext : (row + 1) * screenWidth + col = row * screenWidth + col + screenWidth := by
    rw [Nat.succ_mul]
    omega
  rw [hscroll, (fill_video _).1, hnext]
  unfold screenHeight screenWidth at *
  by_cases hlast : row + 1 < 25
  · rw [if_neg (by omega), if_pos hlast, hup, if_pos (by omega)]
  · rw [if_pos (by omega), if_neg hlast]
    rfl

theorem scroll_colors (s : State) : (scroll s).colors = s.colors := by
  unfold scroll
  dsimp only
  rw [(fill_video 0).2]
  rfl

theorem Shows.setCursorOffset {page : List Bytes} (h : Shows s page)
    (hcol : s.cursorCol < screenWidth) :
    Shows (setCursorOffset s (getOffset s.cursorCol s.cursorRow)) page := by
  obtain ⟨h1, h2⟩ := setCursorOffset_cursor s s.cursorRow hcol
  exact ⟨h.cells, h1.symm ▸ h.row, h2.symm ▸ h.col⟩

/-- **A cleared screen shows an empty row.** -/
theorem shows_clear (s : State) : Shows (clearScreen s) [[]] := by
  have hfill := fun j => fill_video (n := screenWidth * screenHeight) (i := 0) (s := s) j
  unfold clearScreen
  generalize fill s 0 (screenWidth * screenHeight) = t at hfill
  have hstart : Shows { t with cursorRow := 0, cursorCol := 0 } [[]] := by
    refine ⟨fun row hrow col hcol => ?_, rfl, rfl⟩
    have hlt := index_lt hrow hcol
    show t.video (row * screenWidth + col) = pageEntry t.colors [[]] row col
    rw [(hfill _).1, if_pos (by omega), (hfill 0).2, ← List.nil_append [[]], pageEntry_concat_nil]
    rfl
  exact hstart.setCursorOffset (show 0 < screenWidth by decide)

theorem Shows.cursorCol_eq {init : List Bytes} {last : Bytes} (h : Shows s (init ++ [last])) :
    s.cursorCol = last.length := by
  rw [h.col, List.getLast?_concat]
  rfl

theorem Shows.newRow {page : List Bytes} (h : Shows s page) :
    Shows { s with cursorRow := s.cursorRow + 1, cursorCol := 0 } (page ++ [[]]) := by
  refine ⟨fun row hrow col hcol => ?_, ?_, ?_⟩
  · rw [pageEntry_concat_nil]
    exact h.cells row hrow col hcol
  · rw [List.length_append, List.length_singleton, ← h.row]
  · rw [List.getLast?_concat]
    rfl

theorem Shows.push {init : List Bytes} {last : Bytes} (h : Shows s (init ++ [last]))
    (hlast : last.length < screenWidth) (c : UInt8) :
    Shows { s.pokeCursor (vgaEntry c s.colors) with cursorCol := s.cursorCol + 1 }
      (init ++ [last ++ [c]]) := by
  have hrow : s.cursorRow = init.length := by
    have hlen := h.row
    rw [List.length_append, List.length_singleton] at hlen
    omega
  have hcol := h.cursorCol_eq
  refine ⟨fun row hr col hc => ?_, ?_, ?_⟩
  · show Function.update s.video (s.cursorRow * screenWidth + s.cursorCol) (vgaEntry c s.colors)
      (row * screenWidth + col) = pageEntry s.colors (init ++ [last ++ [c]]) row col
    rw [hrow, hcol]
    by_cases hhere : row = init.length ∧ col = last.length
    · rw [hhere.1, hhere.2, Function.update_self, pageEntry_here]
    · have hne : row * screenWidth + col ≠ init.length * screenWidth + last.length := by
        unfold screenWidth at *
        omega
      rw [Function.update_of_ne hne, pageEntry_other hhere, h.cells row hr col hc]
  · rw [List.length_append, List.length_singleton, ← hrow]
    rfl
  · rw [List.getLast?_concat, Option.getD_some, List.length_append, List.length_singleton, ← hcol]

/-- **A character goes on in the last row of the page.** -/
theorem Shows.putChar {init : List Bytes} {last : Bytes} (h : Shows s (init ++ [last]))
    (hlast : last.length < screenWidth) {c : UInt8} (hback : c ≠ 8) :
    Shows (putChar s c) (init ++ rowsFrom screenWidth 10 last [c]) := by
  have hcol := h.cursorCol_eq
  unfold Screen.putChar
  rw [rowsFrom]
  by_cases hnewline : c = 10
  · rw [if_pos hnewline, if_pos hnewline, List.append_cons]
    exact h.newRow
  rw [if_neg hnewline, if_neg hnewline, if_neg hback]
  have hpush := h.push hlast c
  by_cases hroom : last.length + 1 < screenWidth
  · rw [if_pos hroom]
    dsimp only
    rw [if_neg (by show ¬ screenWidth ≤ s.cursorCol + 1; omega)]
    exact hpush
  · rw [if_neg hroom, List.append_cons]
    dsimp only
    rw [if_pos (by show screenWidth ≤ s.cursorCol + 1; omega)]
    exact hpush.newRow

theorem Shows.scroll {first : Bytes} {mid : List Bytes} (h : Shows s (first :: (mid ++ [[]])))
    (hlen : mid.length + 1 = screenHeight) :
    Shows { scroll s with cursorRow := screenHeight - 1 } (mid ++ [[]]) := by
  refine ⟨fun row hrow col hcol => ?_, ?_, ?_⟩
  · dsimp only
    rw [scroll_video s hrow hcol, scroll_colors]
    by_cases hlast : row + 1 < screenHeight
    · rw [if_pos hlast, h.cells (row + 1) hlast col hcol]
      rfl
    · have hnone : mid[row]? = none := List.getElem?_eq_none (by omega)
      rw [if_neg hlast, pageEntry_concat_nil, pageEntry, hnone]
      rfl
  · rw [List.length_append, List.length_singleton, hlen]
    rfl
  · rw [List.getLast?_concat]
    rfl

/-- **A page that got too long loses its first row.** -/
theorem Shows.keepCursor {page : List Bytes} (h : Shows s page)
    (hlen : page.length ≤ screenHeight + 1) (hcol : s.cursorCol < screenWidth)
    (hlast : screenHeight < page.length → ∃ init, page = init ++ [[]]) :
    Shows (keepCursor s) (page.rtake screenHeight) := by
  unfold Screen.keepCursor
  have hrow := h.row
  by_cases hlong : screenHeight < page.length
  · obtain ⟨init, rfl⟩ := hlast hlong
    obtain _ | ⟨first, mid⟩ := init
    · exact absurd hlong (by decide)
    rw [List.length_append, List.length_singleton] at *
    have hmid : mid.length + 1 = screenHeight := by
      rw [List.length_cons] at *
      omega
    have htake : ((first :: mid) ++ [[]]).rtake screenHeight = mid ++ [[]] := by
      rw [List.rtake, List.length_append, List.length_cons, hmid, List.length_singleton,
        Nat.add_sub_cancel_left]
      rfl
    have hbelow : screenHeight ≤ s.cursorRow := by omega
    have hstart : ¬ screenWidth ≤ (Screen.scroll s).cursorCol := show ¬ screenWidth ≤ 0 by decide
    simp only [if_pos hbelow, if_neg hstart, htake]
    exact h.scroll hmid
  · have htake : page.rtake screenHeight = page := by
      rw [List.rtake, Nat.sub_eq_zero_of_le (by omega), List.drop_zero]
    have hinside : ¬ screenHeight ≤ s.cursorRow := by omega
    simp only [if_neg hinside, if_neg (Nat.not_le.mpr hcol), htake]
    exact h

/-- What `cprint` does behind the character, when the page is not more than one row too long. -/
theorem Shows.settle {init : List Bytes} {last : Bytes} (h : Shows s (init ++ [last]))
    (hlast : last.length < screenWidth) (hlen : init.length ≤ screenHeight)
    (hfull : init.length = screenHeight → last = []) :
    Shows (Screen.setCursorOffset (Screen.keepCursor s)
      (getOffset (Screen.keepCursor s).cursorCol (Screen.keepCursor s).cursorRow))
      ((init ++ [last]).rtake screenHeight) := by
  have hcol : s.cursorCol < screenWidth := h.cursorCol_eq ▸ hlast
  have hpage : (init ++ [last]).length = init.length + 1 := by
    rw [List.length_append, List.length_singleton]
  have hkeep := h.keepCursor (by omega) hcol fun hlong => ⟨init, by rw [hfull (by omega)]⟩
  refine hkeep.setCursorOffset ?_
  have htake : (init ++ [last]).rtake screenHeight = init.rtake (screenHeight - 1) ++ [last] :=
    List.rtake_concat_succ ..
  rw [htake] at hkeep
  exact hkeep.cursorCol_eq ▸ hlast

/-- **One character.** -/
theorem Shows.cprint {init : List Bytes} {last : Bytes} (h : Shows s (init ++ [last]))
    (hlast : last.length < screenWidth) (hlen : init.length < screenHeight) {c : UInt8}
    (hback : c ≠ 8) :
    Shows (cprint s c) ((init ++ rowsFrom screenWidth 10 last [c]).rtake screenHeight) := by
  have hput := h.putChar hlast hback
  obtain ⟨hrows, hroom⟩ | ⟨full, hrows⟩ := rowsFrom_singleton screenWidth 10 last c
  · rw [hrows] at hput ⊢
    refine hput.settle ?_ hlen.le fun heq => absurd heq hlen.ne
    rwa [List.length_append, List.length_singleton]
  · rw [hrows, List.append_cons] at hput ⊢
    refine hput.settle (by decide) ?_ fun _ => rfl
    rw [List.length_append, List.length_singleton]
    exact hlen

/-- **A text.** -/
theorem Shows.vprint (h : Shows s [[]]) {text : Bytes} (hback : 8 ∉ text) :
    Shows (vprint s text) ((rows text).rtake screenHeight) := by
  induction text using List.reverseRecOn with
  | nil => exact h
  | append_singleton text c ih =>
    rw [List.mem_append, List.mem_singleton, not_or] at hback
    obtain ⟨init, last, hpage, hlast, hlen, hnext⟩ :=
      rtake_layout_concat (10 : UInt8) (show 0 < screenWidth by decide) 24 text
    have hshows := ih hback.1
    have hrun : Screen.vprint s (text ++ [c]) = Screen.cprint (Screen.vprint s text) c :=
      List.foldl_append ..
    rw [rows, show screenHeight = 24 + 1 from rfl, hpage] at hshows
    rw [hrun, rows, show screenHeight = 24 + 1 from rfl, hnext]
    exact hshows.cprint hlast (Nat.lt_succ_of_le hlen) (Ne.symm hback.2)

/-- **The console shows the tail of what was printed**, and whatever is printed from a cursor on the
screen, everything that is written is on the screen, and the cursor is afterwards. -/
theorem console_shows_tail (s : State) (text : Bytes) :
    (8 ∉ text → Shows (vprint (clearScreen s) text) ((rows text).rtake screenHeight)) ∧
      (s.cursorRow < screenHeight → s.cursorCol < screenWidth →
        OnScreen (vprint { s with touched := [] } text)) := by
  constructor
  · exact (shows_clear s).vprint
  · intro hrow hcol
    have hstart : OnScreen { s with touched := [] } :=
      ⟨hrow, hcol, fun i hi => absurd hi List.not_mem_nil⟩
    exact hstart.vprint text

/-- `"hi\n"` on a cleared screen, and `"h\b"` in the middle of it. -/
theorem console_shows_hi :
    Shows (vprint (clearScreen ⟨fun _ => 0, 7, 3, 5, [], []⟩) [104, 105, 10]) [[104, 105], []] ∧
      OnScreen (vprint ⟨fun _ => 0, 7, 3, 5, [], []⟩ [104, 8]) := by
  have hrows : (rows [104, 105, 10]).rtake screenHeight = [[104, 105], []] := by decide
  rw [← hrows]
  exact ⟨(console_shows_tail _ _).1 (by decide),
    (console_shows_tail ⟨fun _ => 0, 7, 3, 5, [], []⟩ _).2 (by decide) (by decide)⟩

end

end CobraOS.Screen
