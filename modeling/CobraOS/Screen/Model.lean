import Mathlib.Tactic

/-!
# The screen, `arch/x86/drivers/screen/screen.c`

The video memory is a function from indices to entries, and nothing in the source keeps an index
inside the screen but the way the cursor moves.  `touched` remembers the indices that were written,
and `ports` the writes to ports; neither is part of the program.  The cursor that is seen is the one
that the controller of the screen has been given at its ports (`State.hardwareCursor`).

The cursor is a pair of natural numbers: the source decrements it only when it is positive.
-/

namespace CobraOS.Screen

abbrev Bytes := List UInt8

/-- `SCREEN_WIDTH` -/
def screenWidth : Nat := 80

/-- `SCREEN_HEIGHT` -/
def screenHeight : Nat := 25

/-- `SCREEN_CTRL` -/
def screenCtrl : Nat := 0x3d4

/-- `SCREEN_DATA` -/
def screenData : Nat := 0x3d5

/-- `outb(port, value)` -/
structure Out where
  port : Nat
  value : UInt8
  deriving DecidableEq

def vgaEntry (uc color : UInt8) : UInt16 := uc.toUInt16 ||| color.toUInt16 <<< 8

structure State where
  video : Nat → UInt16
  colors : UInt8
  cursorRow : Nat
  cursorCol : Nat
  touched : List Nat
  ports : List Out

/-- `vga_entry(' ', colors)` -/
def State.blank (s : State) : UInt16 := vgaEntry 32 s.colors

/-- `video_memory[i] = entry;` -/
def State.poke (s : State) (i : Nat) (entry : UInt16) : State :=
  { s with video := Function.update s.video i entry, touched := s.touched ++ [i] }

def outb (s : State) (port : Nat) (value : UInt8) : State :=
  { s with ports := s.ports ++ [⟨port, value⟩] }

/-- `n` blanks from `i` on. -/
def fill (s : State) (i : Nat) : Nat → State
  | 0 => s
  | n + 1 => fill (s.poke i s.blank) (i + 1) n

/-- The port writes of `set_cursor_offset`. -/
def moveHardwareCursor (s : State) (offset : Nat) : State :=
  outb (outb (outb (outb s screenCtrl 14) screenData (UInt8.ofNat (offset / 256))) screenCtrl 15)
    screenData
    (UInt8.ofNat (offset % 256))

def setCursorOffset (s : State) (offset : Nat) : State :=
  let offset := offset / 2
  moveHardwareCursor { s with cursorRow := offset / screenWidth, cursorCol := offset % screenWidth }
    offset

def getOffset (col row : Nat) : Nat := 2 * (row * screenWidth + col)

/-- `memmove(video_memory, video_memory + SCREEN_WIDTH, ...)`, which moves all rows but the first
up. -/
def moveRowsUp (s : State) : State :=
  let n := (screenHeight - 1) * screenWidth
  { s with
    video := fun i => if i < n then s.video (i + screenWidth) else s.video i
    touched := s.touched ++ List.range n }

def scroll (s : State) : State :=
  let s := fill (moveRowsUp s) ((screenHeight - 1) * screenWidth) screenWidth
  { s with cursorRow := screenHeight - 1, cursorCol := 0 }

/-- The column of the last character of a row up to `col`, or `0`. -/
def skipBlanks (s : State) (row : Nat) : Nat → Nat
  | 0 => 0
  | col + 1 =>
    if s.video (row * screenWidth + (col + 1)) = s.blank then skipBlanks s row col else col + 1

/-- The cursor goes back one character, over blanks at the end of the row above. -/
def stepBack (s : State) : State :=
  if 0 < s.cursorCol then { s with cursorCol := s.cursorCol - 1 }
  else if 0 < s.cursorRow then
    { s with
      cursorRow := s.cursorRow - 1
      cursorCol := skipBlanks s (s.cursorRow - 1) (screenWidth - 1) }
  else s

/-- The entry at the cursor. -/
def State.pokeCursor (s : State) (entry : UInt16) : State :=
  s.poke (s.cursorRow * screenWidth + s.cursorCol) entry

/-- The part of `cprint` that depends on the character. -/
def putChar (s : State) (c : UInt8) : State :=
  if c = 10 then { s with cursorRow := s.cursorRow + 1, cursorCol := 0 }
  else if c = 8 then
    let s := stepBack s
    s.pokeCursor s.blank
  else
    let s := s.pokeCursor (vgaEntry c s.colors)
    let s := { s with cursorCol := s.cursorCol + 1 }
    if screenWidth ≤ s.cursorCol then { s with cursorCol := 0, cursorRow := s.cursorRow + 1 } else s

/-- The part of `cprint` that keeps the cursor on the screen. -/
def keepCursor (s : State) : State :=
  let s := if screenHeight ≤ s.cursorRow then { scroll s with cursorRow := screenHeight - 1 } else s
  if screenWidth ≤ s.cursorCol then { s with cursorCol := screenWidth - 1 } else s

def cprint (s : State) (c : UInt8) : State :=
  let s := keepCursor (putChar s c)
  setCursorOffset s (getOffset s.cursorCol s.cursorRow)

def vprint (s : State) (text : Bytes) : State := text.foldl cprint s

def clearScreenRow (s : State) (row : Nat) : State := fill s (row * screenWidth) screenWidth

def clearScreen (s : State) : State :=
  let s := fill s 0 (screenWidth * screenHeight)
  setCursorOffset { s with cursorRow := 0, cursorCol := 0 } (getOffset 0 0)

def setCursorPosition (s : State) (x y : Nat) : State :=
  setCursorOffset { s with cursorCol := x, cursorRow := y } (getOffset x y)

/-! ### The controller -/

/-- The register that is selected, and the registers 14 and 15, which hold the offset of the
cursor. -/
structure Controller where
  index : UInt8
  high : UInt8
  low : UInt8

def Controller.write (r : Controller) (o : Out) : Controller :=
  if o.port = screenCtrl then { r with index := o.value }
  else if o.port = screenData ∧ r.index = 14 then { r with high := o.value }
  else if o.port = screenData ∧ r.index = 15 then { r with low := o.value }
  else r

/-- Where the controller shows the cursor. -/
def State.hardwareCursor (s : State) : Nat :=
  let r := s.ports.foldl Controller.write ⟨0, 0, 0⟩
  256 * r.high.toNat + r.low.toNat

/-- **The controller shows the cursor where it is set.** -/
theorem setCursorOffset_hardware (s : State) {offset : Nat} (h : offset / 2 < 65536) :
    (setCursorOffset s offset).hardwareCursor = offset / 2 := by
  have hhigh : (UInt8.ofNat (offset / 2 / 256)).toNat = offset / 2 / 256 := by
    rw [UInt8.toNat_ofNat']
    exact Nat.mod_eq_of_lt (by omega)
  have hlow : (UInt8.ofNat (offset / 2 % 256)).toNat = offset / 2 % 256 := by
    rw [UInt8.toNat_ofNat']
    exact Nat.mod_eq_of_lt (Nat.mod_lt _ (by decide))
  have hports : (setCursorOffset s offset).ports = s.ports ++ [⟨screenCtrl, 14⟩,
      ⟨screenData, UInt8.ofNat (offset / 2 / 256)⟩, ⟨screenCtrl, 15⟩,
        ⟨screenData, UInt8.ofNat (offset / 2 % 256)⟩] := by
    simp [setCursorOffset, moveHardwareCursor, outb]
  unfold State.hardwareCursor
  rw [hports, List.foldl_append]
  simp only [List.foldl_cons, List.foldl_nil, Controller.write]
  simp [screenCtrl, screenData, hhigh, hlow]
  omega

theorem setCursorPosition_hardware (s : State) {x y : Nat} (h : y * screenWidth + x < 65536) :
    (setCursorPosition s x y).hardwareCursor = y * screenWidth + x := by
  have hoffset : getOffset x y / 2 = y * screenWidth + x := Nat.mul_div_cancel_left _ (by decide)
  unfold setCursorPosition
  rw [setCursorOffset_hardware _ (by rw [hoffset]; exact h), hoffset]

/-! ### On the screen -/

/-- The cursor is on the screen, and so was everything that was written. -/
structure OnScreen (s : State) : Prop where
  row : s.cursorRow < screenHeight
  col : s.cursorCol < screenWidth
  touched : ∀ i ∈ s.touched, i < screenWidth * screenHeight

section

variable {s : State}

theorem index_lt {row col : Nat} (hr : row < screenHeight) (hc : col < screenWidth) :
    row * screenWidth + col < screenWidth * screenHeight := by
  unfold screenHeight screenWidth at *
  omega

theorem touched_poke (entry : UInt16) (h : ∀ i ∈ s.touched, i < screenWidth * screenHeight)
    {i : Nat} (hi : i < screenWidth * screenHeight) :
    ∀ j ∈ (s.poke i entry).touched, j < screenWidth * screenHeight := by
  intro j hj
  obtain hj | hj := List.mem_append.mp hj
  · exact h j hj
  · rw [List.mem_singleton] at hj
    omega

theorem touched_fill :
    ∀ {n i : Nat} {s : State}, (∀ i ∈ s.touched, i < screenWidth * screenHeight) →
    i + n ≤ screenWidth * screenHeight → ∀ j ∈ (fill s i n).touched,
      j < screenWidth * screenHeight := by
  intro n
  induction n with
  | zero => exact fun h _ => h
  | succ n ih => exact fun h hi => ih (touched_poke _ h (by omega)) (by omega)

theorem fill_cursor : ∀ {n i : Nat} {s : State},
    (fill s i n).cursorRow = s.cursorRow ∧ (fill s i n).cursorCol = s.cursorCol := by
  intro n
  induction n with
  | zero => exact ⟨rfl, rfl⟩
  | succ n ih => exact fun {i s} => ih (i := i + 1) (s := s.poke i s.blank)

theorem setCursorOffset_cursor (s : State) (row : Nat) {col : Nat} (hc : col < screenWidth) :
    (setCursorOffset s (getOffset col row)).cursorRow = row ∧
      (setCursorOffset s (getOffset col row)).cursorCol = col := by
  unfold screenWidth at hc
  have hoffset : getOffset col row / 2 = row * 80 + col := by
    unfold getOffset screenWidth
    omega
  simp only [setCursorOffset, moveHardwareCursor, outb, hoffset, screenWidth]
  omega

theorem touched_scroll (h : ∀ i ∈ s.touched, i < screenWidth * screenHeight) :
    ∀ j ∈ (scroll s).touched, j < screenWidth * screenHeight := by
  have hup : ∀ j ∈ (moveRowsUp s).touched, j < screenWidth * screenHeight := by
    intro j hj
    obtain hj | hj := List.mem_append.mp hj
    · exact h j hj
    · have hlt := List.mem_range.mp hj
      unfold screenHeight screenWidth at *
      omega
  have hrow : (screenHeight - 1) * screenWidth + screenWidth ≤ screenWidth * screenHeight := by
    decide
  exact touched_fill hup hrow

theorem skipBlanks_le (s : State) (row : Nat) : ∀ col, skipBlanks s row col ≤ col := by
  intro col
  induction col with
  | zero => exact le_rfl
  | succ col ih =>
    rw [skipBlanks]
    split
    · omega
    · exact le_rfl

theorem OnScreen.stepBack (h : OnScreen s) : OnScreen (stepBack s) := by
  have hr := h.row
  have hc := h.col
  unfold Screen.stepBack
  split
  · exact ⟨hr, by show s.cursorCol - 1 < screenWidth; omega, h.touched⟩
  · split
    · have hle := skipBlanks_le s (s.cursorRow - 1) (screenWidth - 1)
      refine ⟨?_, ?_, h.touched⟩
      · show s.cursorRow - 1 < screenHeight
        omega
      · show skipBlanks s (s.cursorRow - 1) (screenWidth - 1) < screenWidth
        omega
    · exact h

theorem putChar_cursor (h : OnScreen s) (c : UInt8) : (putChar s c).cursorRow ≤ screenHeight ∧
    (putChar s c).cursorCol < screenWidth ∧ ∀ i ∈ (putChar s c).touched,
      i < screenWidth * screenHeight := by
  have hr := h.row
  have hc := h.col
  have hpos : 0 < screenWidth := by decide
  unfold putChar
  split
  · exact ⟨by show s.cursorRow + 1 ≤ screenHeight; omega, hpos, h.touched⟩
  · split
    · have hback := h.stepBack
      exact ⟨hback.row.le, hback.col, touched_poke _ hback.touched (index_lt hback.row hback.col)⟩
    · have htouched := touched_poke (vgaEntry c s.colors) h.touched (index_lt hr hc)
      dsimp only
      split
      · exact ⟨by show s.cursorRow + 1 ≤ screenHeight; omega, hpos, htouched⟩
      · rename_i hcol
        exact ⟨hr.le, Nat.not_le.mp hcol, htouched⟩

theorem keepCursor_on {t : State} (hc : t.cursorCol < screenWidth)
    (htouched : ∀ i ∈ t.touched, i < screenWidth * screenHeight) : OnScreen (keepCursor t) := by
  have hscroll : (scroll t).cursorCol = 0 := rfl
  have hup := touched_scroll htouched
  have hpos : 0 < screenWidth := by decide
  unfold keepCursor
  generalize scroll t = u at hscroll hup
  by_cases hrow : screenHeight ≤ t.cursorRow
  · simp only [if_pos hrow, hscroll, if_neg (Nat.not_le.mpr hpos)]
    exact ⟨show screenHeight - 1 < screenHeight by decide, hpos, hup⟩
  · simp only [if_neg hrow, if_neg (Nat.not_le.mpr hc)]
    exact ⟨Nat.not_le.mp hrow, hc, htouched⟩

theorem OnScreen.setCursorOffset (h : OnScreen s) {col row : Nat} (hc : col < screenWidth)
    (hr : row < screenHeight) : OnScreen (setCursorOffset s (getOffset col row)) := by
  obtain ⟨h1, h2⟩ := setCursorOffset_cursor s row hc
  exact ⟨h1.symm ▸ hr, h2.symm ▸ hc, h.touched⟩

theorem setCursorPosition_cursor (s : State) (x y : Nat) :
    (setCursorPosition s x y).cursorRow = (y * screenWidth + x) / screenWidth ∧
      (setCursorPosition s x y).cursorCol = (y * screenWidth + x) % screenWidth := by
  have hoffset : getOffset x y / 2 = y * screenWidth + x := Nat.mul_div_cancel_left _ (by decide)
  rw [← hoffset]
  exact ⟨rfl, rfl⟩

/-- Wherever the cursor is set to, it is on the screen just when that place is. -/
theorem onScreen_setCursorPosition (h : ∀ i ∈ s.touched, i < screenWidth * screenHeight)
    (x y : Nat) :
    OnScreen (setCursorPosition s x y) ↔ y * screenWidth + x < screenWidth * screenHeight := by
  obtain ⟨hrow, hcol⟩ := setCursorPosition_cursor s x y
  constructor
  · intro hon
    have hlt := hon.row
    rw [hrow, Nat.div_lt_iff_lt_mul (by decide)] at hlt
    exact hlt.trans_eq (Nat.mul_comm _ _)
  · intro hlt
    refine ⟨?_, ?_, h⟩
    · rw [hrow, Nat.div_lt_iff_lt_mul (by decide)]
      exact hlt.trans_eq (Nat.mul_comm _ _)
    · rw [hcol]
      exact Nat.mod_lt _ (by decide)

/-- **A character is printed on the screen.** -/
theorem OnScreen.cprint (h : OnScreen s) (c : UInt8) : OnScreen (cprint s c) := by
  obtain ⟨-, hc, htouched⟩ := putChar_cursor h c
  have hkeep := keepCursor_on hc htouched
  exact hkeep.setCursorOffset hkeep.col hkeep.row

theorem cprint_cursor (h : OnScreen s) (c : UInt8) :
    (Screen.cprint s c).cursorRow = (keepCursor (putChar s c)).cursorRow ∧
      (Screen.cprint s c).cursorCol = (keepCursor (putChar s c)).cursorCol := by
  obtain ⟨-, hc, htouched⟩ := putChar_cursor h c
  exact setCursorOffset_cursor _ _ (keepCursor_on hc htouched).col

theorem cprint_newline (h : OnScreen s) :
    (Screen.cprint s 10).cursorRow = min (s.cursorRow + 1) (screenHeight - 1) ∧
      (Screen.cprint s 10).cursorCol = 0 := by
  obtain ⟨hrow, hcol⟩ := cprint_cursor h 10
  have hput : putChar s 10 = { s with cursorRow := s.cursorRow + 1, cursorCol := 0 } := if_pos rfl
  have hr := h.row
  rw [hrow, hcol, hput, keepCursor]
  by_cases hlast : screenHeight ≤ s.cursorRow + 1
  · simp only [if_pos hlast]
    rw [Nat.min_eq_right (by omega)]
    exact ⟨rfl, rfl⟩
  · simp only [if_neg hlast]
    rw [Nat.min_eq_left (by omega)]
    exact ⟨rfl, rfl⟩

theorem cprint_char (h : OnScreen s) {c : UInt8} (hnewline : c ≠ 10) (hback : c ≠ 8)
    (hroom : s.cursorCol + 1 < screenWidth) :
    (Screen.cprint s c).cursorRow = s.cursorRow ∧
      (Screen.cprint s c).cursorCol = s.cursorCol + 1 := by
  obtain ⟨hrow, hcol⟩ := cprint_cursor h c
  have hput : putChar s c =
      { s.pokeCursor (vgaEntry c s.colors) with cursorCol := s.cursorCol + 1 } := by
    unfold putChar
    rw [if_neg hnewline, if_neg hback]
    exact if_neg (Nat.not_le.mpr hroom)
  have hr : ¬ screenHeight ≤ (s.pokeCursor (vgaEntry c s.colors)).cursorRow := Nat.not_le.mpr h.row
  rw [hrow, hcol, hput, keepCursor]
  simp only [if_neg hr, if_neg (Nat.not_le.mpr hroom)]
  exact ⟨rfl, trivial⟩

theorem OnScreen.vprint (h : OnScreen s) (text : Bytes) : OnScreen (vprint s text) := by
  induction text generalizing s with
  | nil => exact h
  | cons c text ih => exact ih (h.cprint c)

theorem OnScreen.clearScreenRow (h : OnScreen s) {row : Nat} (hrow : row < screenHeight) :
    OnScreen (clearScreenRow s row) := by
  have hend : row * screenWidth + screenWidth ≤ screenWidth * screenHeight := by
    unfold screenHeight screenWidth at *
    omega
  obtain ⟨h1, h2⟩ := fill_cursor (s := s) (i := row * screenWidth) (n := screenWidth)
  exact ⟨h1.symm ▸ h.row, h2.symm ▸ h.col, touched_fill h.touched hend⟩

/-- **`clear_screen`** brings the cursor back, wherever it was. -/
theorem onScreen_clear (h : ∀ i ∈ s.touched, i < screenWidth * screenHeight) :
    OnScreen (clearScreen s) := by
  have hfill := touched_fill (i := 0) (n := screenWidth * screenHeight) h (Nat.zero_add _).le
  unfold clearScreen
  generalize fill s 0 (screenWidth * screenHeight) = t at hfill
  have hstart : OnScreen { t with cursorRow := 0, cursorCol := 0 } :=
    ⟨show 0 < screenHeight by decide, show 0 < screenWidth by decide, hfill⟩
  exact hstart.setCursorOffset (by decide) (by decide)

end

end CobraOS.Screen
