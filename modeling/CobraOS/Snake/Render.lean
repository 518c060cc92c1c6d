import CobraOS.Screen.Console
import CobraOS.Screen.Format
import CobraOS.Snake.Supplied

/-!
# What the editor draws, `editor_render` in `arch/x86/snake/snake.c`

Before it waits for a key the editor draws the part of its text that is in the window, a status
line, and the cursor.  A loop that draws characters into a row is a `Drawn`, and the lines, the
status line and the prompts are put together from these.

So after every run that is supplied, whatever else `kmalloc` has refused, the screen shows the
window of the text with the cursor on the character behind the caret (`editor_shows`).
-/

namespace CobraOS.Snake

open Base
open Screen (Bytes vgaEntry setCursorPosition screenHeight)

/-! ### The program -/

/-- `n` cells from `i` on. -/
def clearCells (s : Screen.State) (i : Nat) : Nat → Screen.State
  | 0 => s
  | n + 1 => clearCells (s.poke i (vgaEntry 32 0x07)) (i + 1) n

def screenClear (s : Screen.State) : Screen.State :=
  setCursorPosition (clearCells s 0 (screenWidth * screenHeight)) 0 0

def screenPutc (s : Screen.State) (x y : Int) (c attr : UInt8) : Screen.State :=
  if x < 0 ∨ screenWidth ≤ x ∨ y < 0 ∨ screenHeight ≤ y then s
  else s.poke (y * screenWidth + x).toNat (vgaEntry c attr)

def screenPrintString (s : Screen.State) (x y : Int) (attr : UInt8) : Bytes → Screen.State
  | [] => s
  | c :: str =>
    let s := screenPutc s x y c attr
    if screenWidth ≤ x + 1 then s else screenPrintString s (x + 1) y attr str

/-- The digits of a value that is not positive are none, but for zero. -/
def intToStr (value : Int) : Bytes :=
  if value = 0 then [48] else (Screen.digitsLoop 97 10 32 value.toNat).reverse

/-- The loop over `data[start + i]`, `n` characters from `i` on. -/
def drawChars (data : Option (Block UInt8)) (start y : Nat) (s : Screen.State) (i : Nat) :
    Nat → Option Screen.State
  | 0 => some s
  | n + 1 => do
    let b ← data
    let c ← b.get (start + i)
    drawChars data start y (screenPutc s i y c 0x07) (i + 1) n

/-- The loop over the lines, `n` of them from row `y` of the screen on. -/
def drawLines (ed : Editor) (s : Screen.State) (y : Nat) : Nat → Option Screen.State
  | 0 => some s
  | n + 1 => do
    let lines ← ed.lines
    let line ← lines.get (ed.scrollY + y)
    let start := min ed.scrollX line.len
    let s ← drawChars line.data start y s 0 (min (line.len - start) screenWidth)
    drawLines ed s (y + 1) n

/-- `while (*name && len < SCREEN_WIDTH) status[len++] = *name++;` with room for so many
characters. -/
def pushName (name : Block UInt8) (i : Nat) (status : Bytes) : Nat → Option Bytes
  | 0 => do
    let _ ← name.get i
    some status
  | room + 1 => do
    let c ← name.get i
    if c = 0 then some status else pushName name (i + 1) (status ++ [c]) room

/-- Characters are added while there is room. -/
def pushStatus (status : Bytes) : Bytes → Bytes
  | [] => status
  | c :: cs => if status.length < screenWidth then pushStatus (status ++ [c]) cs else status

/-- `"[No Name]"` -/
def noName : Bytes := [91, 78, 111, 32, 78, 97, 109, 101, 93]

/-- `int_to_str(n + 1, numbuf)`, whose argument is an `int`. -/
def numberFrom1 (n : Nat) : Bytes := intToStr (wint (n + 1))

/-- The name of the file, or `"[No Name]"`. -/
def pushTitle (filename : Option (Block UInt8)) : Option Bytes :=
  match filename with
  | some name => pushName name 0 [] screenWidth
  | none => some (pushStatus [] noName)

def statusLine (ed : Editor) : Option Bytes := do
  let status ← pushTitle ed.filename
  let status := if ed.modified then pushStatus status [42] else status
  let status := pushStatus status (numberFrom1 ed.cursorY)
  let status := pushStatus status [58]
  let status := pushStatus status (numberFrom1 ed.cursorX)
  some (status ++ List.replicate (screenWidth - status.length) 32)

/-- `for (int x = 0; x < SCREEN_WIDTH; x++) screen_putc(x, SCREEN_HEIGHT - 1, status[x], 0x70);` -/
def drawStatus (s : Screen.State) (x : Nat) : Bytes → Screen.State
  | [] => s
  | c :: status => drawStatus (screenPutc s x (screenHeight - 1 : Nat) c 0x70) (x + 1) status

def editorRender (ed : Editor) (s : Screen.State) : Option Screen.State := do
  let s ← drawLines ed (screenClear s) 0 (min (ed.scrollY + textHeight) ed.numLines - ed.scrollY)
  let status ← statusLine ed
  some (setCursorPosition (drawStatus s 0 status) (wsub ed.cursorX ed.scrollX)
    (wsub ed.cursorY ed.scrollY))

/-! ### Cells -/

/-- The entry of a place of the screen. -/
def cell (s : Screen.State) (row col : Nat) : UInt16 := s.video (row * screenWidth + col)

/-- Nothing was written outside the video memory. -/
def Inside (s : Screen.State) : Prop := ∀ i ∈ s.touched, i < Screen.screenWidth * screenHeight

/-- **A text is drawn** into row `y` from column `x` on, as far as it fits, and nothing else. -/
structure Drawn (s s' : Screen.State) (y x : Nat) (attr : UInt8) (text : Bytes) : Prop where
  cells : ∀ row < screenHeight, ∀ col < screenWidth, cell s' row col =
    if row = y ∧ x ≤ col then ((text[col - x]?).map (vgaEntry · attr)).getD (cell s row col)
      else cell s row col
  inside : Inside s → Inside s'

section

variable {s s' s'' : Screen.State} {row col x y : Nat} {attr c : UInt8} {text : Bytes}

theorem clearCells_video : ∀ {n i : Nat} {s : Screen.State} (j : Nat), (clearCells s i n).video j =
    if i ≤ j ∧ j < i + n then vgaEntry 32 0x07 else s.video j := by
  intro n
  induction n with
  | zero =>
    intro i s j
    rw [if_neg (by omega)]
    rfl
  | succ n ih =>
    intro i s j
    rw [clearCells, ih]
    by_cases hj : j = i
    · subst hj
      rw [if_neg (by omega), if_pos (by omega)]
      exact Function.update_self ..
    · rw [show (s.poke i (vgaEntry 32 0x07)).video j = s.video j from Function.update_of_ne hj ..]
      exact if_congr (by omega) rfl rfl

theorem clearCells_inside : ∀ {n i : Nat} {s : Screen.State}, Inside s →
    i + n ≤ Screen.screenWidth * screenHeight → Inside (clearCells s i n) := by
  intro n
  induction n with
  | zero => exact fun h _ => h
  | succ n ih => exact fun h hi => ih (Screen.touched_poke _ h (by omega)) (by omega)

theorem cell_setCursorPosition (s : Screen.State) (i j : Nat) :
    cell (setCursorPosition s i j) row col = cell s row col := rfl

theorem inside_setCursorPosition (s : Screen.State) (i j : Nat) :
    Inside (setCursorPosition s i j) ↔ Inside s := Iff.rfl

/-- **A cleared screen** is blank. -/
theorem screenClear_cell (hrow : row < screenHeight) (hcol : col < screenWidth) :
    cell (screenClear s) row col = vgaEntry 32 0x07 := by
  have hlt : row * screenWidth + col < screenWidth * screenHeight := Screen.index_lt hrow hcol
  unfold screenClear
  rw [cell_setCursorPosition]
  unfold cell
  rw [clearCells_video, if_pos (by omega)]

theorem screenClear_inside (h : Inside s) : Inside (screenClear s) := by
  unfold screenClear
  rw [inside_setCursorPosition]
  refine clearCells_inside h ?_
  rw [Nat.zero_add]
  exact le_of_eq rfl

theorem Drawn.behind (hx : screenWidth ≤ x) (text : Bytes) : Drawn s s y x attr text := by
  refine ⟨fun row _ col hcol => ?_, id⟩
  rw [if_neg (by omega)]

theorem screenPutc_drawn (hy : y < screenHeight) :
    Drawn s (screenPutc s x y c attr) y x attr [c] := by
  by_cases hx : x < screenWidth
  · have hput : screenPutc s x y c attr = s.poke (y * screenWidth + x) (vgaEntry c attr) := by
      unfold screenPutc
      rw [if_neg (by omega)]
      congr 1
    rw [hput]
    refine ⟨fun row _ col hcol => ?_, fun h => Screen.touched_poke _ h (Screen.index_lt hy hx)⟩
    unfold cell
    by_cases hat : row = y ∧ col = x
    · obtain ⟨rfl, rfl⟩ := hat
      rw [if_pos ⟨rfl, le_rfl⟩, Nat.sub_self]
      exact Function.update_self ..
    · have hne : row * screenWidth + col ≠ y * screenWidth + x := by
        unfold screenWidth at *
        omega
      rw [show (s.poke _ _).video (row * screenWidth + col) = _ from Function.update_of_ne hne ..]
      split
      · next hrow =>
        rw [List.getElem?_eq_none (by simp only [List.length_singleton]; omega)]
        rfl
      · rfl
  · have hput : screenPutc s x y c attr = s :=
      if_pos (.inr (.inl (by exact_mod_cast Nat.not_lt.mp hx)))
    rw [hput]
    exact .behind (Nat.not_lt.mp hx) [c]

theorem Drawn.nil (s : Screen.State) (y x : Nat) (attr : UInt8) : Drawn s s y x attr [] := by
  refine ⟨fun row _ col _ => ?_, id⟩
  split <;> rfl

theorem Drawn.cons (h : Drawn s s' y x attr [c]) (h' : Drawn s' s'' y (x + 1) attr text) :
    Drawn s s'' y x attr (c :: text) := by
  refine ⟨fun row hrow col hcol => ?_, fun hs => h'.inside (h.inside hs)⟩
  rw [h'.cells row hrow col hcol, h.cells row hrow col hcol]
  by_cases hr : row = y
  · obtain hlt | rfl | hgt := Nat.lt_trichotomy col x
    · rw [if_neg (by omega), if_neg (by omega), if_neg (by omega)]
    · rw [if_neg (by omega), if_pos ⟨hr, le_rfl⟩, if_pos ⟨hr, le_rfl⟩, Nat.sub_self]
      rfl
    · have hcol' : col - x = (col - (x + 1)) + 1 := by omega
      rw [if_pos ⟨hr, hgt⟩, if_pos ⟨hr, hgt.le⟩, if_pos ⟨hr, hgt.le⟩, hcol',
        List.getElem?_cons_succ, List.getElem?_cons_succ]
      rfl
  · rw [if_neg (by omega), if_neg (by omega), if_neg (by omega)]

theorem Drawn.setCursor (h : Drawn s s' y x attr text) (i j : Nat) :
    Drawn s (setCursorPosition s' i j) y x attr text := ⟨h.cells, h.inside⟩

theorem screenPrintString_drawn (hy : y < screenHeight) :
    ∀ {text : Bytes} {s : Screen.State} {x : Nat},
    Drawn s (screenPrintString s x y attr text) y x attr text := by
  intro text
  induction text with
  | nil => exact .nil ..
  | cons c text ih =>
    intro s x
    refine (screenPutc_drawn hy).cons ?_
    rw [screenPrintString]
    split
    · next h => exact .behind (by exact_mod_cast h) text
    · exact ih

/-! ### The lines -/

/-- The part of a line that is in the window. -/
def window (v : View) (t : Text) : Text := (t.drop v.scrollX).take screenWidth

theorem drawChars_drawn {data : Option (Block UInt8)} {b : Block UInt8} {start : Nat}
    (hb : data = some b) (hy : y < screenHeight) : ∀ {text : Bytes} {s : Screen.State}
    {i : Nat}, i + text.length ≤ screenWidth →
    (∀ k c, text[k]? = some c → b.get (start + (i + k)) = some c) →
    ∃ s', drawChars data start y s i text.length = some s' ∧ Drawn s s' y i 0x07 text := by
  intro text
  induction text with
  | nil => exact fun _ _ => ⟨_, rfl, .nil ..⟩
  | cons c text ih =>
    intro s i hi hget
    rw [List.length_cons] at hi
    have hc : b.get (start + i) = some c := hget 0 c rfl
    obtain ⟨s', hs', hdrawn⟩ :=
      ih (s := screenPutc s i y c 0x07) (i := i + 1) (by omega) fun k d hk => by
      have := hget (k + 1) d (by rw [List.getElem?_cons_succ, hk])
      rwa [show i + (k + 1) = i + 1 + k by omega] at this
    refine ⟨s', ?_, (screenPutc_drawn hy).cons hdrawn⟩
    subst hb
    rw [List.length_cons, drawChars]
    simp only [Option.bind_eq_bind, Option.bind_some, hc]
    exact hs'

theorem Line.Holds.draw {l : Line} {t : Text} (h : l.Holds t) {v : View} (hy : y < screenHeight) :
    ∃ s', drawChars l.data (min v.scrollX l.len) y s 0
      (min (l.len - min v.scrollX l.len) screenWidth) = some s' ∧
        Drawn s s' y 0 0x07 (window v t) := by
  obtain ⟨id, rest, hdata, -⟩ := h.data
  have hlen : (window v t).length = min (l.len - min v.scrollX l.len) screenWidth := by
    unfold window
    rw [List.length_take, List.length_drop, h.len]
    omega
  rw [← hlen]
  refine drawChars_drawn hdata hy (by omega) fun k c hk => ?_
  unfold window at hk
  rw [List.getElem?_take] at hk
  split at hk
  · rw [List.getElem?_drop] at hk
    obtain ⟨hlt, -⟩ := List.getElem?_eq_some_iff.mp hk
    rw [Block.get_eq_some, h.len, show min v.scrollX t.length + (0 + k) = v.scrollX + k by omega,
      List.getElem?_append_left (by rw [List.length_map]; exact hlt), List.getElem?_map, hk]
    rfl
  · cases hk

/-- The character of the text at a place of the window. -/
def glyph (v : View) (row col : Nat) : Option UInt8 := do
  let t ← v.caret.lines[v.scrollY + row]?
  t[v.scrollX + col]?

theorem window_get {v : View} {t : Text} (hcol : col < screenWidth) :
    (window v t)[col]? = t[v.scrollX + col]? := by
  unfold window
  rw [List.getElem?_take, if_pos hcol, List.getElem?_drop]

/-- **The lines** are drawn each into its row. -/
theorem drawLines_cells {ed : Editor} {v : View} (h : ed.state.Holds v) :
    ∀ {n y : Nat} {s : Screen.State},
    v.scrollY + y + n ≤ v.caret.lines.length → y + n ≤ textHeight →
      ∃ s', drawLines ed s y n = some s' ∧
      (Inside s → Inside s') ∧ ∀ row < screenHeight, ∀ col < screenWidth, cell s' row col =
        if y ≤ row ∧ row < y + n then
          ((glyph v row col).map (vgaEntry · 0x07)).getD (cell s row col)
        else cell s row col := by
  intro n
  induction n with
  | zero =>
    refine fun _ _ => ⟨_, rfl, id, fun row _ col _ => ?_⟩
    rw [if_neg (by omega)]
  | succ n ih =>
    intro y s hlines hheight
    have hlt : v.scrollY + y < v.caret.lines.length := by omega
    have hsplit := List.take_append_drop (v.scrollY + y) v.caret.lines
    rw [List.drop_eq_getElem_cons hlt] at hsplit
    obtain ⟨b, l, hb, hget, hl, -⟩ := HoldLines.focus (hsplit ▸ h.lines)
    rw [List.length_take, Nat.min_eq_left hlt.le] at hget
    have hrow : y < screenHeight := by
      unfold textHeight at hheight
      unfold screenHeight
      omega
    obtain ⟨s₁, hs₁, hdrawn⟩ := hl.draw (v := v) (s := s) hrow
    obtain ⟨s', hs', hinside, hcells⟩ := ih (y := y + 1) (s := s₁) (by omega) (by omega)
    have hb' : ed.lines = some b := hb
    have hx : ed.scrollX = v.scrollX := h.scrollX
    have hy : ed.scrollY = v.scrollY := h.scrollY
    refine ⟨s', ?_, fun hs => hinside (hdrawn.inside hs), fun row hr col hc => ?_⟩
    · rw [drawLines, hb', hx, hy]
      simp only [Option.bind_eq_bind, Option.bind_some, hget, hs₁]
      exact hs'
    · rw [hcells row hr col hc, hdrawn.cells row hr col hc]
      obtain hlt' | rfl | hgt := Nat.lt_trichotomy row y
      · rw [if_neg (by omega), if_neg (by omega), if_neg (by omega)]
      · rw [if_neg (by omega), if_pos ⟨rfl, Nat.zero_le _⟩, if_pos (by omega), Nat.sub_zero,
          window_get hc]
        unfold glyph
        rw [List.getElem?_eq_getElem hlt]
        rfl
      · rw [if_neg (c := row = y ∧ 0 ≤ col) (fun h => hgt.ne' h.1)]
        exact if_congr (by omega) rfl rfl

/-! ### The status line -/

/-- The name in the status line. -/
def Editor.title (ed : Editor) : Bytes :=
  match ed.filename with
  | some name => (stringOf name).getD []
  | none => noName

/-- What the status line says. -/
def statusText (title : Bytes) (modified : Bool) (row col : Nat) : Bytes :=
  title ++ (if modified then [42] else []) ++ Screen.numeral 10 (row + 1) ++ [58] ++ Screen.numeral
    10 (col + 1)

theorem stringOf_block (k : Nat) (name : Bytes) :
    stringOf ⟨k, name.map some ++ [some 0]⟩ = some (name.takeWhile (· != 0)) := by
  unfold stringOf
  rw [if_pos (List.mem_append_right _ List.mem_cons_self)]
  induction name with
  | nil => rfl
  | cons c name ih =>
    rw [List.map_cons, List.cons_append]
    by_cases hc : c = 0
    · subst hc
      rfl
    · have hc' : (some c != some 0) = true := by simpa using hc
      have hc'' : (c != 0) = true := by simpa using hc
      simp only [List.takeWhile_cons, hc', hc'', if_true, List.mapM_cons, ih]
      rfl

theorem pushName_take {k : Nat} {name : Bytes} : ∀ {room i : Nat} {status : Bytes},
    i ≤ name.length →
    pushName ⟨k, name.map some ++ [some 0]⟩ i status room =
      some (status ++ ((name.drop i).takeWhile (· != 0)).take room) := by
  have hcell : ∀ {i : Nat}, i ≤ name.length → (⟨k, name.map some ++ [some 0]⟩ : Block UInt8).get i =
      some ((name[i]?).getD 0) := by
    intro i hi
    rw [Block.get_eq_some]
    obtain hlt | rfl := Nat.lt_or_eq_of_le hi
    · rw [List.getElem?_append_left (by rw [List.length_map]; exact hlt), List.getElem?_map,
        List.getElem?_eq_getElem hlt]
      rfl
    · rw [List.getElem?_eq_none (Nat.le_refl _),
        List.getElem?_append_right (by rw [List.length_map]), List.length_map, Nat.sub_self]
      rfl
  intro room
  induction room with
  | zero =>
    intro i status hi
    rw [pushName, hcell hi, List.take_zero, List.append_nil]
    rfl
  | succ room ih =>
    intro i status hi
    rw [pushName, hcell hi]
    simp only [Option.bind_eq_bind, Option.bind_some]
    obtain hlt | rfl := Nat.lt_or_eq_of_le hi
    · rw [List.getElem?_eq_getElem hlt, Option.getD_some, List.drop_eq_getElem_cons hlt]
      by_cases hc : name[i] = 0
      · rw [if_pos hc, List.takeWhile_cons_of_neg (by simpa using hc), List.take_nil,
          List.append_nil]
      · rw [if_neg hc, ih hlt, List.takeWhile_cons_of_pos (by simpa using hc), List.take_succ_cons,
          List.append_assoc]
        rfl
    · rw [List.getElem?_eq_none (Nat.le_refl _), Option.getD_none, if_pos rfl, List.drop_length,
        List.takeWhile_nil, List.take_nil, List.append_nil]

theorem pushStatus_take : ∀ (cs text : Bytes),
    pushStatus (text.take screenWidth) cs = (text ++ cs).take screenWidth := by
  intro cs
  induction cs with
  | nil =>
    intro text
    rw [List.append_nil]
    rfl
  | cons c cs ih =>
    intro text
    rw [pushStatus]
    by_cases hlt : text.length < screenWidth
    · rw [List.take_of_length_le hlt.le, if_pos hlt]
      have := ih (text ++ [c])
      rw [List.take_of_length_le (by rw [List.length_append, List.length_singleton]; omega),
        List.append_assoc]
        at this
      exact this
    · rw [List.length_take, if_neg (by omega), List.take_append_of_le_length (Nat.not_lt.mp hlt)]

theorem numberFrom1_eq {n : Nat} (h : n + 1 < 2147483648) :
    numberFrom1 n = Screen.numeral 10 (n + 1) := by
  have hint : wint (n + 1) = (n + 1 : Nat) := by
    unfold wint
    rw [Nat.mod_eq_of_lt (by omega), if_pos h]
  unfold numberFrom1 intToStr
  rw [hint, if_neg (by omega), Int.toNat_natCast]
  exact Screen.digitsLoop_eq (by decide) (by decide) 32 (n + 1) (by omega) (by omega)

theorem cutOrFilled (text : Bytes) : let status := text.take screenWidth
    let status := status ++ List.replicate (screenWidth - status.length) 32
    status.length = screenWidth ∧ ∀ i < screenWidth, status[i]? = some ((text[i]?).getD 32) := by
  intro cut status
  have hcut : cut.length = min screenWidth text.length := List.length_take
  refine ⟨?_, fun i hi => ?_⟩
  · rw [List.length_append, List.length_replicate]
    omega
  · by_cases hlt : i < text.length
    · rw [List.getElem?_append_left (by omega), List.getElem?_take, if_pos hi,
        List.getElem?_eq_getElem hlt]
      rfl
    · rw [List.getElem?_append_right (by omega), List.getElem?_eq_none (Nat.not_lt.mp hlt),
        List.getElem?_replicate, if_pos (by omega)]
      rfl

/-- **The status line** is its text, cut or filled to the width of the screen. -/
theorem statusLine_eq {ed : Editor} (hname : ed.Named) (hrow : ed.cursorY + 1 < 2147483648)
    (hcol : ed.cursorX + 1 < 2147483648) : ∃ status, statusLine ed = some status ∧
      status.length = screenWidth ∧
      ∀ i < screenWidth,
        status[i]? =
          some (((statusText ed.title ed.modified ed.cursorY ed.cursorX)[i]?).getD 32) := by
  have htitle : pushTitle ed.filename = some (ed.title.take screenWidth) := by
    unfold pushTitle Editor.title
    cases hfile : ed.filename with
    | none => exact congrArg some (pushStatus_take noName [])
    | some name =>
      obtain ⟨k, path, rfl⟩ := hname name hfile
      simp only [pushName_take (Nat.zero_le _), stringOf_block]
      rfl
  have hstar :
    (if ed.modified then pushStatus (ed.title.take screenWidth) [42] else ed.title.take
      screenWidth) =
      (ed.title ++ if ed.modified then [42] else []).take screenWidth := by
    cases ed.modified with
    | false => exact congrArg (List.take screenWidth) (List.append_nil _).symm
    | true => exact pushStatus_take [42] ed.title
  unfold statusLine
  rw [htitle]
  simp only [Option.bind_eq_bind, Option.bind_some]
  rw [hstar, numberFrom1_eq hrow, numberFrom1_eq hcol, pushStatus_take, pushStatus_take,
    pushStatus_take]
  exact ⟨_, rfl, cutOrFilled _⟩

theorem drawStatus_drawn : ∀ {text : Bytes} {s : Screen.State}
    {x : Nat}, x + text.length ≤ screenWidth →
    Drawn s (drawStatus s x text) (screenHeight - 1) x 0x70 text := by
  intro text
  induction text with
  | nil => exact fun _ => .nil ..
  | cons c text ih =>
    intro s x hx
    rw [List.length_cons] at hx
    exact (screenPutc_drawn (by decide)).cons (ih (by omega))

/-! ### The screen -/

/-- **The screen shows the editor**: the window of the text, the status line, and the cursor, which
is also the one that the controller of the screen has been given. -/
structure Renders (s : Screen.State) (v : View) (status : Bytes) : Prop where
  text : ∀ row < textHeight, ∀ col < screenWidth, cell s row col =
    vgaEntry ((glyph v row col).getD 32) 0x07
  status : ∀ col < screenWidth, cell s textHeight col = vgaEntry ((status[col]?).getD 32) 0x70
  cursorRow : s.cursorRow < textHeight ∧ v.scrollY + s.cursorRow = v.caret.row
  cursorCol : s.cursorCol < screenWidth ∧ v.scrollX + s.cursorCol = v.caret.col
  hardware : s.hardwareCursor = s.cursorRow * screenWidth + s.cursorCol

/-- **The cursor is on the character behind the caret**, the one that Delete takes away. -/
theorem Renders.atCursor {v : View} {status : Bytes} (h : Renders s v status) :
    cell s s.cursorRow s.cursorCol = vgaEntry (v.caret.after.head?.getD 32) 0x07 := by
  obtain ⟨hr, hrow⟩ := h.cursorRow
  obtain ⟨hc, hcol⟩ := h.cursorCol
  rw [h.text _ hr _ hc]
  unfold glyph
  rw [hrow, hcol, v.caret.lines_row]
  have hafter : (v.caret.before ++ v.caret.after)[v.caret.col]? = v.caret.after.head? := by
    unfold Caret.col
    rw [List.getElem?_append_right (Nat.le_refl _), Nat.sub_self, List.head?_eq_getElem?]
  exact congrArg (fun c => vgaEntry (Option.getD c 32) 0x07) hafter

/-- **`editor_render`**: whatever was on the screen, it shows the editor, and nothing outside is
written. -/
theorem editorRender_spec {ed : Editor} {v : View} (h : ed.state.Holds v) (hname : ed.Named)
    (s : Screen.State) :
    ∃ s', editorRender ed s = some s' ∧ (Inside s → Inside s') ∧
      Renders s' v (statusText ed.title ed.modified v.caret.row v.caret.col) := by
  have hlines : ed.numLines = v.caret.lines.length := h.lines.count_lt.1
  have hcount : ed.numLines < 4194288 := h.lines.count_lt.2
  have hx : ed.scrollX = v.scrollX := h.scrollX
  have hy : ed.scrollY = v.scrollY := h.scrollY
  have hcx : ed.cursorX = v.caret.col := h.cursorX
  have hcy : ed.cursorY = v.caret.row := h.cursorY
  have hrow := v.caret.row_lt
  have hcol : v.caret.col < 4194288 := by
    obtain ⟨b, l, -, -, hl, -⟩ := h.lines.focus
    obtain ⟨id, rest, -, hcap⟩ := hl.data
    have hmax := hl.cap
    rw [List.length_append] at hcap
    unfold Caret.col maxRequest at *
    omega
  obtain ⟨hcolLe, hcolLt⟩ := v.shown_col
  obtain ⟨hrowLe, hrowLt⟩ := v.shown_row
  obtain ⟨s₁, hs₁, hinside, hcells⟩ := drawLines_cells h (y := 0) (s := screenClear s)
    (n := min (v.scrollY + textHeight) v.caret.lines.length - v.scrollY) (by omega) (by omega)
  obtain ⟨status, hstatus, hlen, hget⟩ := statusLine_eq hname (by omega) (by omega)
  have hdrawn : Drawn s₁ (drawStatus s₁ 0 status) textHeight 0 0x70 status :=
    drawStatus_drawn (by omega)
  have hresult : editorRender ed s = some (setCursorPosition (drawStatus s₁ 0 status)
      (v.caret.col - v.scrollX) (v.caret.row - v.scrollY)) := by
    unfold editorRender
    rw [hlines, hy, hs₁, hstatus, hcx, hcy, hx, wsub_of_le hcolLe (by omega),
      wsub_of_le hrowLe (by omega)]
    rfl
  refine ⟨_, hresult, fun hs => hdrawn.inside (hinside (screenClear_inside hs)), ?_⟩
  have hsc : Screen.screenWidth = screenWidth := rfl
  obtain ⟨hr, hc⟩ :=
    Screen.setCursorPosition_cursor (drawStatus s₁ 0 status) (v.caret.col - v.scrollX)
    (v.caret.row - v.scrollY)
  rw [hsc, Nat.mul_comm, Nat.mul_add_div (by decide), Nat.div_eq_of_lt (by omega),
    Nat.add_zero] at hr
  rw [hsc, Nat.mul_comm, Nat.mul_add_mod, Nat.mod_eq_of_lt (by omega)] at hc
  refine ⟨fun row hrow col hcol => ?_, fun col hcol => ?_, ?_, ?_, ?_⟩
  · have hrow' : row < screenHeight := hrow.trans (by decide)
    rw [cell_setCursorPosition, hdrawn.cells row hrow' col hcol, if_neg (by omega),
      hcells row hrow' col hcol]
    split
    · rw [screenClear_cell hrow' hcol]
      cases glyph v row col <;> rfl
    · next hnot =>
      have hnone : glyph v row col = none := by
        unfold glyph
        rw [List.getElem?_eq_none (by omega)]
        rfl
      rw [screenClear_cell hrow' hcol, hnone]
      rfl
  · rw [cell_setCursorPosition, hdrawn.cells textHeight (by decide) col hcol,
      if_pos ⟨rfl, Nat.zero_le _⟩, Nat.sub_zero, hget col hcol, hcx, hcy]
    rfl
  · rw [hr]
    omega
  · rw [hc]
    omega
  · rw [hr, hc]
    refine Screen.setCursorPosition_hardware _ ?_
    unfold textHeight at hrowLt
    unfold screenWidth at hcolLt
    unfold Screen.screenWidth
    omega

/-- **The editor shows its text**, after every run that is supplied, and whatever was on the
screen. -/
theorem editor_shows {w₀ : World} (hw₀ : w₀.Covered) (h₀ : GrantsText w₀)
    {p₀ p : EditorMemory × World} {us : List Use} (hinit : unwritten.editorInit w₀ = some p₀)
    (hrun : (inMemory.restrict Supplied).Run p₀ us p) (s : Screen.State) :
    ∃ ed v s', p.1 = Editor.memory ed ∧ ed.state.Holds v ∧ editorRender ed s = some s' ∧
      (Inside s → Inside s') ∧
        Renders s' v (statusText ed.title ed.modified v.caret.row v.caret.col) ∧
      cell s' s'.cursorRow s'.cursorCol = vgaEntry (v.caret.after.head?.getD 32) 0x07 := by
  have hsound : SoundMemory p :=
    hrun.induct (fun _ _ _ h hstep => h.step hstep.1 hstep.2) (.init hw₀ h₀ hinit)
  obtain ⟨ed, hed, hs⟩ := hsound
  have hstate : ∃ v, ed.state.Holds v := by
    obtain ⟨x, hx⟩ | ⟨v, hv⟩ := hs.usable
    · exact ⟨_, hx.state⟩
    · exact ⟨_, hv.state⟩
  obtain ⟨v, hv⟩ := hstate
  obtain ⟨s', hs', hinside, hrenders⟩ := editorRender_spec hv hs.named s
  exact ⟨ed, v, s', hed, hv, hs', hinside, hrenders, hrenders.atCursor⟩

end

/-- A letter was typed, and its snapshot was refused. -/
theorem editor_shows_typedLetter : typedLetter.2.refusals = 1 ∧
    ∃ ed v s', typedLetter.1 = Editor.memory ed ∧ ed.state.Holds v ∧
    editorRender ed (⟨fun _ => 0, 0, 0, 0, [], []⟩) = some s' ∧
    (Inside (⟨fun _ => 0, 0, 0, 0, [], []⟩) → Inside s') ∧
    Renders s' v (statusText ed.title ed.modified v.caret.row v.caret.col) ∧
    cell s' s'.cursorRow s'.cursorCol = vgaEntry (v.caret.after.head?.getD 32) 0x07 :=
  ⟨by decide +kernel, editor_shows (show (refusing 4).Covered from fun _ => le_rfl)
    ⟨by decide, by decide⟩
    (Option.some_get _).symm typedLetter_run _⟩

end CobraOS.Snake
