import CobraOS.Base.BitArray
import CobraOS.Keyboard.Model
import CobraOS.Screen.Model

/-!
# The keyboard handler, `keyboard_handler` of `arch/x86/drivers/keyboard/keyboard.c`

An interrupt reads one byte of scancode set 1.  It keeps track of the modifiers and of the keys that
are down, and puts the characters of a key that is pressed into the ring, one after the other until
one is refused.  What the handler does to the modifiers does not depend on the ring (`received_eq`):
`keysAfter` is the rest of its state, and `encoding` the characters of a byte.
-/

namespace CobraOS.Keyboard

open Base

abbrev Bytes := List UInt8

/-! ### The key maps, `key_maps.h` -/

/-- The maps agree from the right shift key on. -/
def keyMapRest : List String := [
  "RShift", "Keypad *", "LAlt", " ", "CapsLock",
  "F1", "F2", "F3", "F4", "F5", "F6", "F7", "F8", "F9", "F10", "NumLock", "ScrollLock",
  "Keypad 7", "Keypad 8", "Keypad 9", "Keypad -", "Keypad 4", "Keypad 5", "Keypad 6", "Keypad +",
  "Keypad 1", "Keypad 2", "Keypad 3", "Keypad 0", "Keypad .", "F11", "F12"]

def qwertyLowercaseKeyMap : List String := [
  "ERROR", "ESC", "1", "2", "3", "4", "5", "6", "7", "8", "9", "0", "-", "=", "Backspace", "Tab",
  "q", "w", "e", "r", "t", "y", "u", "i", "o", "p", "[", "]", "ENTER", "LCtrl",
  "a", "s", "d", "f", "g", "h", "j", "k", "l", ";", "'", "`", "LShift",
  "\\", "z", "x", "c", "v", "b", "n", "m", ",", ".", "/"] ++ keyMapRest

def qwertyUppercaseKeyMap : List String := [
  "ERROR", "ESC", "!", "@", "#", "$", "%", "^", "&", "*", "(", ")", "_", "+", "Backspace", "Tab",
  "Q", "W", "E", "R", "T", "Y", "U", "I", "O", "P", "\x7b", "\x7d", "ENTER", "LCtrl",
  "A", "S", "D", "F", "G", "H", "J", "K", "L", ":", "\"", "~", "LShift",
  "|", "Z", "X", "C", "V", "B", "N", "M", "<", ">", "?"] ++ keyMapRest

def azertyLowercaseKeyMap : List String := [
  "ERROR", "ESC", "&", "é", "\"", "'", "(", "-", "è", "_", "ç", "à", ")", "=", "Backspace", "Tab",
  "a", "z", "e", "r", "t", "y", "u", "i", "o", "p", "^", "$", "ENTER", "LCtrl",
  "q", "s", "d", "f", "g", "h", "j", "k", "l", "m", "ù", "`", "LShift",
  "*", "w", "x", "c", "v", "b", "n", ",", ";", ":", "!"] ++ keyMapRest

def azertyUppercaseKeyMap : List String := [
  "ERROR", "ESC", "1", "2", "3", "4", "5", "6", "7", "8", "9", "0", "°", "+", "Backspace", "Tab",
  "A", "Z", "E", "R", "T", "Y", "U", "I", "O", "P", "¨", "£", "ENTER", "LCtrl",
  "Q", "S", "D", "F", "G", "H", "J", "K", "L", "M", "%", "~", "LShift",
  "µ", "W", "X", "C", "V", "B", "N", "?", ".", "/", "§"] ++ keyMapRest

def dvorakLowercaseKeyMap : List String := [
  "ERROR", "ESC", "1", "2", "3", "4", "5", "6", "7", "8", "9", "0", "[", "]", "Backspace", "Tab",
  "'", ",", ".", "p", "y", "f", "g", "c", "r", "l", "/", "=", "ENTER", "LCtrl",
  "a", "o", "e", "u", "i", "d", "h", "t", "n", "s", "-", "`", "LShift",
  "\\", ";", "q", "j", "k", "x", "b", "m", "w", "v", "z"] ++ keyMapRest

def dvorakUppercaseKeyMap : List String := [
  "ERROR", "ESC", "!", "@", "#", "$", "%", "^", "&", "*", "(", ")", "\x7b", "\x7d",
  "Backspace", "Tab",
  "\"", "<", ">", "P", "Y", "F", "G", "C", "R", "L", "?", "+", "ENTER", "LCtrl",
  "A", "O", "E", "U", "I", "D", "H", "T", "N", "S", "_", "~", "LShift",
  "|", ":", "Q", "J", "K", "X", "B", "M", "W", "V", "Z"] ++ keyMapRest

inductive KeyboardLayout
  | qwerty
  | azerty
  | dvorak

/-- `keymap` -/
structure Keymap where
  lowercase : List String
  uppercase : List String

def layouts : KeyboardLayout → Keymap
  | .qwerty => ⟨qwertyLowercaseKeyMap, qwertyUppercaseKeyMap⟩
  | .azerty => ⟨azertyLowercaseKeyMap, azertyUppercaseKeyMap⟩
  | .dvorak => ⟨dvorakLowercaseKeyMap, dvorakUppercaseKeyMap⟩

/-- The bytes of a text. -/
def utf8 (s : String) : Bytes := s.toUTF8.data.toList

/-! ### The state -/

/-- `keyboard_mods_t` -/
structure KeyboardMods where
  shiftLeft : Bool
  shiftRight : Bool
  ctrlLeft : Bool
  ctrlRight : Bool
  altLeft : Bool
  altRight : Bool
  guiLeft : Bool
  guiRight : Bool
  capsLock : Bool
  numLock : Bool
  scrollLock : Bool
  extended : Bool

/-- The static variables but those of the ring; `key_states` are 16 bytes. -/
structure Keys where
  mods : KeyboardMods
  currentLayout : KeyboardLayout
  rebootRequested : Bool
  repeatEvent : Bool
  keyRepeatEnabled : Bool
  keyStates : Nat → BitVec 8

/-- All static variables. -/
structure Driver where
  keys : Keys
  ring : Ring

/-- What the ports `0x64` and `0x60` give: the status, each time it is read, and the byte. -/
structure Port where
  status : Nat → UInt8
  data : UInt8

def shiftActive (k : Keys) : Bool := k.mods.shiftLeft || k.mods.shiftRight

def ctrlActive (k : Keys) : Bool := k.mods.ctrlLeft || k.mods.ctrlRight

def altActive (k : Keys) : Bool := k.mods.altLeft || k.mods.altRight

def keyIsDown (k : Keys) (scancode : UInt8) : Bool :=
  (k.keyStates (scancode >>> 3).toNat &&& (1#8 <<< (scancode &&& 7).toNat)) != 0#8

def keySetDown (k : Keys) (scancode : UInt8) : Keys :=
  let idx := (scancode >>> 3).toNat
  { k with keyStates :=
      Function.update k.keyStates idx (k.keyStates idx ||| (1#8 <<< (scancode &&& 7).toNat)) }

def keyClearDown (k : Keys) (scancode : UInt8) : Keys :=
  let idx := (scancode >>> 3).toNat
  { k with keyStates :=
      Function.update k.keyStates idx (k.keyStates idx &&& ~~~(1#8 <<< (scancode &&& 7).toNat)) }

/-- `init_keyboard` after `set_keyboard_layout`. -/
def initKeyboard (layout : KeyboardLayout) : Keys where
  mods := ⟨false, false, false, false, false, false, false, false, false, false, false, false⟩
  currentLayout := layout
  rebootRequested := false
  repeatEvent := false
  keyRepeatEnabled := true
  keyStates := fun _ => 0#8

/-! ### Characters -/

/-- The result is `none` for the null pointer. -/
def getCharFromScancode (k : Keys) (scancode : UInt8) : Option Bytes :=
  if 128 ≤ scancode then none
  else
    let map := layouts k.currentLayout
    let texts := if shiftActive k != k.mods.capsLock then map.uppercase else map.lowercase
    (texts[scancode.toNat]?).map utf8

/-- `!repeat_event || key_repeat_enabled` -/
def mayRepeat (k : Keys) : Bool := !k.repeatEvent || k.keyRepeatEnabled

/-- `for (p = seq; *p; p++) if (!buffer_put(*p)) break;` -/
def putAll (r : Ring) : Bytes → Ring
  | [] => r
  | c :: seq =>
    match bufferPut r c with
    | (true, r) => putAll r seq
    | (false, r) => r

/-- `seq`, where there is one. -/
def cursorSequence (scancode : UInt8) : Option Bytes :=
  if scancode = 0x48 then some [27, 91, 65]
  else if scancode = 0x50 then some [27, 91, 66]
  else if scancode = 0x4B then some [27, 91, 68]
  else if scancode = 0x4D then some [27, 91, 67]
  else if scancode = 0x47 then some [27, 91, 72]
  else if scancode = 0x4F then some [27, 91, 70]
  else if scancode = 0x53 then some [27, 91, 51, 126]
  else none

def handleCursorMovement (r : Ring) (scancode : UInt8) : Ring :=
  match cursorSequence scancode with
  | some seq => putAll r seq
  | none => r

/-- The character that `process_character` puts into the ring for `c`: with `Ctrl` the letters and
some others become control characters. -/
def controlled (k : Keys) (c : UInt8) : UInt8 :=
  if ctrlActive k && !altActive k then
    let upper := if 97 ≤ c ∧ c ≤ 122 then c - 0x20 else c
    if 64 ≤ upper ∧ upper ≤ 95 then upper - 64 else upper
  else c

def processCharacter (k : Keys) (r : Ring) (scancode : UInt8) : Ring :=
  match getCharFromScancode k scancode with
  | none => r
  | some [] => r
  | some (c :: more) =>
    if scancode = 0x1C then if mayRepeat k then (bufferPut r 10).2 else r
    else if more ≠ [] then r
    else if mayRepeat k then (bufferPut r (controlled k c)).2
    else r

/-! ### The handler -/

/-- `scancode & 0x80` -/
def isRelease (scancode : UInt8) : Bool := scancode &&& 0x80 != 0

/-- `scancode & 0x7F` -/
def baseOf (scancode : UInt8) : UInt8 := scancode &&& 0x7F

def handleSpecialKeys (k : Keys) (scancode : UInt8) (extended : Bool) : Keys :=
  let base := baseOf scancode
  let make := !isRelease scancode
  let m := k.mods
  if base = 0x2A then { k with mods := { m with shiftLeft := make } }
  else if base = 0x36 then { k with mods := { m with shiftRight := make } }
  else if base = 0x1D then
    if extended then { k with mods := { m with ctrlRight := make } }
    else { k with mods := { m with ctrlLeft := make } }
  else if base = 0x38 then
    if extended then { k with mods := { m with altRight := make } }
    else { k with mods := { m with altLeft := make } }
  else if base = 0x5B then { k with mods := { m with guiLeft := make } }
  else if base = 0x5C then { k with mods := { m with guiRight := make } }
  else if base = 0x3A then
    if make && !k.repeatEvent then { k with mods := { m with capsLock := !m.capsLock } } else k
  else if base = 0x45 then
    if make && !k.repeatEvent then { k with mods := { m with numLock := !m.numLock } } else k
  else if base = 0x46 then
    if make && !k.repeatEvent then { k with mods := { m with scrollLock := !m.scrollLock } } else k
  else k

/-- `mods.extended = b` -/
def setExtended (k : Keys) (b : Bool) : Keys := { k with mods := { k.mods with extended := b } }

/-- The key that is pressed or released is noted: `repeat_event`, `key_states` and the modifiers. -/
def noteKey (k : Keys) (scancode : UInt8) : Keys :=
  let k' := { k with repeatEvent := !isRelease scancode && keyIsDown k (baseOf scancode) }
  let k' := if isRelease scancode then keyClearDown k' (baseOf scancode) else keySetDown k'
    (baseOf scancode)
  handleSpecialKeys k' scancode k.mods.extended

/-- `keyboard_handler` from the byte that is read to `cleanup`. -/
def received (kbd : Driver) (scancode : UInt8) : Driver :=
  let ⟨k, r⟩ := kbd
  if scancode = 0xE0 then ⟨setExtended k true, r⟩
  else if scancode = 0xE1 then ⟨setExtended k false, r⟩
  else
    let extended := k.mods.extended
    let base := baseOf scancode
    let k := noteKey k scancode
    if extended then
      let k := setExtended k false
      if isRelease scancode then ⟨k, r⟩
      else if base = 0x1C then ⟨k, if mayRepeat k then (bufferPut r 10).2 else r⟩
      else if base = 0x53 ∧ ctrlActive k = true ∧ altActive k = true ∧ k.repeatEvent = false then
        ⟨{ k with rebootRequested := true }, r⟩
      else ⟨k, if mayRepeat k then handleCursorMovement r base else r⟩
    else if base = 0x0E then
      ⟨k, if !isRelease scancode && mayRepeat k then (bufferPut r 8).2 else r⟩
    else if isRelease scancode then ⟨k, r⟩
    else ⟨k, processCharacter k r scancode⟩

def checkStackIntegrity : Bool := true

/-- The loop that waits for a byte; the result is that `timeout` is not `0`. -/
def waitForByte : Nat → (Nat → UInt8) → Bool
  | 0, _ => false
  | timeout + 1, status =>
    if status 0 &&& 1 = 0 then waitForByte timeout (fun i => status (i + 1)) else true

/-- The keyboard after the interrupt, and what the handler writes to ports.  `fpu_in_use` is
false. -/
def keyboardHandler (kbd : Driver) (port : Port) : Driver × List Screen.Out :=
  if !checkStackIntegrity then (kbd, [])
  else
    let kbd := if waitForByte 1000 port.status then received kbd port.data else kbd
    ({ kbd with ring := cleanup kbd.ring }, [⟨0x20, 0x20⟩])

/-! ### What a byte does to the keys, and what it puts into the ring -/

/-- The keys after a byte. -/
def keysAfter (k : Keys) (scancode : UInt8) : Keys :=
  if scancode = 0xE0 then setExtended k true
  else if scancode = 0xE1 then setExtended k false
  else
    let k' := noteKey k scancode
    if k.mods.extended then
      if isRelease scancode = false ∧ baseOf scancode = 0x53 ∧ ctrlActive k' = true ∧
        altActive k' = true ∧
        k'.repeatEvent = false then { setExtended k' false with rebootRequested := true }
      else setExtended k' false
    else k'

/-- The characters of a key that is pressed. -/
def keyEncoding (k : Keys) (extended : Bool) (scancode : UInt8) : Bytes :=
  if extended then
    if baseOf scancode = 0x1C then [10]
    else if baseOf scancode = 0x53 ∧ ctrlActive k = true ∧ altActive k = true ∧
      k.repeatEvent = false then []
    else (cursorSequence (baseOf scancode)).getD []
  else if baseOf scancode = 0x0E then [8]
  else
    match getCharFromScancode k scancode with
    | none => []
    | some [] => []
    | some (c :: more) =>
      if scancode = 0x1C then [10] else if more ≠ [] then [] else [controlled k c]

/-- The characters that a byte puts into the ring, if there is room. -/
def encoding (k : Keys) (scancode : UInt8) : Bytes :=
  if scancode = 0xE0 ∨ scancode = 0xE1 then []
  else if isRelease scancode || !mayRepeat (noteKey k scancode) then []
  else keyEncoding (noteKey k scancode) k.mods.extended scancode

variable {k : Keys} {r : Ring} {scancode : UInt8}

/-- The modifiers after a key with the code `base`, field by field. -/
def modsAfter (m : KeyboardMods) (repeated extended make : Bool) (base : UInt8) : KeyboardMods :=
  let toggles := make && !repeated
  { shiftLeft := if base = 0x2A then make else m.shiftLeft
    shiftRight := if base = 0x36 then make else m.shiftRight
    ctrlLeft := if base = 0x1D ∧ extended = false then make else m.ctrlLeft
    ctrlRight := if base = 0x1D ∧ extended = true then make else m.ctrlRight
    altLeft := if base = 0x38 ∧ extended = false then make else m.altLeft
    altRight := if base = 0x38 ∧ extended = true then make else m.altRight
    guiLeft := if base = 0x5B then make else m.guiLeft
    guiRight := if base = 0x5C then make else m.guiRight
    capsLock := if base = 0x3A ∧ toggles = true then !m.capsLock else m.capsLock
    numLock := if base = 0x45 ∧ toggles = true then !m.numLock else m.numLock
    scrollLock := if base = 0x46 ∧ toggles = true then !m.scrollLock else m.scrollLock
    extended := m.extended }

/-- Each code belongs to one of the modifiers, or to two that the prefix tells apart. -/
theorem handleSpecialKeys_eq (k : Keys) (scancode : UInt8) (extended : Bool) :
    handleSpecialKeys k scancode extended = { k with
      mods := modsAfter k.mods k.repeatEvent extended (!isRelease scancode)
        (baseOf scancode) } := by
  obtain ⟨m, layout, reboot, repeated, enabled, states⟩ := k
  unfold handleSpecialKeys modsAfter
  generalize baseOf scancode = base
  generalize (!isRelease scancode) = make
  have hall : base = 0x2A ∨ base = 0x36 ∨ base = 0x1D ∨ base = 0x38 ∨ base = 0x5B ∨ base = 0x5C ∨
      base = 0x3A ∨ base = 0x45 ∨ base = 0x46 ∨
        (base ≠ 0x2A ∧ base ≠ 0x36 ∧ base ≠ 0x1D ∧ base ≠ 0x38 ∧
      base ≠ 0x5B ∧ base ≠ 0x5C ∧ base ≠ 0x3A ∧ base ≠ 0x45 ∧ base ≠ 0x46) := by
    by_cases h : base ∈ [0x2A, 0x36, 0x1D, 0x38, 0x5B, 0x5C, 0x3A, 0x45, (0x46 : UInt8)]
    · simp only [List.mem_cons, List.not_mem_nil, or_false] at h
      tauto
    · simp only [List.mem_cons, List.not_mem_nil, or_false, not_or] at h
      tauto
  obtain rfl | rfl | rfl | rfl | rfl | rfl | rfl | rfl | rfl | ⟨h1, h2, h3, h4, h5, h6, h7, h8,
      h9⟩ := hall
  · simp
  · simp
  · cases extended <;> simp
  · cases extended <;> simp
  · simp
  · simp
  · cases make <;> cases repeated <;> simp
  · cases make <;> cases repeated <;> simp
  · cases make <;> cases repeated <;> simp
  · simp [h1, h2, h3, h4, h5, h6, h7, h8, h9]

theorem putAll_single (r : Ring) (c : UInt8) : putAll r [c] = (bufferPut r c).2 := by
  rw [putAll]
  rcases bufferPut r c with ⟨ok, r'⟩
  cases ok <;> rfl

theorem handleCursorMovement_eq (r : Ring) (base : UInt8) :
    handleCursorMovement r base = putAll r ((cursorSequence base).getD []) := by
  rw [handleCursorMovement]
  cases cursorSequence base <;> rfl

theorem processCharacter_eq (k : Keys) (r : Ring) (hbase : baseOf scancode ≠ 0x0E) :
    processCharacter k r scancode = if mayRepeat k then putAll r (keyEncoding k false scancode)
      else r := by
  rw [processCharacter, keyEncoding, if_neg Bool.false_ne_true, if_neg hbase]
  rcases getCharFromScancode k scancode with _ | _ | ⟨c, more⟩
  · exact (ite_self r).symm
  · exact (ite_self r).symm
  · by_cases henter : scancode = 0x1C
    · simp only [if_pos henter, putAll_single]
    by_cases hmore : more ≠ []
    · simp only [if_neg henter, if_pos hmore, putAll, ite_self]
    · simp only [if_neg henter, if_neg hmore, putAll_single]

/-- **One byte** changes the keys, whatever is in the ring, and puts its characters into the
ring. -/
theorem received_eq (k : Keys) (r : Ring) (scancode : UInt8) :
    received ⟨k, r⟩ scancode = ⟨keysAfter k scancode, putAll r (encoding k scancode)⟩ := by
  unfold received keysAfter encoding
  by_cases h0 : scancode = 0xE0
  · simp [h0, putAll]
  by_cases h1 : scancode = 0xE1
  · simp [h1, putAll]
  simp only [h0, h1, if_false, or_self]
  set k' := noteKey k scancode
  cases hext : k.mods.extended with
  | true =>
    cases hrel : isRelease scancode with
    | true => simp [putAll]
    | false =>
      by_cases henter : baseOf scancode = 0x1C
      · have hmay : mayRepeat (setExtended k' false) = mayRepeat k' := rfl
        cases hm : mayRepeat k' <;> simp [henter, keyEncoding, putAll, putAll_single, hmay, hm]
      by_cases hreboot : baseOf scancode = 0x53 ∧ ctrlActive k' = true ∧ altActive k' = true ∧
          k'.repeatEvent = false
      · have hreboot' : baseOf scancode = 0x53 ∧ ctrlActive (setExtended k' false) = true ∧
          altActive (setExtended k' false) = true ∧ (setExtended k' false).repeatEvent = false :=
            hreboot
        have hm : mayRepeat k' = true := by rw [mayRepeat, hreboot.2.2.2]; rfl
        simp only [if_true, Bool.false_eq_true, if_false, henter, if_pos hreboot, if_pos hreboot',
          hm, Bool.not_true, Bool.or_self, keyEncoding, putAll, true_and]
      · have hreboot' : ¬ (baseOf scancode = 0x53 ∧ ctrlActive (setExtended k' false) = true ∧
          altActive (setExtended k' false) = true ∧ (setExtended k' false).repeatEvent = false) :=
            hreboot
        have hmay : mayRepeat (setExtended k' false) = mayRepeat k' := rfl
        simp only [if_true, Bool.false_eq_true, if_false, henter, if_neg hreboot, if_neg hreboot',
          hmay, keyEncoding, handleCursorMovement_eq, true_and, Bool.false_or]
        cases mayRepeat k' <;> simp [putAll]
  | false =>
    cases hrel : isRelease scancode with
    | true => simp [putAll]
    | false =>
      by_cases hbase : baseOf scancode = 0x0E
      · cases hm : mayRepeat k' <;> simp [hbase, keyEncoding, putAll, putAll_single]
      · cases hm : mayRepeat k' <;> simp [hbase, processCharacter_eq, putAll, hm]

/-- **One interrupt**, when there is a byte. -/
theorem keyboardHandler_eq (d : Driver) {port : Port} (h : waitForByte 1000 port.status = true) :
    keyboardHandler d port =
      (⟨keysAfter d.keys port.data, cleanup (putAll d.ring (encoding d.keys port.data))⟩,
        [⟨0x20, 0x20⟩]) := by
  unfold keyboardHandler
  simp only [checkStackIntegrity, Bool.not_true, Bool.false_eq_true, if_false, h, if_true]
  rw [show d = ⟨d.keys, d.ring⟩ from rfl, received_eq]

theorem keyboardHandler_timeout (d : Driver) {port : Port}
    (h : waitForByte 1000 port.status = false) :
    keyboardHandler d port = (⟨d.keys, cleanup d.ring⟩, [⟨0x20, 0x20⟩]) := by
  unfold keyboardHandler
  simp [checkStackIntegrity, h]

/-- A keyboard whose status says that the byte is there. -/
def ready (data : UInt8) : Port := ⟨fun _ => 1, data⟩

theorem ready_status (data : UInt8) : waitForByte 1000 (ready data).status = true := by
  have h : waitForByte 1000 (fun _ => 1) = true := rfl
  exact h

theorem ready_data (data : UInt8) : (ready data).data = data := rfl

end CobraOS.Keyboard
