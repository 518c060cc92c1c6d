import CobraOS.Keyboard.Handler

/-!
# The modifiers and the keys of the keyboard

A keyboard sends the code of a key when it is pressed, again while it is held, and with the high bit
when it is released; some keys have the prefix `E0`, and `Pause` is a sequence of its own.  The
handler knows keys by their codes without the prefix.  As long as no key with the prefix has the
code of a shift or lock key, and `Pause` is not pressed, the modifiers are those of the keys that
are held (`modifiers_track`).  `Pause` has the codes of `Ctrl` and `NumLock` in it
(`pause_disturbs`).
-/

namespace CobraOS.Keyboard

open Base

/-! ### The keyboard -/

/-- A key, with the prefix `E0` or without. -/
structure Key where
  extended : Bool
  base : UInt8
  deriving DecidableEq

/-- The code of a key is one byte without the high bit, and no release is taken for a prefix. -/
def Key.Valid (key : Key) : Prop := key.base < 128 ∧ key.base ≠ 0x60 ∧ key.base ≠ 0x61

inductive KeyEvent
  | press (key : Key)
  | again (key : Key)
  | release (key : Key)
  | pause

def Key.bytes (key : Key) (code : UInt8) : Bytes := if key.extended then [0xE0, code] else [code]

/-- What the keyboard sends. -/
def KeyEvent.bytes : KeyEvent → Bytes
  | .press key => key.bytes key.base
  | .again key => key.bytes key.base
  | .release key => key.bytes (key.base ||| 0x80)
  | .pause => [0xE1, 0x1D, 0x45, 0xE1, 0x9D, 0xC5]

/-- The driver, the keys that are held, and how often each key has been pressed. -/
structure Desk where
  driver : Driver
  held : Key → Bool
  presses : Key → Nat

/-- One interrupt for each byte; between them the kernel may do anything to the ring. -/
inductive Delivers : Driver → Bytes → Driver → Prop
  | nil (d : Driver) : Delivers d [] d
  | byte {d d' : Driver} {port : Port} {bytes : Bytes} (r : Ring) :
    waitForByte 1000 port.status = true →
      Delivers { (keyboardHandler d port).1 with ring := r } bytes d' →
        Delivers d (port.data :: bytes) d'

/-- A key that is not held can be pressed, one that is held is repeated or released. -/
def Possible (s : Desk) : KeyEvent → Prop
  | .press key => key.Valid ∧ s.held key = false
  | .again key => key.Valid ∧ s.held key = true
  | .release key => key.Valid ∧ s.held key = true
  | .pause => True

def heldAfter (held : Key → Bool) : KeyEvent → Key → Bool
  | .press key => Function.update held key true
  | .release key => Function.update held key false
  | _ => held

def pressesAfter (presses : Key → Nat) : KeyEvent → Key → Nat
  | .press key => Function.update presses key (presses key + 1)
  | _ => presses

/-- Every sequence of key events from `init_keyboard` on. -/
def typing : System Desk KeyEvent where
  init s := (∃ layout, s.driver.keys = initKeyboard layout) ∧ (∀ key, s.held key = false) ∧
    ∀ key, s.presses key = 0
  step s e s' := Possible s e ∧ Delivers s.driver e.bytes s'.driver ∧ s'.held = heldAfter s.held e ∧
    s'.presses = pressesAfter s.presses e

/-! ### What the handler knows of a key -/

/-- The codes that the handler takes for a key whether there is a prefix or not. -/
def sharedCodes : List UInt8 := [0x2A, 0x36, 0x3A, 0x45, 0x46]

/-- No key with the prefix has one of these codes. -/
def Key.Clear (key : Key) : Prop := key.extended = true → key.base ∉ sharedCodes

def KeyEvent.Clear : KeyEvent → Prop
  | .press key => key.Clear
  | .again key => key.Clear
  | .release key => key.Clear
  | .pause => False

/-- The modifier keys that are held, each with its flag. -/
def modifierKeys : List Key :=
  [⟨false, 0x2A⟩, ⟨false, 0x36⟩, ⟨false, 0x1D⟩, ⟨true, 0x1D⟩, ⟨false, 0x38⟩, ⟨true, 0x38⟩]

def flagOf (m : KeyboardMods) (key : Key) : Bool :=
  if key = ⟨false, 0x2A⟩ then m.shiftLeft
  else if key = ⟨false, 0x36⟩ then m.shiftRight
  else if key = ⟨false, 0x1D⟩ then m.ctrlLeft
  else if key = ⟨true, 0x1D⟩ then m.ctrlRight
  else if key = ⟨false, 0x38⟩ then m.altLeft
  else m.altRight

def lockCodes : List UInt8 := [0x3A, 0x45, 0x46]

def lockOf (m : KeyboardMods) (code : UInt8) : Bool :=
  if code = 0x3A then m.capsLock else if code = 0x45 then m.numLock else m.scrollLock

/-- What the handler knows: the flags of the keys that are held, and the locks. -/
structure Tracks (k : Keys) (held : Key → Bool) (presses : Key → Nat) : Prop where
  extended : k.mods.extended = false
  flags : ∀ key ∈ modifierKeys, flagOf k.mods key = held key
  locks : ∀ code ∈ lockCodes, lockOf k.mods code = decide (presses ⟨false, code⟩ % 2 = 1)
  down : ∀ code ∈ lockCodes, keyIsDown k code = held ⟨false, code⟩

variable {k : Keys} {held : Key → Bool} {presses : Key → Nat} {key : Key} {code scancode : UInt8}

/-! ### Codes -/

theorem baseOf_press (h : code < 128) : baseOf code = code ∧ isRelease code = false := by
  have hall : ∀ n : Fin 256, (n : Nat) < 128 →
      baseOf (UInt8.ofNat n) = UInt8.ofNat n ∧ isRelease (UInt8.ofNat n) = false := by
        decide +kernel
  have := hall ⟨code.toNat, code.toNat_lt⟩ h
  simpa using this

theorem baseOf_release (h : code < 128) : baseOf (code ||| 0x80) = code ∧
    isRelease (code ||| 0x80) = true := by
  have hall : ∀ n : Fin 256, (n : Nat) < 128 → baseOf (UInt8.ofNat n ||| 0x80) = UInt8.ofNat n ∧
      isRelease (UInt8.ofNat n ||| 0x80) = true := by decide +kernel
  have := hall ⟨code.toNat, code.toNat_lt⟩ h
  simpa using this

theorem scancode_index (code : UInt8) :
    (code >>> 3).toNat = code.toNat / 8 ∧ (code &&& 7).toNat = code.toNat % 8 := by
  constructor
  · rw [UInt8.toNat_shiftRight]
    simp [Nat.shiftRight_eq_div_pow]
  · rw [UInt8.toNat_and]
    exact Nat.and_two_pow_sub_one_eq_mod code.toNat 3

theorem keyIsDown_eq (k : Keys) (code : UInt8) :
    keyIsDown k code = bitAt k.keyStates code.toNat := by
  rw [keyIsDown, (scancode_index code).1, (scancode_index code).2]
  rfl

theorem code_plain (h : code < 128) : code ≠ 0xE0 ∧ code ≠ 0xE1 := by
  constructor
  · rintro rfl
    exact absurd h (by decide)
  · rintro rfl
    exact absurd h (by decide)

theorem release_plain (h : code < 128) (h0 : code ≠ 0x60) (h1 : code ≠ 0x61) :
    code ||| 0x80 ≠ 0xE0 ∧ code ||| 0x80 ≠ 0xE1 := by
  have hbase := (baseOf_release h).1
  constructor
  · intro he
    rw [he] at hbase
    exact h0 hbase.symm
  · intro he
    rw [he] at hbase
    exact h1 hbase.symm

/-! ### A key that is noted -/

theorem keyIsDown_set (k : Keys) (code scancode : UInt8) :
    keyIsDown (keySetDown k scancode) code = (keyIsDown k code || decide (code = scancode)) := by
  have hset : (keySetDown k scancode).keyStates = setBitAt k.keyStates scancode.toNat := by
    simp only [keySetDown, scancode_index]
    rfl
  rw [keyIsDown_eq, keyIsDown_eq, hset, bitAt_setBitAt (by decide)]
  simp only [UInt8.toNat_inj]

theorem keyIsDown_clear (k : Keys) (code scancode : UInt8) :
    keyIsDown (keyClearDown k scancode) code = (keyIsDown k code && decide (code ≠ scancode)) := by
  have hclear : (keyClearDown k scancode).keyStates = clearBitAt k.keyStates scancode.toNat := by
    simp only [keyClearDown, scancode_index]
    rfl
  rw [keyIsDown_eq, keyIsDown_eq, hclear, bitAt_clearBitAt (by decide)]
  simp only [ne_eq, UInt8.toNat_inj]

/-- **The flags of the modifier keys**: each is written by its own key, when codes are not
shared. -/
theorem flagOf_modsAfter (m : KeyboardMods) (repeated make : Bool) {extended : Bool}
    (hkey : key ∈ modifierKeys) (hclear : extended = true → code ∉ sharedCodes) :
    flagOf (modsAfter m repeated extended make code) key =
      if key = ⟨extended, code⟩ then make else flagOf m key := by
  simp only [modifierKeys, List.mem_cons, List.not_mem_nil, or_false] at hkey
  simp only [sharedCodes, List.mem_cons, List.not_mem_nil, or_false, not_or] at hclear
  obtain rfl | rfl | rfl | rfl | rfl | rfl := hkey <;>
    cases extended <;> simp [flagOf, modsAfter] <;> grind

/-- **A lock** changes when its code is pressed and is not a repetition. -/
theorem lockOf_modsAfter (m : KeyboardMods) (repeated extended make : Bool) (code : UInt8)
    {lock : UInt8} (hlock : lock ∈ lockCodes) :
    lockOf (modsAfter m repeated extended make code) lock =
      if lock = code ∧ make = true ∧ repeated = false then !lockOf m lock else lockOf m lock := by
  simp only [lockCodes, List.mem_cons, List.not_mem_nil, or_false] at hlock
  obtain rfl | rfl | rfl := hlock <;> simp [lockOf, modsAfter] <;> grind

theorem noteKey_mods (k : Keys) (scancode : UInt8) : (noteKey k scancode).mods =
    modsAfter k.mods (!isRelease scancode && keyIsDown k (baseOf scancode)) k.mods.extended
      (!isRelease scancode) (baseOf scancode) := by
  rw [noteKey, handleSpecialKeys_eq]
  cases isRelease scancode <;> rfl

theorem keyIsDown_congr {k k' : Keys} (h : k'.keyStates = k.keyStates) (code : UInt8) :
    keyIsDown k' code = keyIsDown k code := by
  rw [keyIsDown, keyIsDown, h]

theorem noteKey_down (k : Keys) (scancode code : UInt8) : keyIsDown (noteKey k scancode) code =
    if isRelease scancode then keyIsDown k code && decide (code ≠ baseOf scancode)
    else keyIsDown k code || decide (code = baseOf scancode) := by
  rw [noteKey, handleSpecialKeys_eq]
  cases isRelease scancode with
  | true => exact keyIsDown_clear _ _ _
  | false => exact keyIsDown_set _ _ _

/-! ### A key event -/

theorem lock_shared {code : UInt8} (h : code ∈ lockCodes) : code ∈ sharedCodes := by
  simp only [lockCodes, sharedCodes, List.mem_cons, List.not_mem_nil, or_false] at h ⊢
  tauto

/-- **The step lemma**: a key is pressed, repeated or released. -/
theorem Tracks.strike {k' : Keys} (released : Bool) (h : Tracks k held presses) (hclear : key.Clear)
    (hmods : k'.mods =
      { modsAfter k.mods (!released && keyIsDown k key.base) key.extended (!released) key.base
      with extended := false })
    (hdown : ∀ code, keyIsDown k' code = if released then keyIsDown k code && decide
      (code ≠ key.base)
      else keyIsDown k code || decide (code = key.base)) :
    Tracks k' (Function.update held key (!released)) (if released = false ∧ held key = false
      then Function.update presses key (presses key + 1) else presses) := by
  -- a lock code that is pressed is that of the key without the prefix
  have hlock : ∀ {code}, code ∈ lockCodes → code = key.base → (⟨false, code⟩ : Key) = key := by
    intro code hcode hbase
    cases hext : key.extended with
    | true => exact absurd (hbase ▸ lock_shared hcode) (hclear hext)
    | false => rw [hbase, ← hext]
  have hother : ∀ {code}, code ≠ key.base → (⟨false, code⟩ : Key) ≠ key := by
    intro code hcode he
    exact hcode (congrArg Key.base he)
  refine ⟨by rw [hmods], fun key' hkey' => ?_, fun code hcode => ?_, fun code hcode => ?_⟩
  · have hflag :=
      flagOf_modsAfter k.mods (!released && keyIsDown k key.base) (!released) hkey' hclear
    rw [hmods]
    refine Eq.trans hflag ?_
    by_cases he : key' = key
    · rw [he, if_pos rfl, Function.update_self]
    · rw [if_neg he, Function.update_of_ne he]
      exact h.flags key' hkey'
  · have hl := lockOf_modsAfter k.mods (!released && keyIsDown k key.base) key.extended (!released)
      key.base hcode
    rw [hmods]
    refine Eq.trans hl ?_
    by_cases hbase : code = key.base
    · have hkey := hlock hcode hbase
      have hheld : keyIsDown k key.base = held key := by
        have hd := h.down code hcode
        rwa [hkey, hbase] at hd
      have hpar := h.locks code hcode
      rw [hkey] at hpar
      rw [hheld, hpar, hkey]
      cases released with
      | true => simp
      | false =>
        cases hk : held key with
        | true => simp
        | false =>
          simp only [hbase, Bool.not_false, Bool.and_false, and_self, if_true, Function.update_self]
          rw [← decide_not, decide_eq_decide]
          omega
    · have hkey := hother hbase
      rw [if_neg (fun hc => hbase hc.1), h.locks code hcode]
      split
      · rw [Function.update_of_ne hkey]
      · rfl
  · rw [hdown, h.down code hcode]
    by_cases hbase : code = key.base
    · rw [hlock hcode hbase, Function.update_self, hbase]
      cases released <;> simp
    · rw [Function.update_of_ne (hother hbase)]
      cases released <;> simp [hbase]

theorem Delivers.keys {d d' : Driver} {bytes : Bytes} (h : Delivers d bytes d') :
    d'.keys = bytes.foldl keysAfter d.keys := by
  induction h with
  | nil d => rfl
  | byte r hready _ ih =>
    rw [ih, List.foldl_cons, keyboardHandler_eq _ hready]

theorem keysAfter_extended (k : Keys) (hcodes : code ≠ 0xE0 ∧ code ≠ 0xE1) :
    (keysAfter (setExtended k true) code).mods =
      (setExtended (noteKey (setExtended k true) code) false).mods ∧
      (keysAfter (setExtended k true) code).keyStates =
        (noteKey (setExtended k true) code).keyStates := by
  have hext : (setExtended k true).mods.extended = true := rfl
  simp only [keysAfter, if_neg hcodes.1, if_neg hcodes.2, if_pos hext]
  constructor
  · split <;> rfl
  · split <;> rfl

theorem bytes_mods (key : Key) (hext : k.mods.extended = false)
    (hcodes : code ≠ 0xE0 ∧ code ≠ 0xE1) :
    ((key.bytes code).foldl keysAfter k).mods =
      { modsAfter k.mods (!isRelease code && keyIsDown k (baseOf code)) key.extended
          (!isRelease code) (baseOf code) with extended := false } := by
  cases hkey : key.extended with
  | false =>
    have hk : (key.bytes code).foldl keysAfter k = noteKey k code := by
      simp [Key.bytes, hkey, keysAfter, hcodes, hext]
    rw [hk, noteKey_mods, hext]
    simp [modsAfter, hext]
  | true =>
    have hk : ((key.bytes code).foldl keysAfter k).mods =
        (setExtended (noteKey (setExtended k true) code) false).mods := by
      rw [Key.bytes, if_pos hkey]
      exact (keysAfter_extended k hcodes).1
    rw [hk, setExtended, noteKey_mods]
    rfl

/-- The keys after the code of a key with its prefix: those that are down. -/
theorem bytes_down (key : Key) (hext : k.mods.extended = false) (hcodes : code ≠ 0xE0 ∧ code ≠ 0xE1)
    (code' : UInt8) :
    keyIsDown ((key.bytes code).foldl keysAfter k) code' =
      if isRelease code then keyIsDown k code' && decide (code' ≠ baseOf code)
      else keyIsDown k code' || decide (code' = baseOf code) := by
  cases hkey : key.extended with
  | false =>
    have hk : (key.bytes code).foldl keysAfter k = noteKey k code := by
      simp [Key.bytes, hkey, keysAfter, hcodes, hext]
    rw [hk, noteKey_down]
  | true =>
    have hk : ((key.bytes code).foldl keysAfter k).keyStates =
        (noteKey (setExtended k true) code).keyStates := by
      rw [Key.bytes, if_pos hkey]
      exact (keysAfter_extended k hcodes).2
    rw [keyIsDown_congr hk, noteKey_down]
    rfl

/-- **The step lemma**: whatever key event comes, if its codes are not shared. -/
theorem Tracks.step {s s' : Desk} {e : KeyEvent} (h : Tracks s.driver.keys s.held s.presses)
    (hclear : e.Clear) (hstep : typing.step s e s') : Tracks s'.driver.keys s'.held s'.presses := by
  obtain ⟨hpossible, hdelivers, hheld, hpresses⟩ := hstep
  rw [hheld, hpresses, hdelivers.keys]
  cases e with
  | pause => exact absurd hclear id
  | press key =>
    obtain ⟨hvalid, hup⟩ := hpossible
    have hcode := baseOf_press hvalid.1
    have hmods := bytes_mods key h.extended (code_plain hvalid.1)
    have hdown := bytes_down key h.extended (code_plain hvalid.1)
    rw [hcode.1, hcode.2] at hmods hdown
    have := h.strike false hclear hmods hdown
    rwa [if_pos ⟨rfl, hup⟩] at this
  | again key =>
    obtain ⟨hvalid, hheld⟩ := hpossible
    have hcode := baseOf_press hvalid.1
    have hmods := bytes_mods key h.extended (code_plain hvalid.1)
    have hdown := bytes_down key h.extended (code_plain hvalid.1)
    rw [hcode.1, hcode.2] at hmods hdown
    have := h.strike false hclear hmods hdown
    rw [if_neg (by simp [hheld])] at this
    have hsame : Function.update s.held key true = s.held := by
      rw [← hheld, Function.update_eq_self]
    rwa [Bool.not_false, hsame] at this
  | release key =>
    obtain ⟨hvalid, -⟩ := hpossible
    have hcode := baseOf_release hvalid.1
    have hcodes := release_plain hvalid.1 hvalid.2.1 hvalid.2.2
    have hmods := bytes_mods key h.extended hcodes
    have hdown := bytes_down key h.extended hcodes
    rw [hcode.1, hcode.2] at hmods hdown
    have := h.strike true hclear hmods hdown
    rwa [if_neg (by simp)] at this

theorem Tracks.start (layout : KeyboardLayout) {held : Key → Bool} {presses : Key → Nat}
    (hheld : ∀ key, held key = false) (hpresses : ∀ key, presses key = 0) :
    Tracks (initKeyboard layout) held presses where
  extended := rfl
  flags key hkey := by
    rw [hheld]
    simp only [modifierKeys, List.mem_cons, List.not_mem_nil, or_false] at hkey
    obtain rfl | rfl | rfl | rfl | rfl | rfl := hkey <;> rfl
  locks code hcode := by
    rw [hpresses]
    simp only [lockCodes, List.mem_cons, List.not_mem_nil, or_false] at hcode
    obtain rfl | rfl | rfl := hcode <;> rfl
  down code hcode := by
    rw [hheld, keyIsDown_eq]
    simp [bitAt, initKeyboard]

theorem delivers_foldl (k : Keys) (r : Ring) (bytes : Bytes) :
    Delivers ⟨k, r⟩ bytes ⟨bytes.foldl keysAfter k, r⟩ := by
  induction bytes generalizing k with
  | nil => exact .nil _
  | cons c bytes ih =>
    refine .byte r (ready_status c) ?_
    rw [keyboardHandler_eq _ (ready_status c)]
    exact ih (keysAfter k c)

/-- The handler knows the keys in every state of a run without `Pause` and without shared codes. -/
theorem tracks_reach {s : Desk} (h : (typing.restrict fun _ e => e.Clear).Reach s) :
    Tracks s.driver.keys s.held s.presses := by
  induction h with
  | init hinit =>
    obtain ⟨⟨layout, hkeys⟩, hheld, hpresses⟩ := hinit
    rw [hkeys]
    exact .start layout hheld hpresses
  | step _ hstep ih => exact ih.step hstep.1 hstep.2

/-! ### The modifiers -/

/-- What the modifiers say of the keyboard: `Ctrl` and `Alt` are two keys each that the prefix tells
apart, the keys for `Shift` and the locks have no prefix. -/
structure Reported (k : Keys) (held : Key → Bool) (presses : Key → Nat) : Prop where
  ctrl : ctrlActive k = true ↔ ∃ key, held key = true ∧ key.base = 0x1D
  alt : altActive k = true ↔ ∃ key, held key = true ∧ key.base = 0x38
  shift : shiftActive k = true ↔ held ⟨false, 0x2A⟩ = true ∨ held ⟨false, 0x36⟩ = true
  caps : k.mods.capsLock = decide (presses ⟨false, 0x3A⟩ % 2 = 1)
  num : k.mods.numLock = decide (presses ⟨false, 0x45⟩ % 2 = 1)
  scroll : k.mods.scrollLock = decide (presses ⟨false, 0x46⟩ % 2 = 1)

theorem held_base {held : Key → Bool} {base : UInt8} : (∃ key, held key = true ∧ key.base = base) ↔
    held ⟨false, base⟩ = true ∨ held ⟨true, base⟩ = true := by
  constructor
  · rintro ⟨⟨extended, base'⟩, hheld, rfl⟩
    cases extended with
    | false => exact .inl hheld
    | true => exact .inr hheld
  · rintro (h | h)
    · exact ⟨_, h, rfl⟩
    · exact ⟨_, h, rfl⟩

theorem Tracks.reported (h : Tracks k held presses) : Reported k held presses where
  ctrl := by
    have hl := h.flags ⟨false, 0x1D⟩ (by decide)
    have hr := h.flags ⟨true, 0x1D⟩ (by decide)
    rw [held_base, ← hl, ← hr, ctrlActive, Bool.or_eq_true]
    rfl
  alt := by
    have hl := h.flags ⟨false, 0x38⟩ (by decide)
    have hr := h.flags ⟨true, 0x38⟩ (by decide)
    rw [held_base, ← hl, ← hr, altActive, Bool.or_eq_true]
    rfl
  shift := by
    have hl := h.flags ⟨false, 0x2A⟩ (by decide)
    have hr := h.flags ⟨false, 0x36⟩ (by decide)
    rw [← hl, ← hr, shiftActive, Bool.or_eq_true]
    rfl
  caps := h.locks 0x3A (by decide)
  num := h.locks 0x45 (by decide)
  scroll := h.locks 0x46 (by decide)

/-- **The modifiers are those of the keyboard** in every state of a run in which `Pause` is not
pressed and no key with the prefix has a shared code. -/
theorem modifiers_track {s : Desk} (h : (typing.restrict fun _ e => e.Clear).Reach s) :
    Reported s.driver.keys s.held s.presses :=
  (tracks_reach h).reported

/-- The keyboard after `init_keyboard`. -/
def freshDesk : Desk :=
  ⟨⟨initKeyboard .qwerty, ⟨fun _ => 0, 0, 0, false⟩⟩, fun _ => false, fun _ => 0⟩

theorem freshDesk_init : typing.init freshDesk := ⟨⟨.qwerty, rfl⟩, fun _ => rfl, fun _ => rfl⟩

/-- The keyboard after a key event. -/
def Desk.after (s : Desk) (e : KeyEvent) : Desk :=
  ⟨⟨e.bytes.foldl keysAfter s.driver.keys, s.driver.ring⟩, heldAfter s.held e,
    pressesAfter s.presses e⟩

theorem Desk.after_step {s : Desk} {e : KeyEvent} (h : Possible s e) :
    typing.step s e (s.after e) :=
  ⟨h, delivers_foldl _ _ _, rfl, rfl⟩

theorem modifiers_track_ctrl :
    (typing.restrict fun _ e => e.Clear).Reach (freshDesk.after (.press ⟨true, 0x1D⟩)) ∧
    ctrlActive (freshDesk.after (.press ⟨true, 0x1D⟩)).driver.keys = true := by
  have hclear : (KeyEvent.press ⟨true, 0x1D⟩).Clear := by
    intro _
    decide
  have hreach :
      (typing.restrict fun _ e => e.Clear).Reach (freshDesk.after (.press ⟨true, 0x1D⟩)) :=
    .step (.init freshDesk_init) ⟨hclear, Desk.after_step ⟨by unfold Key.Valid; decide, rfl⟩⟩
  exact ⟨hreach, (modifiers_track hreach).ctrl.mpr ⟨⟨true, 0x1D⟩, by decide, rfl⟩⟩

/-- `Pause` changes `num_lock`, and `NumLock` has not been pressed. -/
theorem pause_disturbs : ¬ ∀ s, typing.Reach s → Reported s.driver.keys s.held s.presses := by
  intro hall
  have hreach : typing.Reach (freshDesk.after .pause) :=
    .step (.init freshDesk_init) (Desk.after_step trivial)
  have hnum : (freshDesk.after .pause).driver.keys.mods.numLock = true := by decide +kernel
  have hzero : decide ((freshDesk.after .pause).presses ⟨false, 0x45⟩ % 2 = 1) = false := rfl
  have hreported := (hall _ hreach).num
  rw [hnum, hzero] at hreported
  exact absurd hreported (by decide)

end CobraOS.Keyboard
