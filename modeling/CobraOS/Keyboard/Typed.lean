import CobraOS.Keyboard.Whole

/-!
# The keys that are typed

The characters that the driver has for a printable key, for `Enter`, for `Backspace` and for the
keys that move the cursor.  `keyPressed` says which of these keys a byte presses, and
`encoding_typed` that the handler puts its characters, `codes`, into the ring.
-/

namespace CobraOS.Keyboard

/-- A printable key, with its character, or one of the others. -/
inductive TypedKey
  | char (c : UInt8)
  | enter
  | backspace
  | up
  | down
  | left
  | right
  | home
  | «end»
  | delete
  deriving DecidableEq

/-- A printable key has a printable character. -/
def TypedKey.Printable : TypedKey → Prop
  | .char c => 32 ≤ c ∧ c ≤ 126
  | _ => True

/-- The characters of a key. -/
def codes : TypedKey → Bytes
  | .char c => [c]
  | .enter => [10]
  | .backspace => [8]
  | .up => [27, 91, 65]
  | .down => [27, 91, 66]
  | .right => [27, 91, 67]
  | .left => [27, 91, 68]
  | .home => [27, 91, 72]
  | .end => [27, 91, 70]
  | .delete => [27, 91, 51, 126]

/-- The characters of keys. -/
def codesOf (typed : List TypedKey) : Bytes := typed.flatMap codes

/-- The keys with the prefix; `Delete` with `Ctrl` and `Alt` is something else. -/
def cursorKey (k : Keys) (base : UInt8) : Option TypedKey :=
  if base = 0x1C then some .enter
  else if base = 0x48 then some .up
  else if base = 0x50 then some .down
  else if base = 0x4B then some .left
  else if base = 0x4D then some .right
  else if base = 0x47 then some .home
  else if base = 0x4F then some .end
  else if base = 0x53 then
    if ctrlActive k = true ∧ altActive k = true ∧ k.repeatEvent = false then none else some .delete
  else none

/-- The keys without the prefix; with `Ctrl` alone a printable key is something else. -/
def plainKey (k : Keys) (scancode : UInt8) : Option TypedKey :=
  if baseOf scancode = 0x0E then some .backspace
  else if scancode = 0x1C then some .enter
  else
    match getCharFromScancode k scancode with
    | some [c] =>
      if 32 ≤ c ∧ c ≤ 126 ∧ (ctrlActive k && !altActive k) = false then some (.char c) else none
    | _ => none

/-- The key that a byte presses, or repeats when keys are repeated. -/
def keyPressed (k : Keys) (scancode : UInt8) : Option TypedKey :=
  if scancode = 0xE0 ∨ scancode = 0xE1 then none
  else if isRelease scancode || !mayRepeat (noteKey k scancode) then none
  else if k.mods.extended then cursorKey (noteKey k scancode) (baseOf scancode)
  else plainKey (noteKey k scancode) scancode

variable {k : Keys} {key : TypedKey} {scancode : UInt8} {typed : List TypedKey}

theorem codes_ne (key : TypedKey) : codes key ≠ [] := by cases key <;> simp [codes]

@[simp] theorem codesOf_nil : codesOf [] = [] := rfl

@[simp] theorem codesOf_cons (key : TypedKey) (typed : List TypedKey) :
    codesOf (key :: typed) = codes key ++ codesOf typed := rfl

@[simp] theorem codesOf_append (typed typed' : List TypedKey) :
    codesOf (typed ++ typed') = codesOf typed ++ codesOf typed' := List.flatMap_append

/-! ### The handler encodes the keys -/

theorem encoding_cursor (h : cursorKey k (baseOf scancode) = some key) :
    keyEncoding k true scancode = codes key ∧ key.Printable := by
  rw [keyEncoding, if_pos rfl]
  generalize baseOf scancode = base at h ⊢
  unfold cursorKey at h
  split_ifs at h with henter hup hdown hleft hright hhome hend hdelete hchord
  case neg =>
    -- `Delete`, without `Ctrl` and `Alt`
    rw [← Option.some.inj h, hdelete, if_neg (by decide), if_neg (fun hc => hchord hc.2)]
    exact ⟨rfl, trivial⟩
  all_goals
    cases h
    subst base
    exact ⟨rfl, trivial⟩

theorem enter_text (k : Keys) : ∃ c more, getCharFromScancode k 0x1C = some (c :: more) := by
  unfold getCharFromScancode
  rw [if_neg (by decide)]
  dsimp only
  cases k.currentLayout <;> split <;> exact ⟨_, _, rfl⟩

theorem encoding_plain (h : plainKey k scancode = some key) :
    keyEncoding k false scancode = codes key ∧ key.Printable := by
  unfold plainKey at h
  unfold keyEncoding
  rw [if_neg Bool.false_ne_true]
  by_cases hback : baseOf scancode = 0x0E
  · rw [if_pos hback] at h ⊢
    cases h
    exact ⟨rfl, trivial⟩
  rw [if_neg hback] at h ⊢
  by_cases henter : scancode = 0x1C
  · obtain ⟨c, more, htext⟩ := enter_text k
    rw [if_pos henter] at h
    cases h
    subst henter
    rw [htext]
    exact ⟨rfl, trivial⟩
  rw [if_neg henter] at h
  rcases htext : getCharFromScancode k scancode with _ | _ | ⟨c, _ | ⟨d, more⟩⟩
  all_goals rw [htext] at h
  case some.cons.nil =>
    dsimp only at h ⊢
    split at h
    next hprint =>
      cases h
      rw [if_neg henter, if_neg (by simp), controlled,
        if_neg (by rw [hprint.2.2]; exact Bool.false_ne_true)]
      exact ⟨rfl, hprint.1, hprint.2.1⟩
    · cases h
  all_goals cases h

/-- **The handler puts the characters of the key that is pressed into the ring.** -/
theorem encoding_typed (h : keyPressed k scancode = some key) :
    encoding k scancode = codes key ∧ key.Printable := by
  unfold keyPressed at h
  unfold encoding
  split at h
  · cases h
  split at h
  · cases h
  rw [if_neg ‹_›, if_neg ‹_›]
  cases hext : k.mods.extended with
  | true =>
    rw [hext, if_pos rfl] at h
    exact encoding_cursor h
  | false =>
    rw [hext, if_neg Bool.false_ne_true] at h
    exact encoding_plain h

end CobraOS.Keyboard
