import CobraOS.Keyboard.Client
import CobraOS.Snake.Run

/-!
# Key events, `kbd_read_event` in `arch/x86/snake/snake.c`

The function is a program that reads the keyboard: `Place` says which call it makes next.  It is
called again and again, and `events` are those it has returned.  Each key that is typed gives one
event (`reads_event`), since the characters of a key are in the ring when the first of them is.
-/

namespace CobraOS.Snake

open Base
open Keyboard (Program Call TypedKey codes codesOf Partway Follows Ranked)
open Ramfs (Bytes)

/-- The value of `timeout` before a loop. -/
def eventTimeout : Nat := 100000

/-- The next call: `keyboard_has_char` in one of the loops or conditions, or `keyboard_get_char` for
`c`, `c1`, `c2` or `c3`. -/
inductive Place
  | waitFirst
  | getFirst
  | hasSecond
  | getSecond
  | waitThird (timeout : Nat)
  | hasThird
  | getThird
  | waitFourth (c2 : UInt8) (timeout : Nat)
  | hasFourth (c2 : UInt8)
  | getFourth (c2 : UInt8)

structure Reader where
  place : Place
  events : List KeyEvent

/-- `kbd_read_event` goes on. -/
def Reader.goto (r : Reader) (place : Place) : Reader := { r with place := place }

/-- `kbd_read_event` returns, and is called again. -/
def Reader.give (r : Reader) (ev : KeyEvent) : Reader := ⟨.waitFirst, r.events ++ [ev]⟩

/-- A character that is not `ESC`. -/
def plainEvent (c : UInt8) : KeyEvent :=
  if c = 8 ∨ c = 127 then .special .backspace
  else if c = 10 ∨ c = 13 then .special .enter
  else .char c

/-- `c2` when it is a letter. -/
def letterEvent (c : UInt8) : Option SpecialKey :=
  if c = 65 then some .up
  else if c = 66 then some .down
  else if c = 67 then some .right
  else if c = 68 then some .left
  else if c = 72 then some .home
  else if c = 70 then some .end
  else none

/-- `switch (c2)` -/
def digitEvent (c : UInt8) : Option SpecialKey :=
  if c = 51 then some .delete
  else if c = 53 then some .pageUp
  else if c = 54 then some .pageDown
  else if c = 49 ∨ c = 55 then some .home
  else if c = 52 ∨ c = 56 then some .end
  else none

def Place.call : Place → Call
  | .getFirst => .get
  | .getSecond => .get
  | .getThird => .get
  | .getFourth _ => .get
  | _ => .has

/-- After `keyboard_has_char`. -/
def Reader.said (r : Reader) (b : Bool) : Reader :=
  match r.place with
  | .waitFirst => if b then r.goto .getFirst else r
  | .hasSecond => if b then r.goto .getSecond else r.give (.special .esc)
  | .waitThird timeout =>
    if b then r.goto .hasThird else if 0 < timeout then r.goto (.waitThird (timeout - 1))
      else r.goto .hasThird
  | .hasThird => if b then r.goto .getThird else r.goto .waitFirst
  | .waitFourth c2 timeout =>
    if b then r.goto (.hasFourth c2)
    else if 0 < timeout then r.goto (.waitFourth c2 (timeout - 1))
    else r.goto (.hasFourth c2)
  | .hasFourth c2 => if b then r.goto (.getFourth c2) else r.goto .waitFirst
  | _ => r

/-- After `keyboard_get_char`. -/
def Reader.got (r : Reader) (c : UInt8) : Reader :=
  match r.place with
  | .getFirst => if c = 27 then r.goto .hasSecond else r.give (plainEvent c)
  | .getSecond => if c = 91 then r.goto (.waitThird eventTimeout) else r.goto .waitFirst
  | .getThird =>
    match letterEvent c with
    | some key => r.give (.special key)
    | none => if 49 ≤ c ∧ c ≤ 57 then r.goto (.waitFourth c eventTimeout) else r.goto .waitFirst
  | .getFourth c2 =>
    if c = 126 then
      match digitEvent c2 with
      | some key => r.give (.special key)
      | none => r.goto .waitFirst
    else r.goto .waitFirst
  | _ => r

def kbdReadEvent : Program Reader where
  call r := r.place.call
  said := Reader.said
  got := Reader.got

/-- The event of a key. -/
def eventOf : TypedKey → KeyEvent
  | .char c => .char c
  | .enter => .special .enter
  | .backspace => .special .backspace
  | .up => .special .up
  | .down => .special .down
  | .left => .special .left
  | .right => .special .right
  | .home => .special .home
  | .end => .special .end
  | .delete => .special .delete

/-- The characters of the key that is being read. -/
def Place.part : Place → Bytes
  | .waitFirst => []
  | .getFirst => []
  | .hasSecond => [27]
  | .getSecond => [27]
  | .waitThird _ => [27, 91]
  | .hasThird => [27, 91]
  | .getThird => [27, 91]
  | .waitFourth c2 _ => [27, 91, c2]
  | .hasFourth c2 => [27, 91, c2]
  | .getFourth c2 => [27, 91, c2]

/-- Each key in `done` has given its event, and of the next one a part has been read. -/
structure ReadUpTo (typed done : List TypedKey) (r : Reader) (seen : Bytes) : Prop where
  partway : Partway typed done seen r.place.part
  events : r.events = done.map eventOf

def Reads (typed : List TypedKey) (r : Reader) (seen : Bytes) : Prop :=
  ∃ done, ReadUpTo typed done r seen

variable {typed done : List TypedKey} {r : Reader} {seen : Bytes} {c : UInt8} {place : Place}

/-! ### One answer -/

theorem ReadUpTo.grow (h : ReadUpTo typed done r seen) (key : TypedKey) :
    ReadUpTo (typed ++ [key]) done r seen where
  partway := ⟨h.partway.reached.trans (List.prefix_append _ _), h.partway.seen,
    h.partway.begun.imp_right fun ⟨key', tail, hdone, hcodes, htail⟩ =>
      ⟨key', tail, hdone.trans (List.prefix_append _ _), hcodes, htail⟩⟩
  events := h.events

theorem ReadUpTo.goto (h : ReadUpTo typed done r seen) (hpart : place.part = r.place.part) :
    ReadUpTo typed done (r.goto place) seen :=
  ⟨by rw [Reader.goto, hpart]; exact h.partway, h.events⟩

theorem Reads.said_true (h : Reads typed r seen) : Reads typed (r.said true) seen := by
  obtain ⟨done, h⟩ := h
  refine ⟨done, ?_⟩
  unfold Reader.said
  cases hplace : r.place with
  | waitFirst => exact h.goto (by rw [hplace]; rfl)
  | hasSecond => exact h.goto (by rw [hplace]; rfl)
  | waitThird timeout => exact h.goto (by rw [hplace]; rfl)
  | hasThird => exact h.goto (by rw [hplace]; rfl)
  | waitFourth c2 timeout => exact h.goto (by rw [hplace]; rfl)
  | hasFourth c2 => exact h.goto (by rw [hplace]; rfl)
  | _ => exact h

/-- When all characters have been read, no key has been read in part. -/
theorem ReadUpTo.part_nil (h : ReadUpTo typed done r (codesOf typed)) : r.place.part = [] := by
  rcases h.partway.begun with hnil | ⟨key, tail, ⟨more, hmore⟩, hcodes, htail⟩
  · exact hnil
  exfalso
  have hlen := congrArg List.length h.partway.seen
  have hpos : 0 < tail.length := List.length_pos_iff.mpr htail
  rw [← hmore] at hlen
  simp only [Keyboard.codesOf_append, Keyboard.codesOf_cons, hcodes, List.length_append] at hlen
  omega

theorem Reads.said_false (h : Reads typed r (codesOf typed)) (hcall : r.place.call = .has) :
    Reads typed (r.said false) (codesOf typed) ∧ (r.said false).place.call = .has := by
  obtain ⟨done, h⟩ := h
  have hpart := h.part_nil
  have hsame : r.said false = r := by
    unfold Reader.said
    cases hplace : r.place with
    | waitFirst => rfl
    | getFirst => rfl
    | _ => exact absurd (hplace ▸ hpart) (List.cons_ne_nil _ _)
  rw [hsame]
  exact ⟨⟨done, h⟩, hcall⟩

theorem ReadUpTo.give {key : TypedKey} (h : ReadUpTo typed done r seen)
    (hdone : done ++ [key] <+: typed) (hcodes : codes key = r.place.part ++ [c]) :
    ReadUpTo typed (done ++ [key]) (r.give (eventOf key)) (seen ++ [c]) where
  partway := by
    refine ⟨hdone, ?_, .inl rfl⟩
    rw [h.partway.seen, List.append_assoc, ← hcodes]
    simp [codesOf, Reader.give, Place.part]
  events := by rw [Reader.give, h.events, List.map_append, List.map_singleton]

theorem ReadUpTo.more {key : TypedKey} {tail : Bytes} (h : ReadUpTo typed done r seen)
    (hdone : done ++ [key] <+: typed) (hcodes : codes key = r.place.part ++ c :: tail)
    (htail : tail ≠ []) (hpart : place.part = r.place.part ++ [c]) :
    ReadUpTo typed done (r.goto place) (seen ++ [c]) where
  partway := by
    refine ⟨h.partway.reached, ?_, .inr ⟨key, tail, hdone, ?_, htail⟩⟩
    · rw [h.partway.seen, Reader.goto, hpart, List.append_assoc]
    · rw [hcodes, Reader.goto, hpart, List.append_assoc]
      rfl
  events := h.events

theorem ReadUpTo.next {rest : Bytes} (h : ReadUpTo typed done r seen)
    (hrest : codesOf typed = seen ++ c :: rest) :
    ∃ key tail, done ++ [key] <+: typed ∧ codes key = r.place.part ++ c :: tail := by
  obtain ⟨key, tail, ⟨more, hmore⟩, hcodes, htail⟩ : ∃ key tail, done ++ [key] <+: typed ∧
      codes key = r.place.part ++ tail ∧ tail ≠ [] := by
    rcases h.partway.begun with hnil | hbegun
    · obtain ⟨after, hafter⟩ := h.partway.reached
      cases after with
      | nil =>
        rw [h.partway.seen, hnil, ← hafter] at hrest
        simp [codesOf] at hrest
      | cons key more =>
        exact ⟨key, codes key, ⟨more, by rw [← hafter]; simp⟩, by rw [hnil]; rfl,
          Keyboard.codes_ne key⟩
    · exact hbegun
  have hnext : tail ++ codesOf more = c :: rest := by
    rw [h.partway.seen, ← hmore] at hrest
    simpa [codesOf, hcodes] using hrest
  cases tail with
  | nil => exact absurd rfl htail
  | cons d tail =>
    cases hnext
    exact ⟨key, tail, ⟨more, hmore⟩, hcodes⟩

/-! ### The characters of a key -/

/-- Only the keys with an escape sequence start with `ESC`; the others are one character. -/
theorem codes_first {key : TypedKey} {tail : Bytes} (hkey : key.Printable)
    (h : codes key = c :: tail) :
    if c = 27 then tail ≠ [] else plainEvent c = eventOf key ∧ tail = [] := by
  cases key with
  | char d =>
    cases h
    have hprint : 32 ≤ c ∧ c ≤ 126 := hkey
    have hplain : c ≠ 27 ∧ c ≠ 8 ∧ c ≠ 127 ∧ c ≠ 10 ∧ c ≠ 13 := by
      refine ⟨?_, ?_, ?_, ?_, ?_⟩ <;> rintro rfl <;> exact absurd hprint (by decide)
    rw [if_neg hplain.1, plainEvent, if_neg (by simp [hplain]), if_neg (by simp [hplain])]
    exact ⟨rfl, rfl⟩
  | enter =>
    cases h
    exact ⟨rfl, rfl⟩
  | backspace =>
    cases h
    exact ⟨rfl, rfl⟩
  | _ =>
    cases h
    exact List.cons_ne_nil _ _

theorem codes_second {key : TypedKey} {tail : Bytes} (h : codes key = 27 :: c :: tail) :
    c = 91 ∧ tail ≠ [] := by
  cases key <;> cases h <;> exact ⟨rfl, List.cons_ne_nil _ _⟩

theorem codes_third {key : TypedKey} {tail : Bytes} (h : codes key = 27 :: 91 :: c :: tail) :
    (∃ special, letterEvent c = some special ∧ eventOf key = .special special ∧ tail = []) ∨
      letterEvent c = none ∧ (49 ≤ c ∧ c ≤ 57) ∧ tail ≠ [] := by
  cases key <;> cases h
  case delete => exact .inr ⟨rfl, by decide, List.cons_ne_nil _ _⟩
  all_goals exact .inl ⟨_, rfl, rfl, rfl⟩

theorem codes_fourth {key : TypedKey} {tail : Bytes} {c2 : UInt8}
    (h : codes key = 27 :: 91 :: c2 :: c :: tail) :
    c = 126 ∧ digitEvent c2 = some .delete ∧ key = .delete ∧ tail = [] := by
  cases key <;> cases h
  exact ⟨rfl, rfl, rfl, rfl⟩

/-- **A character** of a key that is typed: the key gives its event, or the reader waits for the
rest. -/
theorem Reads.got {rest : Bytes} (h : Reads typed r seen) (hcall : r.place.call = .get)
    (hprint : ∀ key ∈ typed, key.Printable) (hrest : codesOf typed = seen ++ c :: rest) :
    Reads typed (r.got c) (seen ++ [c]) ∧ (r.got c).place.call = .has := by
  obtain ⟨done, h⟩ := h
  obtain ⟨key, tail, hdone, hcodes⟩ := h.next hrest
  have hgive : tail = [] → Reads typed (r.give (eventOf key)) (seen ++ [c]) :=
    fun htail => ⟨done ++ [key], h.give hdone (by rw [hcodes, htail])⟩
  have hmore : ∀ {place : Place}, tail ≠ [] → place.part = r.place.part ++ [c] →
      Reads typed (r.goto place) (seen ++ [c]) :=
    fun htail hpart => ⟨done, h.more hdone hcodes htail hpart⟩
  unfold Reader.got
  cases hplace : r.place with
  | getFirst =>
    rw [hplace] at hcodes hmore
    have hfirst := codes_first (hprint key (hdone.subset (by simp))) hcodes
    dsimp only
    split
    next hesc =>
      rw [if_pos hesc] at hfirst
      exact ⟨hmore hfirst (by rw [hesc]; rfl), rfl⟩
    next hesc =>
      rw [if_neg hesc] at hfirst
      rw [hfirst.1]
      exact ⟨hgive hfirst.2, rfl⟩
  | getSecond =>
    rw [hplace] at hcodes hmore
    obtain ⟨hbracket, htail⟩ := codes_second hcodes
    dsimp only
    rw [if_pos hbracket]
    exact ⟨hmore htail (by rw [hbracket]; rfl), rfl⟩
  | getThird =>
    rw [hplace] at hcodes hmore
    dsimp only
    rcases codes_third hcodes with ⟨special, hletter, hevent, htail⟩ | ⟨hletter, hdigit, htail⟩
    · rw [hletter]
      dsimp only
      rw [← hevent]
      exact ⟨hgive htail, rfl⟩
    · rw [hletter]
      dsimp only
      rw [if_pos hdigit]
      exact ⟨hmore htail rfl, rfl⟩
  | getFourth c2 =>
    rw [hplace] at hcodes
    obtain ⟨htilde, hdelete, hkey, htail⟩ := codes_fourth hcodes
    dsimp only
    rw [if_pos htilde, hdelete]
    have := hgive htail
    rw [hkey] at this
    exact ⟨this, rfl⟩
  | _ =>
    rw [hplace] at hcall
    cases hcall

theorem reads_follows : Follows kbdReadEvent ⟨.waitFirst, []⟩ Reads where
  start := ⟨⟨[], ⟨List.nil_prefix, rfl, .inl rfl⟩, rfl⟩, rfl⟩
  grow := fun ⟨done, h⟩ => ⟨done, h.grow _⟩
  said_true := fun h _ => h.said_true
  said_false := fun h hcall => h.said_false hcall
  got := fun h hcall hprint hrest => h.got hcall hprint hrest

/-- How many times the reader asks before the next character. -/
def Place.rank : Place → Nat
  | .waitFirst => 1
  | .hasSecond => 1
  | .waitThird _ => 2
  | .hasThird => 1
  | .waitFourth _ _ => 2
  | .hasFourth _ => 1
  | _ => 0

theorem reads_ranked : Ranked kbdReadEvent (fun r => r.place.rank) 2 where
  bounded r := by cases h : r.place <;> simp [Place.rank]
  said_true r hcall := by
    have hcall : r.place.call = .has := hcall
    show (r.said true).place.rank < r.place.rank
    unfold Reader.said
    cases hplace : r.place with
    | getFirst =>
      rw [hplace] at hcall
      cases hcall
    | getSecond =>
      rw [hplace] at hcall
      cases hcall
    | getThird =>
      rw [hplace] at hcall
      cases hcall
    | getFourth c2 =>
      rw [hplace] at hcall
      cases hcall
    | _ => exact Nat.lt_succ_self _

/-- When all characters have been read, each key has given its event. -/
theorem reads_all (h : Reads typed r (codesOf typed)) : r.events = typed.map eventOf := by
  obtain ⟨done, h⟩ := h
  obtain ⟨more, rfl⟩ := h.partway.reached
  have hseen := h.partway.seen
  rw [h.part_nil, List.append_nil, Keyboard.codesOf_append, List.append_right_eq_self] at hseen
  cases more with
  | nil => rw [h.events, List.append_nil]
  | cons key more => exact absurd (List.append_eq_nil_iff.mp hseen).1 (Keyboard.codes_ne key)

end CobraOS.Snake
