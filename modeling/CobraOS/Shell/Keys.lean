import CobraOS.Keyboard.Client
import CobraOS.Shell.History
import CobraOS.Snake.Reader

/-!
# Keys in the shell and in the editor

`shell_feed_char` does one thing for each key, `act`, whether the key is one character or an escape
sequence, and leaves no sequence open (`feed_key`).  The loop of the kernel gives it the characters
as they are got from the ring, while `kbd_read_event` reads them in the editor: both keep up with
the keys in every run (`decoders_agree`).
-/

namespace CobraOS.Shell

open Base
open Keyboard (Program Machine Call TypedKey codes codesOf Partway Follows Ranked machine)

/-- What a key does to the command line. -/
def act (key : TypedKey) (s : State) : Option State :=
  match key with
  | .char c => shellInsertChar s c
  | .enter => enterLine s
  | .backspace => shellDeleteCharBefore s
  | .up => shellHandleEscape s 65
  | .down => shellHandleEscape s 66
  | .right => shellMoveRight s
  | .left => shellMoveLeft s
  | .home => shellMoveHome s
  | .end => shellMoveEnd s
  | .delete => shellDeleteCharAt s

/-- `s` with the variables for escape sequences of `t`. -/
def State.escaped (s t : State) : State :=
  { s with escState := t.escState, escBuf := t.escBuf, escPos := t.escPos }

/-- The characters of a key do what the key does, and no escape sequence is open after them. -/
structure Does (key : TypedKey) (s s' : State) : Prop where
  feed : feedAll s (codes key) = some s'
  act : ∃ u, act key s = some u ∧ s' = u.escaped s'
  idle : s'.escState = .none

/-- Keys one after the other. -/
inductive Performs : State → List TypedKey → State → Prop
  | nil (s : State) : Performs s [] s
  | cons {s s' s'' : State} {key : TypedKey} {typed : List TypedKey} :
      Does key s s' → Performs s' typed s'' → Performs s (key :: typed) s''

variable {s s' t u : State} {c : UInt8} {key : TypedKey} {typed : List TypedKey}

/-! ### What a key does does not depend on escape sequences -/

theorem redraw_escaped (s t : State) :
    shellRedrawLine (s.escaped t) = (shellRedrawLine s).map (·.escaped t) := by
  show (do let line ← readCells s.cmdBuffer s.cmdLen; some ((s.escaped t).say
    (.redraw line s.cmdPos))) = _
  unfold shellRedrawLine
  cases readCells s.cmdBuffer s.cmdLen <;> rfl

theorem eraseAt_escaped (s t : State) :
    shellDeleteCharAt (s.escaped t) = (shellDeleteCharAt s).map (·.escaped t) := by
  unfold shellDeleteCharAt
  show (if s.cmdLen ≤ s.cmdPos then _ else _) = _
  split
  · rfl
  · show (do let cells ← shiftDown s.cmdPos (s.cmdLen - 1 - s.cmdPos) s.cmdBuffer; _) = _
    cases shiftDown s.cmdPos (s.cmdLen - 1 - s.cmdPos) s.cmdBuffer with
    | none => rfl
    | some cells => exact redraw_escaped { s with cmdBuffer := cells, cmdLen := s.cmdLen - 1 } t

theorem moveLeft_escaped (s t : State) :
    shellMoveLeft (s.escaped t) = (shellMoveLeft s).map (·.escaped t) := by
  unfold shellMoveLeft
  show (if 0 < s.cmdPos then _ else _) = _
  split
  · exact redraw_escaped { s with cmdPos := s.cmdPos - 1 } t
  · rfl

theorem moveRight_escaped (s t : State) :
    shellMoveRight (s.escaped t) = (shellMoveRight s).map (·.escaped t) := by
  unfold shellMoveRight
  show (if s.cmdPos < s.cmdLen then _ else _) = _
  split
  · exact redraw_escaped { s with cmdPos := s.cmdPos + 1 } t
  · rfl

theorem recall_escaped (s t : State) (index : Nat) :
    recallLine (s.escaped t) index = (recallLine s index).map (·.escaped t) := by
  unfold recallLine
  show (do let row ← s.history[index % historySize]?; _) = _
  cases s.history[index % historySize]? with
  | none => rfl
  | some row =>
    show (do let cells ← strcpy s.cmdBuffer row; _) =
      (do let cells ← strcpy s.cmdBuffer row; _).map _
    cases strcpy s.cmdBuffer row with
    | none => rfl
    | some cells =>
      exact redraw_escaped { s with
        cmdBuffer := cells, cmdLen := row.length, cmdPos := row.length, historyIndex := some index }
          t

theorem up_escaped (s t : State) :
    shellHandleEscape (s.escaped t) 65 = (shellHandleEscape s 65).map (·.escaped t) := by
  unfold shellHandleEscape
  rw [if_pos rfl, if_pos rfl]
  show (if s.historyCount = 0 then _ else _) = _
  split
  · rfl
  · rw [show (s.escaped t).historyIndex = s.historyIndex from rfl]
    cases s.historyIndex with
    | none => exact recall_escaped s t _
    | some i => exact recall_escaped s t _

theorem down_escaped (s t : State) :
    shellHandleEscape (s.escaped t) 66 = (shellHandleEscape s 66).map (·.escaped t) := by
  unfold shellHandleEscape
  have hup : ¬ (66 : UInt8) = 65 := by decide
  rw [if_neg hup, if_pos rfl, if_neg hup, if_pos rfl]
  rw [show (s.escaped t).historyIndex = s.historyIndex from rfl]
  cases s.historyIndex with
  | none => rfl
  | some i =>
    show (if i + 1 < s.historyCount then _ else _) =
      Option.map _ (if i + 1 < s.historyCount then _ else _)
    split
    · exact recall_escaped s t _
    · show (do let cells ← setAt s.cmdBuffer 0 0; _) =
        (do let cells ← setAt s.cmdBuffer 0 0; _).map _
      cases setAt s.cmdBuffer 0 0 with
      | none => rfl
      | some cells =>
        exact redraw_escaped
          { s with cmdBuffer := cells, cmdLen := 0, cmdPos := 0, historyIndex := none } t

/-! ### The characters of a key -/

/-- The bytes of `esc_buf`, when they have been written from the start. -/
theorem setAt_of_length {cells : List UInt8} {i : Nat} (h : cells.length = 8) (hi : i < 8)
    (c : UInt8) :
    setAt cells i c = some (cells.set i c) ∧ (cells.set i c).length = 8 := by
  unfold setAt
  rw [if_pos (by omega), List.length_set]
  exact ⟨rfl, h⟩

theorem feed_bracket (hidle : s.escState = .none) (hlen : s.escBuf.length = 8)
    (rest : Bytes) : ∃ buf,
    feedAll s (27 :: 91 :: rest) =
      feedAll { s with escState := .bracket, escBuf := buf, escPos := 2 } rest ∧
      buf.length = 8 := by
  obtain ⟨hfirst, hlen₁⟩ := setAt_of_length hlen (show 0 < 8 by decide) esc
  obtain ⟨hsecond, hlen₂⟩ := setAt_of_length hlen₁ (show 1 < 8 by decide) 91
  refine ⟨(s.escBuf.set 0 esc).set 1 91, ?_, hlen₂⟩
  have hstart : shellFeedChar s 27 =
      some { s with escState := .start, escBuf := s.escBuf.set 0 esc, escPos := 1 } := by
    unfold shellFeedChar feedPlain storeEscape
    rw [hidle]
    dsimp only
    rw [if_pos (show (27 : UInt8) = esc from rfl), hfirst]
    rfl
  have hbracket :
      shellFeedChar { s with escState := .start, escBuf := s.escBuf.set 0 esc, escPos := 1 } 91 =
      some { s with
        escState := .bracket, escBuf := (s.escBuf.set 0 esc).set 1 91, escPos := 2 } := by
    unfold shellFeedChar storeEscape
    dsimp only
    rw [hsecond]
    rfl
  rw [feedAll, hstart]
  show feedAll _ (91 :: rest) = _
  rw [feedAll, hbracket]
  rfl

theorem feed_final {buf : List UInt8} {n : Nat} (hlen : buf.length = 8) (hn : n < 8)
    (hfinal : isFinal c = true) :
    shellFeedChar { s with escState := .bracket, escBuf := buf, escPos := n } c =
      (shellHandleEscape { s with escState := .bracket, escBuf := buf.set n c, escPos := n + 1 }
        c).map endEscape := by
  unfold shellFeedChar storeEscape
  dsimp only
  rw [(setAt_of_length hlen hn c).1]
  show (if (isFinalLetter c || c == tilde) = true then _ else _) = _
  rw [if_pos (show (isFinalLetter c || c == tilde) = true from hfinal)]
  cases shellHandleEscape { s with escState := .bracket, escBuf := buf.set n c, escPos := n + 1 } c
    <;> rfl

theorem feed_letter (hidle : s.escState = .none) (hlen : s.escBuf.length = 8)
    (hfinal : isFinal c = true)
    (hact : ∀ t, shellHandleEscape (s.escaped t) c = (act key s).map (·.escaped t)) :
    ∃ t, feedAll s [27, 91, c] = (act key s).map (·.escaped t) ∧ t.escState = .none := by
  obtain ⟨buf, hfeed, hbuf⟩ := feed_bracket hidle hlen [c]
  refine ⟨endEscape { s with escBuf := buf.set 2 c }, ?_, rfl⟩
  have hhandle := hact { s with escState := .bracket, escBuf := buf.set 2 c, escPos := 3 }
  rw [hfeed, feedAll, feed_final hbuf (by decide) hfinal]
  show ((shellHandleEscape
      (s.escaped { s with escState := .bracket, escBuf := buf.set 2 c, escPos := 3 }) c).map
        endEscape >>= fun s => feedAll s []) = _
  rw [hhandle]
  cases act key s <;> rfl

theorem feed_delete (hidle : s.escState = .none) (hlen : s.escBuf.length = 8) :
    ∃ t, feedAll s [27, 91, 51, 126] = (act .delete s).map (·.escaped t) ∧ t.escState = .none := by
  obtain ⟨buf, hfeed, hbuf⟩ := feed_bracket hidle hlen [51, 126]
  obtain ⟨hset, hbuf'⟩ := setAt_of_length hbuf (show 2 < 8 by decide) 51
  refine ⟨endEscape { s with escBuf := (buf.set 2 51).set 3 126 }, ?_, rfl⟩
  have hdigit : shellFeedChar { s with escState := .bracket, escBuf := buf, escPos := 2 } 51 =
      some { s with escState := .bracket, escBuf := buf.set 2 51, escPos := 3 } := by
    unfold shellFeedChar storeEscape
    dsimp only
    rw [hset]
    rfl
  have hthird : ((buf.set 2 51).set 3 126)[2]? = some 51 := by
    rw [List.getElem?_set_ne (by decide), List.getElem?_set_self (by omega)]
  have htilde : ∀ t : State, t.escPos = 4 → t.escBuf = (buf.set 2 51).set 3 126 →
      shellHandleEscape t 126 = shellDeleteCharAt t := by
    intro t hpos hescBuf
    show (if 3 ≤ t.escPos then do let c ← t.escBuf[2]?; _ else some t) = _
    rw [if_pos (by omega), hescBuf, hthird]
    rfl
  rw [hfeed, feedAll, hdigit]
  show feedAll { s with escState := .bracket, escBuf := buf.set 2 51, escPos := 3 } [126] = _
  rw [feedAll, feed_final hbuf' (by decide) rfl, htilde _ rfl rfl]
  show ((shellDeleteCharAt (s.escaped { s with
    escState := .bracket, escBuf := (buf.set 2 51).set 3 126, escPos := 4 })).map endEscape >>=
      fun s => feedAll s []) = _
  rw [eraseAt_escaped]
  show _ = (shellDeleteCharAt s).map _
  cases shellDeleteCharAt s <;> rfl

theorem feedAll_append (s : State) (cs cs' : Bytes) :
    feedAll s (cs ++ cs') = (feedAll s cs).bind fun s => feedAll s cs' := by
  induction cs generalizing s with
  | nil => rfl
  | cons c cs ih =>
    show (do let s ← shellFeedChar s c; feedAll s (cs ++ cs')) =
      (do let s ← shellFeedChar s c; feedAll s cs).bind _
    cases shellFeedChar s c with
    | none => rfl
    | some s₁ => exact ih s₁

theorem Ready.feedAll (h : Ready s) (cs : Bytes) : ∃ s', feedAll s cs = some s' ∧ Ready s' := by
  induction cs generalizing s with
  | nil => exact ⟨s, rfl, h⟩
  | cons c cs ih =>
    obtain ⟨s₁, hs₁, h₁⟩ := h.feed c
    obtain ⟨s₂, hs₂, h₂⟩ := ih h₁
    refine ⟨s₂, ?_, h₂⟩
    rw [Shell.feedAll, hs₁]
    exact hs₂

theorem feed_plain (h : Ready s) (hidle : s.escState = .none) (hc : c ≠ esc) :
    ∃ s', feedPlain s c = some s' ∧ s'.escState = .none := by
  obtain ⟨e, he⟩ := h.refines
  have hp : e.pending = none := by
    have hstate := he.pending.state
    rw [hidle] at hstate
    match hpending : e.pending with
    | none => rfl
    | some [] =>
      rw [hpending] at hstate
      cases hstate
    | some (_ :: _) =>
      rw [hpending] at hstate
      cases hstate
  obtain ⟨s', hs, he'⟩ := he.plain hp c
  refine ⟨s', hs, he'.pending.state.trans ?_⟩
  rw [feed_pending, hp, parseStep, if_neg hc]
  rfl

/-- **One key does one thing**, and no escape sequence is open after it. -/
theorem feed_key (h : Ready s) (hidle : s.escState = .none) (hkey : key.Printable) :
    ∃ s', Does key s s' ∧ Ready s' := by
  obtain ⟨s', hs, hready⟩ := h.feedAll (codes key)
  refine ⟨s', ?_, hready⟩
  have hlen : s.escBuf.length = 8 := h.refines.choose_spec.pending.length
  have hplain : ∀ {c}, c ≠ esc → codes key = [c] → feedPlain s c = act key s → Does key s s' := by
    intro c hc hcodes hact
    obtain ⟨u, hu, huidle⟩ := feed_plain h hidle hc
    have hfeed : Shell.feedAll s [c] = some u := by
      rw [Shell.feedAll, shellFeedChar, hidle]
      dsimp only
      rw [hu]
      rfl
    rw [hcodes, hfeed] at hs
    cases hs
    exact ⟨by rw [hcodes, hfeed], ⟨s', hact ▸ hu, rfl⟩, huidle⟩
  have hescape :
    (∃ t, Shell.feedAll s (codes key) = (act key s).map (·.escaped t) ∧ t.escState = .none) →
      Does key s s' := by
    rintro ⟨t, hfeed, ht⟩
    rw [hs] at hfeed
    obtain ⟨u, hu, he⟩ := Option.map_eq_some_iff.mp hfeed.symm
    exact ⟨hs, ⟨u, hu, by rw [← he]; rfl⟩, by rw [← he]; exact ht⟩
  cases key with
  | char c =>
    have hne : c ≠ esc ∧ c ≠ 10 ∧ ¬ (c = 8 ∨ c = 127) := by
      refine ⟨?_, ?_, ?_⟩
      · rintro rfl
        exact absurd hkey.1 (by decide)
      · rintro rfl
        exact absurd hkey.1 (by decide)
      · rintro (rfl | rfl)
        · exact absurd hkey.1 (by decide)
        · exact absurd hkey.2 (by decide)
    refine hplain hne.1 rfl ?_
    rw [feedPlain, if_neg hne.1, if_neg hne.2.1, if_neg hne.2.2]
    exact if_pos hkey
  | enter => exact hplain (by decide) rfl rfl
  | backspace => exact hplain (by decide) rfl rfl
  | up => exact hescape (feed_letter hidle hlen rfl (up_escaped s))
  | down => exact hescape (feed_letter hidle hlen rfl (down_escaped s))
  | right => exact hescape (feed_letter hidle hlen rfl (moveRight_escaped s))
  | left => exact hescape (feed_letter hidle hlen rfl (moveLeft_escaped s))
  | home =>
    exact hescape (feed_letter hidle hlen rfl fun t => redraw_escaped { s with cmdPos := 0 } t)
  | «end» =>
    exact hescape
      (feed_letter hidle hlen rfl fun t => redraw_escaped { s with cmdPos := s.cmdLen } t)
  | delete => exact hescape (feed_delete hidle hlen)

/-- **Keys one after the other**: what is on the command line after the characters of keys is what
the keys do. -/
theorem feed_keys (h : Ready s) (hidle : s.escState = .none)
    (hkeys : ∀ key ∈ typed, key.Printable) :
    ∃ s', feedAll s (codesOf typed) = some s' ∧ Performs s typed s' ∧ s'.escState = .none := by
  induction typed generalizing s with
  | nil => exact ⟨s, rfl, .nil s, hidle⟩
  | cons key typed ih =>
    obtain ⟨s₁, hdoes, h₁⟩ := feed_key h hidle (hkeys key List.mem_cons_self)
    obtain ⟨s₂, hfeed, hperforms, hidle₂⟩ :=
      ih h₁ hdoes.idle fun key hkey => hkeys key (List.mem_cons_of_mem _ hkey)
    refine ⟨s₂, ?_, .cons hdoes hperforms, hidle₂⟩
    rw [Keyboard.codesOf_cons, feedAll_append, hdoes.feed]
    exact hfeed

/-! ### The loop of the kernel -/

/-- `while (keyboard_has_char()) shell_feed_char(keyboard_get_char());`, again and again.  `shell`
is `none` after an access outside an array. -/
structure KernelLoop where
  getting : Bool
  shell : Option State

def kernelLoop : Program KernelLoop where
  call p := if p.getting then .get else .has
  said p b := { p with getting := b }
  got p c := ⟨false, p.shell.bind fun s => shellFeedChar s c⟩

theorem kernelLoop_follows (s₀ : State) :
    Follows kernelLoop ⟨false, some s₀⟩ fun _ p seen => p.shell = feedAll s₀ seen where
  start := ⟨rfl, rfl⟩
  grow := id
  said_true := fun h _ => h
  said_false := fun h _ => ⟨h, rfl⟩
  got {typed p seen c rest} h _ _ _ := by
    refine ⟨?_, rfl⟩
    show p.shell.bind _ = feedAll s₀ (seen ++ [c])
    rw [feedAll_append, h]
    cases feedAll s₀ seen with
    | none => rfl
    | some s =>
      show shellFeedChar s c = (shellFeedChar s c).bind fun s => some s
      cases shellFeedChar s c <;> rfl

theorem kernelLoop_ranked : Ranked kernelLoop (fun p => if p.getting then 0 else 1) 1 where
  bounded p := by split <;> decide
  said_true p hcall := by
    have hcall : (if p.getting then Call.get else Call.has) = .has := hcall
    cases hgetting : p.getting with
    | true =>
      rw [hgetting] at hcall
      cases hcall
    | false => exact Nat.lt_succ_self 0

/-! ### Both decoders -/

/-- The shell has done what the keys in `done` do, and has been given a part of the next one. -/
structure FedUpTo (s₀ : State) (typed done : List TypedKey) (shell : Option State)
    (seen part : Bytes) : Prop where
  partway : Partway typed done seen part
  performs : ∃ s, Performs s₀ done s ∧ s.escState = .none ∧ shell = feedAll s part

theorem fedUpTo_reach {s₀ : State} (hready : Ready s₀) (hidle : s₀.escState = .none)
    {m : Machine KernelLoop} (h : (machine kernelLoop ⟨false, some s₀⟩).Reach m) :
    ∃ done part, FedUpTo s₀ m.typed done m.prog.shell (Keyboard.returned m.session.state) part := by
  have hinv := Keyboard.machineInv_reach (kernelLoop_follows s₀) h
  obtain ⟨done, part, hpartway⟩ := hinv.partway
  obtain ⟨s, hfeed, hperforms, hs⟩ := feed_keys hready hidle fun key hkey =>
    hinv.printable key (hpartway.reached.subset hkey)
  refine ⟨done, part, hpartway, s, hperforms, hs, hinv.reads.trans ?_⟩
  rw [hpartway.seen, feedAll_append, hfeed]
  rfl

/-- **Both decoders agree with the keyboard**, however interrupts come between the accesses to the
ring.  The shell does one thing for each key, in order, and `kbd_read_event` returns one event for
each key, in order; at any time they are behind the keys, and when no more keys are typed they come
to the last one. -/
theorem decoders_agree {s₀ : State} (hready : Ready s₀) (hidle : s₀.escState = .none)
    {m : Machine KernelLoop} (h : (machine kernelLoop ⟨false, some s₀⟩).Reach m)
    {m' : Machine Snake.Reader} (h' : (machine Snake.kbdReadEvent ⟨.waitFirst, []⟩).Reach m') :
    ((∃ done part, FedUpTo s₀ m.typed done m.prog.shell (Keyboard.returned m.session.state) part) ∧
      ∃ n s, ((Keyboard.advance kernelLoop)^[n] m).prog.shell = some s ∧ Performs s₀ m.typed s ∧
        s.escState = .none) ∧
    (∃ done, Snake.ReadUpTo m'.typed done m'.prog (Keyboard.returned m'.session.state)) ∧
      ∃ n, ((Keyboard.advance Snake.kbdReadEvent)^[n] m').prog.events =
        m'.typed.map Snake.eventOf := by
  have hinv := Keyboard.machineInv_reach (kernelLoop_follows s₀) h
  have hinv' := Keyboard.machineInv_reach Snake.reads_follows h'
  refine ⟨⟨fedUpTo_reach hready hidle h, ?_⟩, hinv'.reads, ?_⟩
  · obtain ⟨n, hn⟩ := hinv.drains (kernelLoop_follows s₀) kernelLoop_ranked
    obtain ⟨s, hfeed, hperforms, hs⟩ := feed_keys hready hidle hinv.printable
    exact ⟨n, s, hn.trans hfeed, hperforms, hs⟩
  · obtain ⟨n, hn⟩ := hinv'.drains Snake.reads_follows Snake.reads_ranked
    exact ⟨n, Snake.reads_all hn⟩

/-- Left is pressed, which comes as two bytes. -/
def typedLeft {π : Type} (start : π) : Machine π :=
  Keyboard.typeKey (Keyboard.typeKey ⟨Keyboard.freshSession, [], start⟩ (Keyboard.ready 0xE0))
    (Keyboard.ready 0x4B)

/-- `A` is pressed when the program has got the first of the three characters. -/
def typedLeftA {π : Type} (P : Program π) (start : π) : Machine π :=
  Keyboard.typeKey ((Keyboard.advance P)^[12] (typedLeft start)) (Keyboard.ready 0x1E)

theorem typedLeft_reach {π : Type} (P : Program π) (start : π) :
    (machine P start).Reach (typedLeft start) := by
  have hfirst : Keyboard.encoding Keyboard.freshSession.keys 0xE0 = [] := by decide +kernel
  have hsecond :
    Keyboard.keyPressed (Keyboard.interrupt Keyboard.freshSession (Keyboard.ready 0xE0)).keys 0x4B =
      some .left ∧
      (Keyboard.encoding (Keyboard.interrupt Keyboard.freshSession (Keyboard.ready 0xE0)).keys
        0x4B).length ≤
      Keyboard.free
        (Keyboard.interrupt Keyboard.freshSession (Keyboard.ready 0xE0)).state.ring := by
    decide +kernel
  have hstart : (machine P start).Reach ⟨Keyboard.freshSession, [], start⟩ :=
    .init ⟨⟨rfl, rfl, rfl, rfl, rfl⟩, rfl, rfl, rfl⟩
  have hprefix :
    (machine P start).step ⟨Keyboard.freshSession, [], start⟩ (.interrupt (Keyboard.ready 0xE0))
      (Keyboard.typeKey ⟨Keyboard.freshSession, [], start⟩ (Keyboard.ready 0xE0)) := by
    refine ⟨fun _ => ⟨.inr hfirst, ?_⟩, rfl⟩
    show (Keyboard.encoding Keyboard.freshSession.keys 0xE0).length ≤ _
    rw [hfirst]
    exact Nat.zero_le _
  have harrow :
    (machine P start).step
      (Keyboard.typeKey ⟨Keyboard.freshSession, [], start⟩ (Keyboard.ready 0xE0))
      (.interrupt (Keyboard.ready 0x4B)) (typedLeft start) :=
    ⟨fun _ => ⟨.inl ⟨_, hsecond.1⟩, hsecond.2⟩, rfl⟩
  exact (hstart.step hprefix).step harrow

theorem advance_reach {π : Type} {P : Program π} {start : π} {m : Machine π}
    (h : (machine P start).Reach m) (n : Nat) :
    (machine P start).Reach ((Keyboard.advance P)^[n] m) := by
  induction n with
  | zero => exact h
  | succ n ih =>
    rw [Function.iterate_succ_apply']
    exact ih.step (e := .advance) rfl

theorem typedLeftA_reach {π : Type} (P : Program π) (start : π)
    (h : Keyboard.keyPressed ((Keyboard.advance P)^[12] (typedLeft start)).session.keys 0x1E =
      some (.char 97) ∧
      (Keyboard.encoding ((Keyboard.advance P)^[12] (typedLeft start)).session.keys 0x1E).length ≤
        Keyboard.free ((Keyboard.advance P)^[12] (typedLeft start)).session.state.ring) :
    (machine P start).Reach (typedLeftA P start) :=
  (advance_reach (typedLeft_reach P start) 12).step (e := .interrupt (Keyboard.ready 0x1E))
    ⟨fun _ => ⟨.inl ⟨_, h.1⟩, h.2⟩, rfl⟩

/-- A key is pressed in the middle of the escape sequence of another one. -/
theorem decoders_agree_leftA :
    let m := typedLeftA kernelLoop ⟨false, some shellInit⟩
    let m' := typedLeftA Snake.kbdReadEvent ⟨.waitFirst, []⟩
    Keyboard.returned m.session.state = [27] ∧ Keyboard.returned m'.session.state = [27] ∧
      (∃ n s, ((Keyboard.advance kernelLoop)^[n] m).prog.shell = some s ∧
        Performs shellInit [.left, .char 97] s) ∧
      ∃ n, ((Keyboard.advance Snake.kbdReadEvent)^[n] m').prog.events =
        [.special .left, .char 97] := by
  have hreach := typedLeftA_reach kernelLoop ⟨false, some shellInit⟩ (by decide +kernel)
  have hreach' := typedLeftA_reach Snake.kbdReadEvent ⟨.waitFirst, []⟩ (by decide +kernel)
  have htyped : (typedLeftA kernelLoop ⟨false, some shellInit⟩).typed = [.left, .char 97] := by
    decide +kernel
  have htyped' : (typedLeftA Snake.kbdReadEvent ⟨.waitFirst, []⟩).typed.map Snake.eventOf =
      [.special .left, .char 97] := by decide +kernel
  obtain ⟨⟨-, n, s, hs, hperforms, -⟩, -, n', hn'⟩ := decoders_agree ready_init rfl hreach hreach'
  exact ⟨by decide +kernel, by decide +kernel, ⟨n, s, hs, htyped ▸ hperforms⟩, n', htyped' ▸ hn'⟩

end CobraOS.Shell
