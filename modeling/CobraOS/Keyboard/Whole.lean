import CobraOS.Keyboard.Fifo
import CobraOS.Keyboard.Handler

/-!
# The characters of a key in the ring

The handler puts the characters of a key into the ring one by one, and stops at the first that is
refused.  `pressed` keeps the characters of every key, whether there was room for them or not.  When
each key finds room for all its characters or for none, what the kernel gets is the characters of
keys that are not broken up (`keys_whole`).  A cursor key that finds one free slot leaves `ESC`
alone (`cursor_key_truncated`).
-/

namespace CobraOS.Keyboard

open Base

/-! ### Runs of interrupts and reads -/

/-- The keys, the ring with the kernel's place in it, and the characters of each key. -/
structure Session where
  keys : Keys
  state : State
  pressed : List Bytes

/-- The characters of a key, until one is refused. -/
def putSeq (s : State) : Bytes → State
  | [] => s
  | c :: seq => if (bufferPut s.ring c).1 then putSeq (put s c) seq else put s c

/-- An interrupt, with what it does to the log. -/
def interrupt (s : Session) (port : Port) : Session :=
  if waitForByte 1000 port.status then
    let seq := encoding s.keys port.data
    let state := putSeq s.state seq
    { keys := keysAfter s.keys port.data
      state := { state with ring := cleanup state.ring }
      pressed := if seq = [] then s.pressed else s.pressed ++ [seq] }
  else { s with state := { s.state with ring := cleanup s.state.ring } }

inductive SessionStep
  | interrupt (port : Port)
  | has
  | get
  | access

/-- An interrupt can come between any two accesses of the kernel. -/
def sessionStep (s : Session) : SessionStep → Option Session
  | .interrupt port => some (interrupt s port)
  | .has => (step s.state .has).map fun state => { s with state := state }
  | .get => (step s.state .get).map fun state => { s with state := state }
  | .access => (step s.state .access).map fun state => { s with state := state }

/-- Every run from an empty ring, with any keys. -/
def session : System Session SessionStep where
  init s := initial s.state ∧ s.pressed = []
  step s e s' := sessionStep s e = some s'

/-- The characters that the ring has room for. -/
def free (r : Ring) : Nat := kbBufferSize - 1 - count r

/-- A key finds room for all its characters or for none. -/
def Fits (s : Session) : SessionStep → Prop
  | .interrupt port => waitForByte 1000 port.status = true →
      free s.state.ring = 0 ∨ (encoding s.keys port.data).length ≤ free s.state.ring
  | _ => True

/-- One character, `ESC [` and another one, or `ESC [ 3 ~`. -/
def Complete (seq : Bytes) : Prop := (∃ c, seq = [c]) ∨ (∃ c, seq = [27, 91, c]) ∨
    seq = [27, 91, 51, 126]

/-- The kernel has got, or will get from the ring, the characters of some of the keys in their
order. -/
def Whole (s : Session) : Prop :=
  ∃ l : List Bytes, l.Sublist s.pressed ∧ (∀ seq ∈ l, Complete seq) ∧
    returned s.state ++ held s.state.ring = l.flatten

variable {s s' : Session} {t : State} {r : Ring} {seq : Bytes}

/-! ### The characters of one key -/

theorem encoding_complete (k : Keys) (scancode : UInt8) :
    encoding k scancode = [] ∨ Complete (encoding k scancode) := by
  have hcursor : ∀ base, (cursorSequence base).getD [] = [] ∨
      Complete ((cursorSequence base).getD []) := by
    intro base
    unfold cursorSequence Complete
    split_ifs <;> simp
  have hkey : ∀ k extended, keyEncoding k extended scancode = [] ∨
      Complete (keyEncoding k extended scancode) := by
    intro k extended
    unfold keyEncoding
    split
    · split
      · exact .inr (.inl ⟨10, rfl⟩)
      split
      · exact .inl rfl
      · exact hcursor _
    · split
      · exact .inr (.inl ⟨8, rfl⟩)
      rcases getCharFromScancode k scancode with _ | _ | ⟨c, more⟩
      · exact .inl rfl
      · exact .inl rfl
      · dsimp only
        split
        · exact .inr (.inl ⟨10, rfl⟩)
        split
        · exact .inl rfl
        · exact .inr (.inl ⟨_, rfl⟩)
  unfold encoding
  split
  · exact .inl rfl
  split
  · exact .inl rfl
  · exact hkey _ _

theorem putSeq_ring (t : State) (seq : Bytes) : (putSeq t seq).ring = putAll t.ring seq := by
  induction seq generalizing t with
  | nil => rfl
  | cons c seq ih =>
    unfold putSeq putAll
    rcases hput : bufferPut t.ring c with ⟨ok, ring⟩
    cases ok with
    | true => simp [ih, put, hput]
    | false => simp [put, hput]

theorem interrupt_driver (s : Session) (port : Port) :
    (⟨(interrupt s port).keys, (interrupt s port).state.ring⟩ : Driver) =
      (keyboardHandler ⟨s.keys, s.state.ring⟩ port).1 := by
  unfold interrupt
  cases hready : waitForByte 1000 port.status with
  | true => simp [keyboardHandler_eq _ hready, putSeq_ring]
  | false => simp [keyboardHandler_timeout _ hready]

theorem held_length (r : Ring) : (held r).length = count r := ringList_length

theorem Inv.putSeq (h : Inv t) (seq : Bytes) : Inv (putSeq t seq) := by
  induction seq generalizing t with
  | nil => exact h
  | cons c seq ih =>
    unfold Keyboard.putSeq
    split
    · exact ih (h.put c)
    · exact h.put c

/-- **What enters the ring**: as many of the characters as there is room for. -/
theorem putSeq_accepted (h : Inv t) (seq : Bytes) :
    accepted (putSeq t seq) = accepted t ++ seq.take (free t.ring) := by
  induction seq generalizing t with
  | nil => simp [putSeq]
  | cons c seq ih =>
    unfold putSeq
    rcases hput : bufferPut t.ring c with ⟨ok, ring⟩
    cases ok with
    | true =>
      have hp : put t c = ⟨ring, t.consumer, t.log ++ [.accepted c]⟩ := by rw [put, hput]
      obtain ⟨hheld, hhead, htail, -, -⟩ := bufferPut_true h.head h.tail hput
      have hcount : count ring = count t.ring + 1 := by
        rw [← held_length, hheld, List.length_append, held_length, List.length_singleton]
      have hsmall : count ring < 256 := Nat.mod_lt _ (by decide)
      have hfree : free t.ring = free ring + 1 := by
        unfold free kbBufferSize
        omega
      rw [if_pos rfl, ih (h.put c), hp, accepted_log, hfree, List.take_succ_cons]
      simp [Event.accepted?]
    | false =>
      have hp : put t c = ⟨ring, t.consumer, t.log ++ [.refused c]⟩ := by rw [put, hput]
      obtain ⟨hfull, -⟩ := bufferPut_false h.head h.tail hput
      have hfree : free t.ring = 0 := by
        unfold free kbBufferSize
        rw [held_length] at hfull
        omega
      rw [if_neg Bool.false_ne_true, hp, accepted_log, hfree]
      simp [Event.accepted?]

theorem accepted_ring (t : State) (r : Ring) : accepted { t with ring := r } = accepted t := rfl

/-! ### One step -/

theorem Inv.interrupt (h : Inv s.state) (port : Port) : Inv (interrupt s port).state := by
  unfold Keyboard.interrupt
  split
  · exact (h.putSeq _).step (l := .cleanup) rfl
  · exact h.step (l := .cleanup) rfl

/-- A read of the kernel changes neither the keys nor what has been accepted. -/
theorem read_accepted {l : Step} (hl : ∀ c, l ≠ .put c) {t' : State} (h : step t l = some t') :
    accepted t' = accepted t := by
  cases l with
  | put c => exact absurd rfl (hl c)
  | cleanup =>
    cases h
    rfl
  | has =>
    unfold step at h
    cases hk : t.consumer <;> rw [hk] at h <;> cases h
    rfl
  | get =>
    unfold step at h
    cases hk : t.consumer <;> rw [hk] at h
    case idle =>
      dsimp only at h
      split at h <;> cases h
      rfl
    all_goals cases h
  | access =>
    unfold step access at h
    cases hk : t.consumer <;> rw [hk] at h
    case getTail head =>
      dsimp only at h
      split at h <;> cases h
      · rw [accepted_log]
        exact List.append_nil _
      · rfl
    case idle => cases h
    case hasTail head =>
      cases h
      rw [accepted_log]
      exact List.append_nil _
    case getStore c tail =>
      cases h
      rw [accepted_log]
      exact List.append_nil _
    all_goals
      cases h
      rfl

theorem sessionStep_cases {e : SessionStep} (h : sessionStep s e = some s') :
    (∃ port, e = .interrupt port ∧ s' = interrupt s port) ∨
    ∃ l t, (∀ c, l ≠ Step.put c) ∧ step s.state l = some t ∧ s' = { s with state := t } := by
  have hread : ∀ l : Step, (∀ c, l ≠ .put c) →
      (step s.state l).map (fun state => { s with state := state }) = some s' →
      ∃ l t, (∀ c, l ≠ Step.put c) ∧ step s.state l = some t ∧ s' = { s with state := t } := by
    intro l hl hm
    obtain ⟨t, ht, he⟩ := Option.map_eq_some_iff.mp hm
    exact ⟨l, t, hl, ht, he.symm⟩
  cases e with
  | interrupt port =>
    cases h
    exact .inl ⟨port, rfl, rfl⟩
  | has => exact .inr (hread .has (by simp) h)
  | get => exact .inr (hread .get (by simp) h)
  | access => exact .inr (hread .access (by simp) h)

/-- What has been accepted is the characters of some of the keys. -/
structure Unbroken (s : Session) : Prop where
  inv : Inv s.state
  complete : ∀ seq ∈ s.pressed, Complete seq
  whole : ∃ l : List Bytes, l.Sublist s.pressed ∧ accepted s.state = l.flatten

/-- **An interrupt that fits** keeps the characters of a key together, or drops them all. -/
theorem Unbroken.interrupt (h : Unbroken s) {port : Port} (hfits : Fits s (.interrupt port)) :
    Unbroken (interrupt s port) := by
  refine ⟨h.inv.interrupt port, ?_, ?_⟩
  · unfold Keyboard.interrupt
    split
    · dsimp only
      split
      · exact h.complete
      · intro seq hseq
        rcases List.mem_append.mp hseq with hold | hnew
        · exact h.complete seq hold
        · rw [List.mem_singleton.mp hnew]
          exact (encoding_complete _ _).resolve_left ‹_›
    · exact h.complete
  · obtain ⟨l, hsub, hacc⟩ := h.whole
    unfold Keyboard.interrupt
    split
    next hready =>
      dsimp only
      rw [accepted_ring, putSeq_accepted h.inv, hacc]
      have hmore : l.Sublist (if encoding s.keys port.data = [] then s.pressed
          else s.pressed ++ [encoding s.keys port.data]) := by
        split
        · exact hsub
        · exact hsub.trans (List.sublist_append_left _ _)
      rcases hfits hready with hfull | hroom
      · exact ⟨l, hmore, by rw [hfull, List.take_zero, List.append_nil]⟩
      rw [List.take_of_length_le hroom]
      by_cases hseq : encoding s.keys port.data = []
      · exact ⟨l, hmore, by rw [hseq, List.append_nil]⟩
      · refine ⟨l ++ [encoding s.keys port.data], ?_, by simp⟩
        rw [if_neg hseq]
        exact hsub.append_right _
    · exact ⟨l, hsub, hacc⟩

/-- **One step** of a run in which every key fits. -/
theorem Unbroken.step {e : SessionStep} (h : Unbroken s) (hfits : Fits s e)
    (hs : sessionStep s e = some s') :
    Unbroken s' := by
  rcases sessionStep_cases hs with ⟨port, rfl, rfl⟩ | ⟨l, t, hl, ht, rfl⟩
  · exact h.interrupt hfits
  · obtain ⟨seqs, hsub, hacc⟩ := h.whole
    exact ⟨h.inv.step ht, h.complete, seqs, hsub, (read_accepted hl ht).trans hacc⟩

theorem Unbroken.start (h : session.init s) : Unbroken s := by
  obtain ⟨hinit, hpressed⟩ := h
  refine ⟨inv_reach (.init hinit), ?_, [], List.nil_sublist _, ?_⟩
  · rw [hpressed]
    exact fun _ hseq => absurd hseq List.not_mem_nil
  · rw [accepted, hinit.2.2.2.2]
    rfl

/-- **Keys are not broken up** in a run in which each finds room for all its characters or for
none. -/
theorem keys_whole (h : (session.restrict Fits).Reach s) : Whole s := by
  have hunbroken : Unbroken s := by
    induction h with
    | init hinit => exact .start hinit
    | step _ hstep ih => exact ih.step hstep.1 hstep.2
  obtain ⟨l, hsub, hacc⟩ := hunbroken.whole
  exact ⟨l, hsub, fun seq hseq => hunbroken.complete seq (hsub.subset hseq),
    hunbroken.inv.fifo.trans hacc⟩

theorem interrupt_accepted (h : Inv s.state) {port : Port}
    (hready : waitForByte 1000 port.status = true) :
    accepted (interrupt s port).state =
      accepted s.state ++ (encoding s.keys port.data).take (free s.state.ring) := by
  unfold interrupt
  rw [if_pos hready]
  exact putSeq_accepted h _

/-- The condition is exact for one interrupt: else some characters of the key enter the ring and
some do not. -/
theorem interrupt_whole_iff (h : Inv s.state) {port : Port}
    (hready : waitForByte 1000 port.status = true) :
    (accepted (interrupt s port).state = accepted s.state ∨
      accepted (interrupt s port).state = accepted s.state ++ encoding s.keys port.data) ↔
    Fits s (.interrupt port) := by
  rw [interrupt_accepted h hready, List.append_right_eq_self, List.append_cancel_left_eq,
    List.take_eq_nil_iff, List.take_eq_self_iff]
  constructor
  · rintro ((hfull | hnone) | hroom) _
    · exact .inl hfull
    · exact .inr (by rw [hnone]; exact Nat.zero_le _)
    · exact .inr hroom
  · intro hfits
    exact (hfits hready).imp_left .inl

/-! ### A run -/

/-- The keyboard and the ring after `init_keyboard`. -/
def freshSession : Session := ⟨initKeyboard .qwerty, ⟨⟨fun _ => 0, 0, 0, false⟩, .idle, []⟩, []⟩

/-- `A` is held until it has come `n` times. -/
def holdA : Nat → Session
  | 0 => freshSession
  | n + 1 => interrupt (holdA n) (ready 0x1E)

/-- `keyboard_mods_t` without a modifier. -/
def noMods : KeyboardMods :=
  ⟨false, false, false, false, false, false, false, false, false, false, false, false⟩

theorem encoding_a (reboot repeated : Bool) (states : Nat → BitVec 8) :
    encoding ⟨noMods, .qwerty, reboot, repeated, true, states⟩ 0x1E = [97] := by
  have hmay : mayRepeat (noteKey ⟨noMods, .qwerty, reboot, repeated, true, states⟩ 0x1E) = true :=
    Bool.or_true _
  rw [encoding, hmay]
  rfl

theorem holdA_reach (n : Nat) : session.Reach (holdA n) := by
  induction n with
  | zero => exact .init ⟨⟨rfl, rfl, rfl, rfl, rfl⟩, rfl⟩
  | succ n ih => exact ih.step (e := .interrupt (ready 0x1E)) rfl

theorem inv_session (h : session.Reach s) : Inv s.state := by
  induction h with
  | init hinit => exact inv_reach (.init hinit.1)
  | step _ hs ih =>
    rcases sessionStep_cases hs with ⟨port, rfl, rfl⟩ | ⟨l, t, hl, ht, rfl⟩
    · exact ih.interrupt port
    · exact ih.step ht

theorem putSeq_consumer (t : State) (seq : Bytes) :
    (putSeq t seq).consumer = t.consumer ∧ returned (putSeq t seq) = returned t := by
  induction seq generalizing t with
  | nil => exact ⟨rfl, rfl⟩
  | cons c seq ih =>
    have hput : (put t c).consumer = t.consumer ∧ returned (put t c) = returned t := by
      unfold put
      rcases bufferPut t.ring c with ⟨ok, ring⟩
      cases ok <;> exact ⟨rfl, by rw [returned_log]; exact List.append_nil _⟩
    unfold putSeq
    split
    · exact ⟨(ih _).1.trans hput.1, (ih _).2.trans hput.2⟩
    · exact hput

theorem interrupt_returned (s : Session) (port : Port) :
    returned (interrupt s port).state = returned s.state := by
  unfold interrupt
  split
  · exact (putSeq_consumer _ _).2
  · rfl

theorem holdA_spec {n : Nat} (hn : n ≤ 255) : accepted (holdA n).state = List.replicate n 97 ∧
    returned (holdA n).state = [] ∧ (holdA n).pressed = List.replicate n [97] ∧
    ∃ repeated states, (holdA n).keys = ⟨noMods, .qwerty, false, repeated, true, states⟩ := by
  induction n with
  | zero => exact ⟨rfl, rfl, rfl, _, _, rfl⟩
  | succ n ih =>
    obtain ⟨hacc, hret, hpressed, repeated, states, hkeys⟩ := ih (by omega)
    have hinv := inv_session (holdA_reach n)
    have hcount : count (holdA n).state.ring = n := by
      have hfifo := congrArg List.length hinv.fifo
      rwa [hret, hacc, List.nil_append, held_length, List.length_replicate] at hfifo
    have hseq : encoding (holdA n).keys 0x1E = [97] := by rw [hkeys, encoding_a]
    refine ⟨?_, ?_, ?_, ?_⟩
    · have hfree : free (holdA n).state.ring = 254 - n + 1 := by
        unfold free kbBufferSize
        omega
      rw [holdA, interrupt_accepted hinv (ready_status _), hacc, ready_data, hseq, hfree,
        List.replicate_succ', List.take_succ_cons, List.take_nil]
    · rw [holdA, interrupt_returned, hret]
    · rw [holdA, interrupt, if_pos (ready_status _), ready_data, hseq, hpressed,
        List.replicate_succ']
      rfl
    · rw [holdA, interrupt, if_pos (ready_status _), hkeys]
      exact ⟨_, _, rfl⟩

/-- `Up`, with its prefix. -/
def up (s : Session) : Session := interrupt (interrupt s (ready 0xE0)) (ready 0x48)

/-- **`ESC` is all that enters the ring** when one slot is free. -/
theorem up_truncated (h : session.Reach s) {repeated : Bool} {states : Nat → BitVec 8}
    (hkeys : s.keys = ⟨noMods, .qwerty, false, repeated, true, states⟩)
    (hfree : free s.state.ring = 1) :
    session.Reach (up s) ∧ returned (up s).state = returned s.state ∧
      accepted (up s).state = accepted s.state ++ [27] ∧
        (up s).pressed = s.pressed ++ [[27, 91, 65]] := by
  have hfirst : session.Reach (interrupt s (ready 0xE0)) :=
    h.step (e := .interrupt (ready 0xE0)) rfl
  have hstate : interrupt s (ready 0xE0) =
      ⟨setExtended s.keys true, { s.state with ring := cleanup s.state.ring }, s.pressed⟩ := by
    rw [interrupt, if_pos (ready_status _)]
    rfl
  have hcount : free (cleanup s.state.ring) = 1 := by
    rw [← hfree]
    unfold cleanup
    split <;> rfl
  have hseq : encoding (setExtended s.keys true) 0x48 = [27, 91, 65] := by
    have hmay : ∀ k : Keys, k.keyRepeatEnabled = true → mayRepeat k = true := by
      intro k hk
      rw [mayRepeat, hk, Bool.or_true]
    rw [hkeys, encoding, hmay _ rfl]
    rfl
  refine ⟨hfirst.step (e := .interrupt (ready 0x48)) rfl, ?_, ?_, ?_⟩
  · rw [up, interrupt_returned, interrupt_returned]
  · rw [up, interrupt_accepted (inv_session hfirst) (ready_status _), hstate, ready_data,
      hseq, hcount]
    rfl
  · rw [up, interrupt, if_pos (ready_status _), hstate, ready_data, hseq]
    rfl

/-- `Up` in an empty ring. -/
theorem keys_whole_up : (session.restrict Fits).Reach (up freshSession) ∧
    Whole (up freshSession) := by
  have hfirst : Fits freshSession (.interrupt (ready 0xE0)) := fun _ => .inr (Nat.zero_le _)
  have hseq : encoding (interrupt freshSession (ready 0xE0)).keys 0x48 = [27, 91, 65] := by
    decide +kernel
  have hfree : free (interrupt freshSession (ready 0xE0)).state.ring = 255 := by decide +kernel
  have hsecond : Fits (interrupt freshSession (ready 0xE0)) (.interrupt (ready 0x48)) := by
    intro _
    rw [ready_data, hseq, hfree]
    exact .inr (by decide)
  have hreach : (session.restrict Fits).Reach (up freshSession) :=
    .step (.step (.init ⟨⟨rfl, rfl, rfl, rfl, rfl⟩, rfl⟩) ⟨hfirst, rfl⟩) ⟨hsecond, rfl⟩
  exact ⟨hreach, keys_whole hreach⟩

/-- The ring has room for one character when `Up` is pressed. -/
def truncated : Session := up (holdA 254)

theorem truncated_spec : session.Reach truncated ∧
    accepted truncated.state = List.replicate 254 97 ++ [27] ∧
    truncated.pressed = List.replicate 254 [97] ++ [[27, 91, 65]] := by
  unfold truncated
  generalize hn : 254 = n
  obtain ⟨hacc, hret, hpressed, repeated, states, hkeys⟩ := holdA_spec (n := n) (by omega)
  have hfifo := congrArg List.length (inv_session (holdA_reach n)).fifo
  rw [hret, hacc, List.nil_append, held_length, List.length_replicate] at hfifo
  have hfree : free (holdA n).state.ring = 1 := by
    unfold free kbBufferSize
    omega
  obtain ⟨hreach, -, hacc', hpressed'⟩ := up_truncated (holdA_reach n) hkeys hfree
  exact ⟨hreach, by rw [hacc', hacc], by rw [hpressed', hpressed]⟩

/-- **A cursor key is broken up**: `Up`, when one slot is free, leaves `ESC` alone in the ring. -/
theorem cursor_key_truncated : session.Reach truncated ∧ ¬ Whole truncated := by
  obtain ⟨hreach, hacc, hpressed⟩ := truncated_spec
  refine ⟨hreach, ?_⟩
  rintro ⟨l, hsub, -, hl⟩
  rw [(inv_session hreach).fifo, hacc] at hl
  -- `ESC` can only come from `Up`, whose other characters are missing
  obtain ⟨seq, hseq, hesc⟩ : ∃ seq ∈ l, (27 : UInt8) ∈ seq := by
    rw [← List.mem_flatten, ← hl]
    exact List.mem_append_right _ (List.mem_singleton.mpr rfl)
  have hup : seq = [27, 91, 65] := by
    have hmem := hsub.subset hseq
    rw [hpressed, List.mem_append, List.mem_replicate, List.mem_singleton] at hmem
    rcases hmem with ⟨-, rfl⟩ | rfl
    · exact absurd hesc (by decide)
    · rfl
  have hbracket : (91 : UInt8) ∈ l.flatten := List.mem_flatten.mpr ⟨seq, hseq, by rw [hup]; decide⟩
  rw [← hl, List.mem_append, List.mem_replicate, List.mem_singleton] at hbracket
  rcases hbracket with ⟨-, h⟩ | h
  · exact absurd h (by decide)
  · exact absurd h (by decide)

end CobraOS.Keyboard
