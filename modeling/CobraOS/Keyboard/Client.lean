import CobraOS.Keyboard.Typed

/-!
# Programs that read the keyboard

A program calls `keyboard_has_char` and `keyboard_get_char`, and interrupts come between any two
accesses of these to the ring.  A relation `R typed p seen` that says what a program has done when
it has got the characters `seen` of the keys `typed` holds in every run, when the program keeps it
with each answer (`Follows`).  A program that asks only a few times before it gets a character gets
all there are (`drains`).
-/

namespace CobraOS.Keyboard

open Base

/-- A call to `keyboard_has_char` or to `keyboard_get_char`. -/
inductive Call
  | has
  | get

/-- A program: its next call, and how it goes on with the result. -/
structure Program (π : Type) where
  call : π → Call
  said : π → Bool → π
  got : π → UInt8 → π

/-- A program with the keyboard, and the keys that have been typed. -/
structure Machine (π : Type) where
  session : Session
  typed : List TypedKey
  prog : π

variable {π : Type}

/-- The next access to the ring, or the next call. -/
def advance (P : Program π) (m : Machine π) : Machine π :=
  let state := m.session.state
  match state.consumer with
  | .idle =>
    match P.call m.prog with
    | .has => { m with session := { m.session with state := { state with consumer := .hasHead } } }
    | .get => { m with session := { m.session with state := { state with consumer := .getHead } } }
  | _ =>
    match access state with
    | none => m
    | some t =>
      { m with
        session := { m.session with state := t }
        prog :=
          match t.consumer, t.log.getLast? with
          | .idle, some (.said b) => P.said m.prog b
          | .idle, some (.got c) => P.got m.prog c
          | _, _ => m.prog }

/-- The key that an interrupt presses, if there is one. -/
def pressedBy (k : Keys) (port : Port) : List TypedKey :=
  if waitForByte 1000 port.status then (keyPressed k port.data).toList else []

def typeKey (m : Machine π) (port : Port) : Machine π :=
  { m with
    session := interrupt m.session port
    typed := m.typed ++ pressedBy m.session.keys port }

/-- The byte presses one of the keys or no key that has characters, and the ring has room. -/
def Suits (m : Machine π) (port : Port) : Prop :=
  waitForByte 1000 port.status = true →
    ((∃ key, keyPressed m.session.keys port.data = some key) ∨
      encoding m.session.keys port.data = []) ∧
    (encoding m.session.keys port.data).length ≤ free m.session.state.ring

inductive MachineStep
  | interrupt (port : Port)
  | advance

/-- Every interleaving of interrupts with the program, from an empty ring and with any keys. -/
def machine (P : Program π) (start : π) : System (Machine π) MachineStep where
  init m := initial m.session.state ∧ m.session.pressed = [] ∧ m.typed = [] ∧ m.prog = start
  step m e m' :=
    match e with
    | .interrupt port => Suits m port ∧ m' = typeKey m port
    | .advance => m' = advance P m

/-- `R typed p seen` is kept with each answer: `false` means that all characters have been got.  A
character is got after `true` only. -/
structure Follows (P : Program π) (start : π) (R : List TypedKey → π → Bytes → Prop) : Prop where
  start : R [] start [] ∧ P.call start = .has
  grow : ∀ {typed key p seen}, R typed p seen → R (typed ++ [key]) p seen
  said_true : ∀ {typed p seen}, R typed p seen → P.call p = .has → R typed (P.said p true) seen
  said_false : ∀ {typed p}, R typed p (codesOf typed) → P.call p = .has →
    R typed (P.said p false) (codesOf typed) ∧ P.call (P.said p false) = .has
  got : ∀ {typed p seen c rest}, R typed p seen → P.call p = .get → (∀ key ∈ typed, key.Printable) →
    codesOf typed = seen ++ c :: rest → R typed (P.got p c) (seen ++ [c]) ∧
      P.call (P.got p c) = .has

/-! ### The invariant -/

/-- The call in progress is the program's, and what it has read of the ring says what it may
answer. -/
def Calling (P : Program π) (R : List TypedKey → π → Bytes → Prop) (m : Machine π) : Consumer → Prop
  | .idle => P.call m.prog = .get → m.session.state.ring.head ≠ m.session.state.ring.tail
  | .hasHead => P.call m.prog = .has
  | .hasTail head => P.call m.prog = .has ∧
      (head ≠ m.session.state.ring.tail → m.session.state.ring.head ≠ m.session.state.ring.tail) ∧
      (head = m.session.state.ring.tail → ∃ typed more, m.typed = typed ++ more ∧
        R typed m.prog (codesOf typed) ∧ returned m.session.state = codesOf typed)
  | _ => P.call m.prog = .get

structure MachineInv (P : Program π) (R : List TypedKey → π → Bytes → Prop)
    (m : Machine π) : Prop where
  inv : Inv m.session.state
  printable : ∀ key ∈ m.typed, key.Printable
  stream : accepted m.session.state = codesOf m.typed
  reads : R m.typed m.prog (returned m.session.state)
  calling : Calling P R m m.session.state.consumer

variable {P : Program π} {start : π} {R : List TypedKey → π → Bytes → Prop} {m m' : Machine π}

theorem Follows.grow_all (h : Follows P start R) {p : π} {seen : Bytes} {typed : List TypedKey}
    (hr : R typed p seen) (more : List TypedKey) : R (typed ++ more) p seen := by
  induction more generalizing typed with
  | nil => rwa [List.append_nil]
  | cons key more ih =>
    have := ih (h.grow hr : R (typed ++ [key]) p seen)
    rwa [List.append_assoc, List.singleton_append] at this

theorem cleanup_fields (r : Ring) : (cleanup r).head = r.head ∧ (cleanup r).tail = r.tail := by
  unfold cleanup
  split <;> exact ⟨rfl, rfl⟩

/-- Characters that are put into the ring do not move `key_tail` and leave something in the ring. -/
theorem putSeq_nonempty {t : State} (h : Inv t) (seq : Bytes) :
    (putSeq t seq).ring.tail = t.ring.tail ∧
    (t.ring.head ≠ t.ring.tail → (putSeq t seq).ring.head ≠ t.ring.tail) := by
  induction seq generalizing t with
  | nil => exact ⟨rfl, id⟩
  | cons c seq ih =>
    unfold putSeq
    rcases hput : bufferPut t.ring c with ⟨ok, ring⟩
    cases ok with
    | true =>
      obtain ⟨-, -, htail, hne, -⟩ := bufferPut_true h.head h.tail hput
      have hp : (put t c).ring = ring := by rw [put, hput]
      obtain ⟨ih₁, ih₂⟩ := ih (h.put c)
      rw [hp, htail] at ih₁ ih₂
      exact ⟨ih₁, fun _ => ih₂ hne⟩
    | false =>
      obtain ⟨-, rfl⟩ := bufferPut_false h.head h.tail hput
      have hp : (put t c).ring = { t.ring with overflow := true } := by rw [put, hput]
      rw [if_neg Bool.false_ne_true, hp]
      exact ⟨rfl, id⟩

theorem interrupt_ring {s : Session} (h : Inv s.state) (port : Port) :
    (interrupt s port).state.consumer = s.state.consumer ∧
    (interrupt s port).state.ring.tail = s.state.ring.tail ∧
    (s.state.ring.head ≠ s.state.ring.tail → (interrupt s port).state.ring.head ≠
      s.state.ring.tail) := by
  unfold interrupt
  split
  · have hput := putSeq_nonempty h (encoding s.keys port.data)
    refine ⟨(putSeq_consumer _ _).1, ?_, ?_⟩
    · rw [(cleanup_fields _).2]
      exact hput.1
    · rw [(cleanup_fields _).1]
      exact hput.2
  · refine ⟨rfl, (cleanup_fields _).2, ?_⟩
    rw [(cleanup_fields _).1]
    exact id

/-- **An interrupt** adds the key that is pressed. -/
theorem MachineInv.typeKey (hf : Follows P start R) (h : MachineInv P R m) {port : Port}
    (hsuits : Suits m port) :
    MachineInv P R (typeKey m port) := by
  obtain ⟨hconsumer, htail, hnonempty⟩ := interrupt_ring h.inv port
  have hreturned := interrupt_returned m.session port
  refine ⟨h.inv.interrupt port, ?_, ?_, ?_, ?_⟩
  · intro key hkey
    rcases List.mem_append.mp hkey with hold | hnew
    · exact h.printable key hold
    · unfold pressedBy at hnew
      split at hnew
      · exact (encoding_typed (Option.mem_toList.mp hnew)).2
      · exact absurd hnew List.not_mem_nil
  · show accepted (interrupt m.session port).state =
      codesOf (m.typed ++ pressedBy m.session.keys port)
    rw [codesOf_append, ← h.stream]
    unfold pressedBy
    cases hready : waitForByte 1000 port.status with
    | false =>
      rw [interrupt, hready]
      exact (List.append_nil _).symm
    | true =>
      obtain ⟨hkey, hroom⟩ := hsuits hready
      rw [interrupt_accepted h.inv hready, List.take_of_length_le hroom, if_pos rfl]
      cases hpressed : keyPressed m.session.keys port.data with
      | some key =>
        rw [(encoding_typed hpressed).1, Option.toList_some, codesOf_cons, codesOf_nil,
          List.append_nil]
      | none =>
        rw [hpressed] at hkey
        rw [hkey.resolve_left (by simp)]
        rfl
  · show R (m.typed ++ pressedBy m.session.keys port) m.prog
      (returned (interrupt m.session port).state)
    rw [hreturned]
    exact hf.grow_all h.reads _
  · have hcalling := h.calling
    show Calling P R (Keyboard.typeKey m port) (interrupt m.session port).state.consumer
    rw [hconsumer]
    cases hk : m.session.state.consumer with
    | idle =>
      rw [hk] at hcalling
      intro hget
      show (interrupt m.session port).state.ring.head ≠ (interrupt m.session port).state.ring.tail
      rw [htail]
      exact hnonempty (hcalling hget)
    | hasTail head =>
      rw [hk] at hcalling
      obtain ⟨hcall, hsome, hnone⟩ := hcalling
      refine ⟨hcall, ?_, ?_⟩
      · intro hne
        have hne : head ≠ m.session.state.ring.tail := htail ▸ hne
        show (interrupt m.session port).state.ring.head ≠ (interrupt m.session port).state.ring.tail
        rw [htail]
        exact hnonempty (hsome hne)
      · intro he
        obtain ⟨typed, more, htyped, hr, hret⟩ := hnone (htail ▸ he)
        refine ⟨typed, more ++ pressedBy m.session.keys port, ?_, hr, hreturned.trans hret⟩
        rw [← List.append_assoc, ← htyped]
        rfl
    | _ =>
      rw [hk] at hcalling
      exact hcalling

theorem held_nil {r : Ring} (h : r.head = r.tail) : held r = [] := by
  have hcount : count r = 0 := by
    unfold count kbBufferSize
    omega
  rw [held, hcount]
  rfl

section

variable (P : Program π) (keys : Keys) (ring : Ring) (log : List Event) (pressed : List Bytes)
  (typed : List TypedKey) (prog : π)

theorem advance_hasTail (head : Nat) :
    advance P ⟨⟨keys, ⟨ring, .hasTail head, log⟩, pressed⟩, typed, prog⟩ =
      ⟨⟨keys, ⟨ring, .idle, log ++ [.said (head != ring.tail)]⟩, pressed⟩, typed,
        P.said prog (head != ring.tail)⟩ := by
  simp [advance, access]

theorem advance_getTail {head : Nat} (hne : ¬ head = ring.tail) :
    advance P ⟨⟨keys, ⟨ring, .getTail head, log⟩, pressed⟩, typed, prog⟩ =
      ⟨⟨keys, ⟨ring, .getIndex, log⟩, pressed⟩, typed, prog⟩ := by
  have hnext : access ⟨ring, .getTail head, log⟩ = some ⟨ring, .getIndex, log⟩ := if_neg hne
  simp [advance, hnext]

theorem advance_getStore (c : UInt8) (tail : Nat) :
    advance P ⟨⟨keys, ⟨ring, .getStore c tail, log⟩, pressed⟩, typed, prog⟩ =
      ⟨⟨keys, ⟨{ ring with tail := (tail + 1) % kbBufferSize }, .idle, log ++ [.got c]⟩, pressed⟩,
        typed, P.got prog c⟩ := by
  simp [advance, access]

end

theorem MachineInv.answer (hf : Follows P start R) (h : MachineInv P R m) {head : Nat}
    (hat : m.session.state.consumer = .hasTail head) : MachineInv P R (advance P m) := by
  obtain ⟨hinv, hprintable, hstream, hreads, hcalling⟩ := h
  obtain ⟨⟨keys, ⟨ring, consumer, log⟩, pressed⟩, typed, prog⟩ := m
  dsimp only at hinv hprintable hstream hreads hcalling hat
  subst hat
  obtain ⟨hcall, hsome, hnone⟩ := hcalling
  have hinv' : Inv ⟨ring, .idle, log ++ [.said (head != ring.tail)]⟩ := hinv.access rfl
  have hacc : accepted ⟨ring, .idle, log ++ [.said (head != ring.tail)]⟩ = codesOf typed := by
    rw [← hstream]
    simp [accepted, Event.accepted?]
  have hret : returned ⟨ring, .idle, log ++ [.said (head != ring.tail)]⟩ =
      returned ⟨ring, .hasTail head, log⟩ := by
    simp [returned, Event.got?]
  rw [advance_hasTail]
  by_cases he : head = ring.tail
  · obtain ⟨typed', more, htyped, hr, hret'⟩ := hnone he
    have hfalse : (head != ring.tail) = false := by simp [he]
    obtain ⟨hr', hcall'⟩ := hf.said_false hr hcall
    refine ⟨hinv', hprintable, hacc, ?_, ?_⟩
    · rw [hret, hfalse]
      show R typed (P.said prog false) (returned ⟨ring, .hasTail head, log⟩)
      have htyped : typed = typed' ++ more := htyped
      have hret' : returned ⟨ring, .hasTail head, log⟩ = codesOf typed' := hret'
      rw [hret', htyped]
      exact hf.grow_all hr' more
    · rw [hfalse]
      intro hget
      exact absurd (hcall'.symm.trans hget) (by simp)
  · have htrue : (head != ring.tail) = true := by simp [he]
    refine ⟨hinv', hprintable, hacc, ?_, ?_⟩
    · rw [hret, htrue]
      exact hf.said_true hreads hcall
    · exact fun _ => hsome he

theorem MachineInv.take (hf : Follows P start R) (h : MachineInv P R m) {c : UInt8} {tail : Nat}
    (hat : m.session.state.consumer = .getStore c tail) : MachineInv P R (advance P m) := by
  obtain ⟨hinv, hprintable, hstream, hreads, hcalling⟩ := h
  have hfifo := hinv.fifo
  have hreading := hinv.reading
  obtain ⟨⟨keys, ⟨ring, consumer, log⟩, pressed⟩, typed, prog⟩ := m
  dsimp only at hinv hprintable hstream hreads hcalling hat hfifo hreading
  subst hat
  obtain ⟨hne, hc, ht⟩ := hreading
  rw [hstream, held_take hinv.head hinv.tail hne, ← hc] at hfifo
  obtain ⟨hr, hcall⟩ := hf.got hreads hcalling hprintable hfifo.symm
  rw [advance_getStore]
  refine ⟨hinv.access rfl, hprintable, ?_, ?_, ?_⟩
  · rw [← hstream]
    simp [accepted, Event.accepted?]
  · have hret : returned ⟨{ ring with tail := (tail + 1) % kbBufferSize }, .idle, log ++ [.got c]⟩ =
        returned ⟨ring, .getStore c tail, log⟩ ++ [c] := by
      simp [returned, Event.got?]
    rw [hret]
    exact hr
  · intro hget
    exact absurd (hcall.symm.trans hget) (by simp)

/-- **One access of the program**, or its next call. -/
theorem MachineInv.advance (hf : Follows P start R) (h : MachineInv P R m) :
    MachineInv P R (advance P m) := by
  obtain ⟨⟨keys, ⟨ring, consumer, log⟩, pressed⟩, typed, prog⟩ := m
  have hinv := h.inv
  have hcalling := h.calling
  have hreading := hinv.reading
  dsimp only at hinv hcalling hreading
  cases consumer with
  | idle =>
    unfold Keyboard.advance
    dsimp only
    cases hcall : P.call prog with
    | has => exact ⟨hinv.silent trivial, h.printable, h.stream, h.reads, hcall⟩
    | get => exact ⟨hinv.silent (hcalling hcall), h.printable, h.stream, h.reads, hcall⟩
  | hasHead =>
    have hreads := h.reads
    have hfifo := hinv.fifo
    rw [h.stream] at hfifo
    dsimp only at hfifo hreads
    refine ⟨hinv.silent trivial, h.printable, h.stream, h.reads, hcalling, id,
      fun he => ⟨typed, [], ?_, ?_, ?_⟩⟩
    · exact (List.append_nil _).symm
    · rw [held_nil he, List.append_nil] at hfifo
      rwa [hfifo] at hreads
    · rwa [held_nil he, List.append_nil] at hfifo
  | hasTail head => exact h.answer hf rfl
  | getHead => exact ⟨hinv.access rfl, h.printable, h.stream, h.reads, hcalling⟩
  | getTail head =>
    rw [advance_getTail P keys ring log pressed typed prog hreading.2]
    exact ⟨hinv.access (if_neg hreading.2), h.printable, h.stream, h.reads, hcalling⟩
  | getIndex => exact ⟨hinv.access rfl, h.printable, h.stream, h.reads, hcalling⟩
  | getSlot index => exact ⟨hinv.access rfl, h.printable, h.stream, h.reads, hcalling⟩
  | getNext c => exact ⟨hinv.access rfl, h.printable, h.stream, h.reads, hcalling⟩
  | getStore c tail => exact h.take hf rfl

theorem MachineInv.init (hf : Follows P start R) (h : (machine P start).init m) :
    MachineInv P R m := by
  obtain ⟨hinit, -, htyped, hprog⟩ := h
  have hlog : m.session.state.log = [] := hinit.2.2.2.2
  refine ⟨inv_reach (.init hinit), ?_, ?_, ?_, ?_⟩
  · rw [htyped]
    exact fun _ hkey => absurd hkey List.not_mem_nil
  · rw [accepted, hlog, htyped]
    rfl
  · rw [htyped, hprog, returned, hlog]
    exact hf.start.1
  · rw [hinit.2.2.2.1]
    intro hget
    rw [hprog, hf.start.2] at hget
    cases hget

/-- **What a program keeps with each answer holds in every run.** -/
theorem machineInv_reach (hf : Follows P start R) (h : (machine P start).Reach m) :
    MachineInv P R m := by
  induction h with
  | init hinit => exact .init hf hinit
  | @step _ _ e _ hstep ih =>
    cases e with
    | interrupt port =>
      obtain ⟨hsuits, rfl⟩ := hstep
      exact ih.typeKey hf hsuits
    | advance =>
      cases hstep
      exact ih.advance hf

/-! ### How far a program has come -/

/-- The characters of the keys in `done` have been got, and of the next key `part`, which is not
all. -/
structure Partway (typed done : List TypedKey) (seen part : Bytes) : Prop where
  reached : done <+: typed
  seen : seen = codesOf done ++ part
  begun : part = [] ∨ ∃ key tail, done ++ [key] <+: typed ∧ codes key = part ++ tail ∧ tail ≠ []

/-- Whatever has been got ends inside the characters of some key, or between two keys. -/
theorem partway_of_prefix {typed : List TypedKey} {seen : Bytes} (h : seen <+: codesOf typed) :
    ∃ done part, Partway typed done seen part := by
  induction typed generalizing seen with
  | nil =>
    obtain rfl : seen = [] := List.prefix_nil.mp h
    exact ⟨[], [], List.nil_prefix, rfl, .inl rfl⟩
  | cons key typed ih =>
    by_cases hall : codes key <+: seen
    · obtain ⟨more, rfl⟩ := hall
      rw [codesOf_cons, List.prefix_append_right_inj] at h
      obtain ⟨done, part, hreached, hseen, hbegun⟩ := ih h
      refine ⟨key :: done, part, List.cons_prefix_cons.mpr ⟨rfl, hreached⟩, ?_, ?_⟩
      · rw [hseen, codesOf_cons, List.append_assoc]
      · refine hbegun.imp_right fun ⟨key', tail, hdone, hcodes, htail⟩ =>
          ⟨key', tail, ?_, hcodes, htail⟩
        exact List.cons_prefix_cons.mpr ⟨rfl, hdone⟩
    · have hpart : seen <+: codes key :=
        (List.prefix_or_prefix_of_prefix h
          (codesOf_cons key typed ▸ List.prefix_append _ _)).resolve_right hall
      obtain ⟨tail, htail⟩ := hpart
      refine ⟨[], seen, List.nil_prefix, rfl, .inr ⟨key, tail, ?_, htail.symm, ?_⟩⟩
      · exact List.cons_prefix_cons.mpr ⟨rfl, List.nil_prefix⟩
      · rintro rfl
        rw [List.append_nil] at htail
        exact hall (htail ▸ List.prefix_refl _)

theorem MachineInv.partway (h : MachineInv P R m) :
    ∃ done part, Partway m.typed done (returned m.session.state) part :=
  partway_of_prefix ⟨_, h.inv.fifo.trans h.stream⟩

/-! ### A program gets all characters -/

/-- How many accesses a call still needs.  An answer that is out of date costs another call. -/
def left (bound : Nat) (r : Ring) : Consumer → Nat
  | .idle => 7
  | .hasHead => 6
  | .hasTail head => if head = r.tail then bound * 10 + 8 else 5
  | .getHead => 6
  | .getTail _ => 5
  | .getIndex => 4
  | .getSlot _ => 3
  | .getNext _ => 2
  | .getStore _ _ => 1

/-- The characters to be got come first, then the calls before the next of them, then the
accesses. -/
def toDo (rank : π → Nat) (bound : Nat) (m : Machine π) : Nat :=
  (held m.session.state.ring).length * (bound * 10 + 8) + rank m.prog * 10 +
    left bound m.session.state.ring m.session.state.consumer

/-- A program that is told `true` comes nearer to its next character. -/
structure Ranked (P : Program π) (rank : π → Nat) (bound : Nat) : Prop where
  bounded : ∀ p, rank p ≤ bound
  said_true : ∀ p, P.call p = .has → rank (P.said p true) < rank p

theorem advance_typed (P : Program π) (m : Machine π) : (advance P m).typed = m.typed := by
  unfold advance
  dsimp only
  split
  · split <;> rfl
  · split <;> rfl

theorem MachineInv.toDo_lt {rank : π → Nat} {bound : Nat} (hrank : Ranked P rank bound)
    (h : MachineInv P R m) (hne : m.session.state.ring.head ≠ m.session.state.ring.tail) :
    toDo rank bound (Keyboard.advance P m) < toDo rank bound m := by
  obtain ⟨hinv, -, -, -, hcalling⟩ := h
  have hreading := hinv.reading
  obtain ⟨⟨keys, ⟨ring, consumer, log⟩, pressed⟩, typed, prog⟩ := m
  dsimp only at hinv hcalling hreading hne
  cases consumer with
  | idle =>
    unfold Keyboard.advance toDo
    dsimp only
    cases P.call prog with
    | has => exact Nat.add_lt_add_left (by decide : 6 < 7) _
    | get => exact Nat.add_lt_add_left (by decide : 6 < 7) _
  | hasHead =>
    have hleft : left bound ring (.hasTail ring.head) = 5 := if_neg hne
    refine Nat.add_lt_add_left ?_ _
    show left bound ring (.hasTail ring.head) < 6
    omega
  | hasTail head =>
    rw [advance_hasTail]
    unfold toDo
    dsimp only [left]
    by_cases he : head = ring.tail
    · rw [if_pos he]
      have := hrank.bounded (P.said prog (head != ring.tail))
      omega
    · have htrue : (head != ring.tail) = true := by simp [he]
      rw [if_neg he, htrue]
      have := hrank.said_true prog hcalling.1
      omega
  | getTail head =>
    rw [advance_getTail P keys ring log pressed typed prog hreading.2]
    exact Nat.add_lt_add_left (by decide : 4 < 5) _
  | getStore c tail =>
    obtain ⟨-, -, ht⟩ := hreading
    have hlen : (held ring).length =
        (held { ring with tail := (tail + 1) % kbBufferSize }).length + 1 := by
      rw [held_take hinv.head hinv.tail hne, ht]
      rfl
    rw [advance_getStore]
    unfold toDo
    dsimp only [left]
    rw [hlen, Nat.add_mul, Nat.one_mul]
    have := hrank.bounded (P.got prog c)
    omega
  | getHead => exact Nat.add_lt_add_left (by decide : 5 < 6) _
  | getIndex => exact Nat.add_lt_add_left (by decide : 3 < 4) _
  | getSlot index => exact Nat.add_lt_add_left (by decide : 2 < 3) _
  | getNext c => exact Nat.add_lt_add_left (by decide : 1 < 2) _

/-- **A program gets all characters that there are**, in finitely many steps. -/
theorem MachineInv.drains (hf : Follows P start R) {rank : π → Nat} {bound : Nat}
    (hrank : Ranked P rank bound) (h : MachineInv P R m) :
    ∃ n, R m.typed ((Keyboard.advance P)^[n] m).prog (codesOf m.typed) := by
  generalize hw : toDo rank bound m = w
  induction w using Nat.strong_induction_on generalizing m with
  | _ w ih =>
    by_cases hempty : m.session.state.ring.head = m.session.state.ring.tail
    · refine ⟨0, ?_⟩
      have hfifo := h.inv.fifo
      rw [held_nil hempty, List.append_nil, h.stream] at hfifo
      rw [← hfifo]
      exact hfifo ▸ h.reads
    · obtain ⟨n, hn⟩ := ih _ (hw ▸ h.toDo_lt hrank hempty) (h.advance hf) rfl
      rw [advance_typed] at hn
      exact ⟨n + 1, hn⟩

end CobraOS.Keyboard
