import CobraOS.Sync.Deadlock
import CobraOS.Timers.Drain

/-!
# The lock of the timers, `lock_acquire` and `lock_release` in `arch/x86/cpu/timer.c`

The functions of `timer.c` again, now as the steps that they do inside the lock, on the one
processor of the kernel: the main code and the callbacks call them, and the timer interrupt may come
before any instruction while interrupts are on.  `timer_tick` takes the lock anew for every round of
its loop.

The runs of `Timers.Model`, in which a call is one step, are what these runs look like from outside
the lock (`locked_timers_atomic`); so whatever holds in those holds here whenever the lock is free.
-/

namespace CobraOS.Timers

open Base

/-! ### The sections -/

/-- How a section ended. -/
inductive Outcome
  | added
  | cancelled (result : Int)
  | fired (t : Nat)
  | drained

/-- The steps of the sections with their local variables; `pp` is as in `State.setIndirect`. -/
inductive Body
  /-- `timer_add`, before its first test -/
  | add (t delayTicks : Nat)
  | addRemove (t delayTicks : Nat) (pp : Option Nat)
  | addSet (t delayTicks : Nat)
  /-- `timer_cancel`, before its first test -/
  | cancel (t : Nat)
  | cancelRemove (t : Nat) (pp : Option Nat)
  | cancelSet (t : Nat)
  /-- `timer_tick`, before the condition of its loop -/
  | round (now : Nat)
  /-- the loop of `queue_insert` -/
  | insert (t : Nat) (pp : Option Nat) (o : Outcome)
  | ended (o : Outcome)

/-- `*pp` -/
def deref (s : State) : Option Nat → Option Nat
  | none => s.queue
  | some a => (s.timers a).next

/-- `*pp = t->next; t->next = NULL;` -/
def unlink (s : State) (pp : Option Nat) (t : Nat) : State :=
  (s.setIndirect pp (s.timers t).next).setNext t none

/-- `t->next = *pp; *pp = t;` -/
def link (s : State) (pp : Option Nat) (t : Nat) : State :=
  (s.setNext t (deref s pp)).setIndirect pp (some t)

/-- The condition of the loop of `timer_tick`, with the tick count that it has read. -/
def dueAt (s : State) (now a : Nat) : Bool := decide (wint (wsub (s.timers a).expires now) ≤ 0)

/-- `timer_queue = t->next; t->next = NULL;` -/
def takeFirst (s : State) (t : Nat) : State := { s with queue := (s.timers t).next }.setNext t none

/-- One step of a section. -/
def actBody (s : State) : Body → Option (Body × State)
  | .add t d => some (if (s.timers t).active then .addRemove t d none else .addSet t d, s)
  | .addRemove t d pp =>
    match deref s pp with
    | none => some (.addSet t d, s)
    | some a =>
      if a = t then some (.addSet t d, unlink s pp t) else some (.addRemove t d (some a), s)
  | .addSet t d => some (.insert t none .added, s.set t { s.timers t with
      expires := (s.tick + (if d = 0 then 1 else d)) % 4294967296
      active := true })
  | .cancel t =>
    some (if (s.timers t).active then .cancelRemove t none else .ended (.cancelled (-1)), s)
  | .cancelRemove t pp =>
    match deref s pp with
    | none => some (.cancelSet t, s)
    | some a =>
      if a = t then some (.cancelSet t, unlink s pp t) else some (.cancelRemove t (some a), s)
  | .cancelSet t => some (.ended (.cancelled 0), s.set t { s.timers t with active := false })
  | .round now =>
    match s.queue with
    | none => some (.ended .drained, s)
    | some t =>
      if dueAt s now t then
        let s := takeFirst s t
        if (s.timers t).period ≠ 0 then
          some (.insert t none (.fired t),
            s.set t { s.timers t with expires := (now + (s.timers t).period) % 4294967296 })
        else some (.ended (.fired t), s.set t { s.timers t with active := false })
      else some (.ended .drained, s)
  | .insert t pp o =>
    match deref s pp with
    | none => some (.ended o, link s pp t)
    | some a =>
      if (s.timers a).expires ≤ (s.timers t).expires then some (.insert t (some a) o, s)
      else some (.ended o, link s pp t)
  | .ended _ => none

/-! ### The code around them -/

/-- Where the code is; `cb` is the tick count of the `timer_tick` whose callback it is, and `none`
in the main code. -/
inductive Place
  /-- code that may call the functions -/
  | calls (cb : Option Nat)
  /-- `timer_setup` -/
  | setting (cb : Option Nat) (t : Nat) (fn : Option Nat) (arg period : Nat)
  /-- a section, or `lock_acquire` before it -/
  | section (cb : Option Nat) (body : Body)
  /-- `pit_handler`, before `tick_count++` -/
  | pit
  /-- `timer_tick`, before `now = pit_get_tick_count()` -/
  | reading
  /-- the end of a handler -/
  | returned

/-- The place is a `lock_acquire`. -/
def Enters : Place → Prop
  | .section _ (.add t d) => Address t ∧ d < 4294967296
  | .section _ (.cancel t) => Address t
  | .section (some now) (.round now') => now = now'
  | _ => False

/-- Where the code goes on after `lock_release`. -/
def leave : Place → Place
  | .section _ (.ended .drained) => .returned
  | .section cb _ => .calls cb
  | p => p

/-- A step outside the lock. -/
inductive Free : Place → State → Bool → Place → State → Bool → Prop
  /-- a call of `timer_add` or `timer_cancel` -/
  | call {cb : Option Nat} {body : Body} {s : State} {b : Bool}
      (h : Enters (.section cb body)) (hround : ∀ now, body ≠ .round now) :
      Free (.calls cb) s b (.section cb body) s b
  /-- a call of `timer_setup` for a timer that is not active -/
  | setup {cb : Option Nat} {t : Nat} {fn : Option Nat} {arg period : Nat} {s : State} {b : Bool} :
      Free (.calls cb) s b (.setting cb t fn arg period) s b
  | set {cb : Option Nat} {t : Nat} {fn : Option Nat} {arg period : Nat} {s : State} {b : Bool}
      (ht : Address t) (hinactive : (s.timers t).active = false) (hp : period < 4294967296) :
      Free (.setting cb t fn arg period) s b (.calls cb) (timerSetup s t fn arg period) b
  /-- `sti` or `cli` in the main code -/
  | flags {s : State} {b b' : Bool} : Free (.calls none) s b (.calls none) s b'
  /-- the callback returns -/
  | back {now : Nat} {s : State} {b : Bool} :
      Free (.calls (some now)) s b (.section (some now) (.round now)) s b
  | count {s : State} {b : Bool} : Free .pit s b .reading (tickCount s) b
  | read {s : State} {b : Bool} : Free .reading s b (.section (some s.tick) (.round s.tick)) s b

/-- The code of the timers and of those who use them. -/
def code : Sections Place State where
  enters := Enters
  act p s :=
    match p with
    | .section cb body => (actBody s body).map fun r => (.section cb r.1, r.2)
    | _ => none
  leave := leave
  free := Free
  handler p := p = .pit ∨ p = .returned
  finished p := p = .returned

/-- `lock_acquire` saves the flags, and `lock_release` sets the interrupt flag when it was set. -/
def lock : Sync.Variant Place := ⟨fun _ => true, Sync.stiIfSet, fun flags => Bool.or_false flags⟩

/-- The one processor. -/
abbrev Machine1 := Sync.State Unit Place State

/-- Every run on it. -/
def locked : System Machine1 (Sync.Instr Unit Place) := Sync.ruled code lock

/-- The event that an instruction completes. -/
def eventOf : Sections.Label Unit Place → Option Event
  | .free _ (.setting _ t fn arg period) _ => some (.setup t fn arg period)
  | .free _ .pit _ => some .pit
  | .whole _ (.section _ (.add t d)) _ => some (.add t d)
  | .whole _ (.section _ (.cancel t)) _ => some (.cancel t)
  | .whole _ _ (.section _ (.ended (.fired t))) => some (.fire t)
  | .whole _ _ (.section _ (.ended .drained)) => some .done
  | _ => none

/-! ### A section from its first step to its last -/

/-- Some steps of a section. -/
def Steps : Body × State → Body × State → Prop :=
  Relation.ReflTransGen (fun p q => actBody p.2 p.1 = some q)

section

variable {s s' : State} {t d : Nat} {o : Outcome}

/-- The loops of `queue_insert` and `queue_remove` walk as `locate` does. -/
theorem steps_walk (w : Option Nat → Body) (stop : Nat → Bool)
    (hw : ∀ pp a, deref s pp = some a → stop a = false → actBody s (w pp) = some (w (some a), s)) :
    ∀ {fuel : Nat} {pp pp' cur : Option Nat}, locate (links s) stop fuel pp (deref s pp) =
      some (pp', cur) →
      Steps (w pp, s) (w pp', s) ∧ deref s pp' = cur ∧ ∀ a ∈ cur, stop a = true := by
  intro fuel
  induction fuel with
  | zero =>
    intro pp pp' cur h
    cases h
  | succ fuel ih =>
    intro pp pp' cur h
    cases hd : deref s pp with
    | none =>
      rw [hd] at h
      cases h
      exact ⟨.refl, hd, fun a ha => by cases ha⟩
    | some a =>
      rw [hd, locate] at h
      split at h
      · next hstop =>
        cases h
        refine ⟨.refl, hd, fun b hb => ?_⟩
        cases hb
        exact hstop
      · next hstop =>
        obtain ⟨hsteps, hcur⟩ := ih h
        exact ⟨.head (hw pp a hd (by simpa using hstop)) hsteps, hcur⟩

theorem steps_insert (h : queueInsert s t = some s') : Steps (.insert t none o, s)
    (.ended o, s') := by
  unfold queueInsert at h
  cases hloc : locate (links s) (fun a => decide ((s.timers t).expires < (s.timers a).expires))
      queueFuel none
      s.queue with
  | none =>
    rw [hloc] at h
    cases h
  | some r =>
    obtain ⟨pp, cur⟩ := r
    rw [hloc] at h
    cases h
    obtain ⟨hsteps, hcur, hstop⟩ := steps_walk (fun pp => .insert t pp o) _ (fun pp a hd ha => by
      have hle : (s.timers a).expires ≤ (s.timers t).expires := by simpa using ha
      unfold actBody
      simp only [hd, if_pos hle]) hloc
    refine hsteps.tail ?_
    unfold actBody
    cases cur with
    | none =>
      simp only [hcur]
      unfold link
      rw [hcur]
    | some a =>
      have hlt : ¬ (s.timers a).expires ≤ (s.timers t).expires := by simpa using hstop a rfl
      simp only [hcur, if_neg hlt]
      unfold link
      rw [hcur]

/-- `queue_remove` in `timer_add` and in `timer_cancel`: `w` are the steps of its loop, and `next`
is what follows. -/
theorem steps_remove (w : Option Nat → Body) (next : Body)
    (hw : ∀ pp, actBody s (w pp) = match deref s pp with
      | none => some (next, s)
      | some a => if a = t then some (next, unlink s pp t) else some (w (some a), s))
    (h : queueRemove s t = some s') : Steps (w none, s) (next, s') := by
  unfold queueRemove at h
  cases hloc : locate (links s) (fun a => a == t) queueFuel none s.queue with
  | none =>
    rw [hloc] at h
    cases h
  | some r =>
    obtain ⟨pp, cur⟩ := r
    rw [hloc] at h
    obtain ⟨hsteps, hcur, hstop⟩ := steps_walk w _ (fun pp a hd ha => by
      have hne : a ≠ t := by simpa using ha
      rw [hw, hd]
      exact if_neg hne) hloc
    refine hsteps.tail ?_
    show actBody s (w pp) = _
    rw [hw, hcur]
    cases cur with
    | none =>
      cases h
      rfl
    | some a =>
      cases h
      obtain rfl : a = t := by simpa using hstop a rfl
      exact if_pos rfl

theorem steps_add (h : timerAdd s t d = some s') : Steps (.add t d, s) (.ended .added, s') := by
  unfold timerAdd at h
  obtain ⟨s₁, hs₁, h⟩ := Option.bind_eq_some_iff.mp h
  have hfirst : Steps (.add t d, s) (.addSet t d, s₁) := by
    unfold dequeue at hs₁
    cases hact : (s.timers t).active with
    | false =>
      rw [hact] at hs₁
      cases hs₁
      refine .single ?_
      show some (_, s) = _
      rw [hact]
      rfl
    | true =>
      rw [if_pos hact] at hs₁
      have hloop : Steps (.addRemove t d none, s) (.addSet t d, s₁) :=
        steps_remove (.addRemove t d) _ (fun _ => rfl) hs₁
      refine .head ?_ hloop
      show some (_, s) = _
      rw [hact]
      rfl
  exact (hfirst.tail rfl).trans (steps_insert h)

theorem steps_cancel {r : Int} (h : timerCancel s t = some (r, s')) :
    Steps (.cancel t, s) (.ended (.cancelled r), s') := by
  unfold timerCancel at h
  cases hact : (s.timers t).active with
  | false =>
    rw [hact] at h
    cases h
    refine .single ?_
    show some (_, s) = _
    rw [hact]
    rfl
  | true =>
    rw [if_pos hact] at h
    obtain ⟨s₁, hs₁, h⟩ := Option.bind_eq_some_iff.mp h
    cases h
    have hloop : Steps (.cancelRemove t none, s) (.cancelSet t, s₁) :=
      steps_remove (.cancelRemove t) _ (fun _ => rfl) hs₁
    refine .head ?_ (hloop.tail rfl)
    show some (_, s) = _
    rw [hact]
    rfl

/-- How a round ends. -/
def roundOutcome : Option Nat → Outcome
  | some t => .fired t
  | none => .drained

theorem steps_round {r : Option Nat} (h : timerTickRound s = some (r, s')) :
    Steps (.round s.tick, s) (.ended (roundOutcome r), s') := by
  unfold timerTickRound at h
  cases hq : s.queue with
  | none =>
    simp only [hq] at h
    cases h
    refine .single ?_
    unfold actBody
    simp only [hq]
    rfl
  | some t =>
    simp only [hq] at h
    by_cases hdue : due s t = true
    · rw [if_pos hdue] at h
      have hdue' : dueAt s s.tick t = true := hdue
      by_cases hp : ((takeFirst s t).timers t).period ≠ 0
      · have h' := (if_pos hp).symm.trans h
        obtain ⟨s₁, hs₁, h'⟩ := Option.bind_eq_some_iff.mp h'
        cases h'
        refine .head ?_ (steps_insert hs₁)
        unfold actBody
        simp only [hq, if_pos hdue', if_pos hp]
        rfl
      · have h' := (if_neg hp).symm.trans h
        cases h'
        refine .single ?_
        unfold actBody
        simp only [hq, if_pos hdue', if_neg hp]
        rfl
    · rw [if_neg hdue] at h
      cases h
      have hdue' : ¬ dueAt s s.tick t = true := hdue
      refine .single ?_
      unfold actBody
      simp only [hq, if_neg hdue']
      rfl

theorem Steps.whole {body : Body} (cb : Option Nat) (h : Steps (body, s) (.ended o, s')) :
    code.Whole (.section cb body) s (.section cb (.ended o)) s' := by
  refine ⟨?_, rfl⟩
  exact Relation.ReflTransGen.lift (p := fun p q => code.act p.1 p.2 = some q)
    (fun r : Body × State => (Place.section cb r.1, r.2)) (fun p q hpq => by
      show (actBody p.2 p.1).map _ = _
      rw [show actBody p.2 p.1 = some q from hpq]
      rfl) _ _ h

/-! ### The places between the sections -/

/-- A place of the main code, or of a callback of the `timer_tick` that has read `now`. -/
def PlaceOk (cb : Option Nat) : Place → Prop
  | .calls c => c = cb
  | .setting c _ _ _ _ => c = cb
  | .section c body => c = cb ∧ Enters (.section c body)
  | _ => False

/-- A place of a handler; `ticking` says that `timer_tick` is running. -/
def HandlerOk (s : State) (ticking : Bool) (p : Place) : Prop :=
  (ticking = false ∧ (p = .pit ∨ p = .returned)) ∨
    (ticking = true ∧ (p = .reading ∨ PlaceOk (some s.tick) p))

/-- The processor between its sections: a handler runs with interrupts off, and is not
interrupted. -/
inductive Shape (s : State) (ticking : Bool) : Processor Place → Prop
  | main {b : Bool} {p : Place} (ht : ticking = false) (hp : PlaceOk none p) :
    Shape s ticking ⟨b, p, []⟩
  | handler {p h : Place} (hp : PlaceOk none p) (hh : HandlerOk s ticking h) :
      Shape s ticking ⟨false, h, [p]⟩

theorem PlaceOk.free {cb : Option Nat} {p p' : Place} {b b' : Bool} (hp : PlaceOk cb p)
    (ticking : Bool) (h : Free p s b p' s' b') : PlaceOk cb p' ∧ (cb ≠ none → b' = b) ∧
      s'.tick = s.tick ∧
      system.Run ⟨s, ticking⟩ (eventOf (.free () p p')).toList ⟨s', ticking⟩ := by
  cases h with
  | call hent _ =>
    obtain rfl : _ = cb := hp
    exact ⟨⟨rfl, hent⟩, fun _ => rfl, rfl, .nil _⟩
  | setup =>
    obtain rfl : _ = cb := hp
    exact ⟨rfl, fun _ => rfl, rfl, .nil _⟩
  | set ht hinactive hperiod =>
    obtain rfl : _ = cb := hp
    exact ⟨rfl, fun _ => rfl, rfl, System.Run.single ⟨ht, hinactive, hperiod, rfl⟩⟩
  | flags =>
    obtain rfl : _ = cb := hp
    exact ⟨rfl, fun hn => absurd rfl hn, rfl, .nil _⟩
  | back =>
    obtain rfl : _ = cb := hp
    exact ⟨⟨rfl, rfl⟩, fun _ => rfl, rfl, .nil _⟩
  | count => exact hp.elim
  | read => exact hp.elim

theorem tick_same {ticking ticking' : Bool} {e : Event} (hr : system.Reach ⟨s, ticking⟩)
    (h : Step ⟨s, ticking⟩ e ⟨s', ticking'⟩) (he : e ≠ .pit) : s'.tick = s.tick := by
  obtain ⟨q, hg⟩ := reach_good hr
  obtain ⟨q', -, htick, -⟩ := step_spec hg h
  rw [htick, if_neg he]
  exact Nat.mod_eq_of_lt hg.tick

theorem PlaceOk.whole {cb : Option Nat} {p p' : Place} (hp : PlaceOk cb p) (hent : Enters p)
    (hcb : ∀ now ∈ cb, now = s.tick) (hr : system.Reach ⟨s, cb.isSome⟩) (h : code.Whole p s p' s') :
    ∃ ticking, system.Run ⟨s, cb.isSome⟩ (eventOf (.whole () p p')).toList ⟨s', ticking⟩ ∧
      s'.tick = s.tick ∧ ((ticking = cb.isSome ∧ PlaceOk cb (leave p')) ∨
        (cb.isSome = true ∧ ticking = false ∧ leave p' = .returned)) := by
  obtain ⟨q, hg⟩ := reach_good hr
  cases p with
  | «section» c body =>
    obtain ⟨rfl, -⟩ := hp
    cases body with
    | add t d =>
      obtain ⟨s₁, hs₁, -⟩ := add_spec hg hent.1 d
      obtain ⟨rfl, rfl⟩ := h.unique ((steps_add hs₁).whole c)
      have hstep : Step ⟨s, c.isSome⟩ (.add t d) ⟨s', c.isSome⟩ := ⟨hent.1, hent.2, s', hs₁, rfl⟩
      exact ⟨_, System.Run.single hstep, tick_same hr hstep (fun he => by cases he),
        .inl ⟨rfl, rfl⟩⟩
    | cancel t =>
      obtain ⟨r, s₁, hs₁, -⟩ := cancel_spec hg t
      obtain ⟨rfl, rfl⟩ := h.unique ((steps_cancel hs₁).whole c)
      have hstep : Step ⟨s, c.isSome⟩ (.cancel t) ⟨s', c.isSome⟩ := ⟨hent, r, s', hs₁, rfl⟩
      exact ⟨_, System.Run.single hstep, tick_same hr hstep (fun he => by cases he),
        .inl ⟨rfl, rfl⟩⟩
    | round now =>
      cases c with
      | none => exact hent.elim
      | some now' =>
        obtain rfl : now' = now := hent
        obtain rfl := hcb now' rfl
        rcases round_spec hg with ⟨hs₁, -⟩ | ⟨t, rest, s₁, -, -, hs₁, -⟩
        · obtain ⟨rfl, rfl⟩ := h.unique ((steps_round hs₁).whole (some s.tick))
          have hstep : Step ⟨s', true⟩ .done ⟨s', false⟩ := ⟨rfl, s', hs₁, rfl⟩
          exact ⟨false, System.Run.single hstep, rfl, .inr ⟨rfl, rfl, rfl⟩⟩
        · obtain ⟨rfl, rfl⟩ := h.unique ((steps_round hs₁).whole (some s.tick))
          have hstep : Step ⟨s, true⟩ (.fire t) ⟨s', true⟩ := ⟨rfl, s', hs₁, rfl⟩
          exact ⟨true, System.Run.single hstep, tick_same hr hstep (fun he => by cases he),
            .inl ⟨rfl, rfl⟩⟩
    | _ => exact hent.elim
  | _ => exact hent.elim

end

/-! ### Runs -/

/-- The machine with sections of one step, and the timers of `Timers.Model`. -/
structure Agree (a : Processors Unit Place State) (m : Machine) : Prop where
  st : m.st = a.shared
  reach : system.Reach m
  shape : Shape a.shared m.ticking (a.cpu ())

/-- **One step** of the machine is at most one event of the timers. -/
theorem Agree.step {a a' : Processors Unit Place State} {m : Machine}
    {e : Sections.Label Unit Place} (h : Agree a m) (hstep : code.step a e a') :
    ∃ m', system.Run m (eventOf e).toList m' ∧ Agree a' m' := by
  obtain ⟨s, ticking⟩ := m
  obtain ⟨rfl, hreach, hshape⟩ := h
  cases e with
  | free c p p' =>
    obtain ⟨hrun, -, s', b, hfree, rfl⟩ := hstep
    cases hcpu : a.cpu () with
    | mk accepts running interrupted =>
      rw [hcpu] at hshape hrun hfree
      obtain rfl : running = p := hrun
      cases hshape with
      | main ht hp =>
        subst ht
        obtain ⟨hp', -, -, hr⟩ := hp.free false hfree
        refine ⟨_, hr, rfl, hreach.run hr, ?_⟩
        rw [Sections.put_self]
        exact .main rfl hp'
      | @handler p₀ _ hp hh =>
        rcases hh with ⟨rfl, rfl | rfl⟩ | ⟨rfl, rfl | hh⟩
        · cases hfree
          have hpit : system.step ⟨a.shared, false⟩ .pit ⟨tickCount a.shared, true⟩ := ⟨rfl, rfl⟩
          have hr := System.Run.single hpit
          refine ⟨_, hr, rfl, hreach.run hr, ?_⟩
          rw [Sections.put_self]
          exact .handler hp (.inr ⟨rfl, .inl rfl⟩)
        · cases hfree
        · cases hfree
          refine ⟨_, .nil _, rfl, hreach, ?_⟩
          rw [Sections.put_self]
          exact .handler hp (.inr ⟨rfl, .inr ⟨rfl, rfl⟩⟩)
        · obtain ⟨hp', hb, htick, hr⟩ := hh.free true hfree
          obtain rfl := hb (fun hn => by cases hn)
          refine ⟨_, hr, rfl, hreach.run hr, ?_⟩
          rw [Sections.put_self]
          refine .handler hp (.inr ⟨rfl, .inr ?_⟩)
          rw [Sections.put_shared, htick]
          exact hp'
  | whole c p p' =>
    obtain ⟨hrun, hent, s', hwhole, rfl⟩ := hstep
    cases hcpu : a.cpu () with
    | mk accepts running interrupted =>
      rw [hcpu] at hshape hrun
      obtain rfl : running = p := hrun
      cases hshape with
      | main ht hp =>
        subst ht
        obtain ⟨ticking, hr, -, ⟨rfl, hp'⟩ | ⟨hc, -⟩⟩ :=
          hp.whole hent (fun _ h => by cases h) hreach hwhole
        · refine ⟨_, hr, rfl, hreach.run hr, ?_⟩
          rw [Sections.put_self]
          exact .main rfl hp'
        · cases hc
      | @handler p₀ _ hp hh =>
        rcases hh with ⟨rfl, rfl | rfl⟩ | ⟨rfl, rfl | hh⟩
        · exact hent.elim
        · exact hent.elim
        · exact hent.elim
        · obtain ⟨ticking, hr, htick, hcase⟩ :=
            hh.whole hent (fun _ h => by cases h; rfl) hreach hwhole
          refine ⟨_, hr, rfl, hreach.run hr, ?_⟩
          rw [Sections.put_self]
          refine .handler hp ?_
          rcases hcase with ⟨rfl, hp'⟩ | ⟨-, rfl, hret⟩
          · refine .inr ⟨rfl, .inr ?_⟩
            rw [Sections.put_shared, htick]
            exact hp'
          · exact .inl ⟨rfl, .inr hret⟩
  | interrupt c p =>
    obtain ⟨haccepts, hhandler, rfl⟩ := hstep
    refine ⟨_, .nil _, rfl, hreach, ?_⟩
    rw [Sections.put_self]
    cases hcpu : a.cpu () with
    | mk accepts running interrupted =>
      rw [hcpu] at hshape haccepts
      cases hshape with
      | main ht hp => exact .handler hp (.inl ⟨ht, hhandler⟩)
      | handler hp hh => cases haccepts
  | resume c =>
    obtain ⟨hfin, p, rest, hint, rfl⟩ := hstep
    refine ⟨_, .nil _, rfl, hreach, ?_⟩
    rw [Sections.put_self]
    cases hcpu : a.cpu () with
    | mk accepts running interrupted =>
      rw [hcpu] at hshape hfin hint
      obtain rfl : running = .returned := hfin
      cases hshape with
      | main ht hp => exact hp.elim
      | handler hp hh =>
        cases hint
        rcases hh with ⟨rfl, -⟩ | ⟨-, hret | hret⟩
        · exact .main rfl hp
        · cases hret
        · exact hret.elim

/-- The kernel before the first call: no timer is set up, and the main code runs. -/
def Start (m : Machine1) : Prop :=
  m.locked = 0 ∧ (∃ b, m.cpu () = ⟨b, .outside (.calls none), []⟩) ∧ Fresh ⟨m.shared, false⟩

theorem Start.idle {m : Machine1} (h : Start m) : Sync.Idle m := by
  obtain ⟨hlocked, ⟨b, hcpu⟩, -⟩ := h
  refine ⟨hlocked, fun c => ?_⟩
  rw [show m.cpu c = _ from hcpu]
  exact ⟨⟨_, rfl⟩, rfl⟩

/-- A run of the instructions, the run of the timers that it stands for, and what is left of a
section that is in progress. -/
theorem locked_agree {m m' : Machine1} {l : List (Sync.Instr Unit Place)} (hm : Start m)
    (h : locked.Run m l m') : ∃ s t, Sync.Inv code m' s ∧ Agree (Sync.viewAll m' s) t ∧
      system.Run ⟨m.shared, false⟩ ((l.filterMap Sync.shown).filterMap eventOf) t := by
  obtain ⟨s, hs, hrun⟩ : ∃ s, Sync.Inv code m' s ∧ (code.atomic fun _ => True).Run
      (Sync.viewAll m m.shared) (l.filterMap Sync.shown) (Sync.viewAll m' s) :=
    Sync.sections_atomic (.inl inferInstance) hm.idle h
  obtain ⟨-, ⟨b, hcpu⟩, hfresh⟩ := hm
  have hstart : Agree (Sync.viewAll m m.shared) ⟨m.shared, false⟩ := by
    refine ⟨rfl, .init hfresh, ?_⟩
    show Shape _ _ (Sync.view (m.cpu ()))
    rw [hcpu]
    exact .main rfl rfl
  obtain ⟨t, ht, hagree⟩ :=
    hrun.simulate (T := system) eventOf Agree (fun _ _ _ _ => Agree.step) hstart
  exact ⟨s, t, hs, hagree, ht⟩

/-- **The functions of `timer.c` are atomic**: every run of their instructions, with the timer
interrupt anywhere, is a run of the timers with one event for each section, and the timers are as it
says whenever the lock is free. -/
theorem locked_timers_atomic {m m' : Machine1} {l : List (Sync.Instr Unit Place)} (hm : Start m)
    (h : locked.Run m l m') :
    ∃ t, system.Run ⟨m.shared, false⟩ ((l.filterMap Sync.shown).filterMap eventOf) t ∧
      (m'.locked = 0 → t.st = m'.shared) := by
  obtain ⟨s, t, hs, hagree, hrun⟩ := locked_agree hm h
  refine ⟨t, hrun, fun hlocked => ?_⟩
  rw [hagree.st]
  cases hs.owner with
  | free _ _ hs => exact hs (.inl inferInstance)
  | held hl _ _ _ =>
    rw [hl] at hlocked
    cases hlocked

/-- The kernel with the tick count `n`, and with interrupts on. -/
def bootLocked (n : Nat) : Machine1 := ⟨fun _ => ⟨true, .outside (.calls none), []⟩, 0, (boot n).st⟩

theorem bootLocked_start : Start (bootLocked 7) := ⟨rfl, ⟨true, rfl⟩, boot_fresh (by decide)⟩

/-- `timer_add` of the timer 1, up to its section. -/
def adding : List (Sync.Instr Unit Place) :=
  [.free () (.calls none) (.section none (.add 1 5)), .begin (), .cli (), .testAndSet ()]

/-- The rest of it; a timer interrupt comes as soon as the flags are restored. -/
def added : List (Sync.Instr Unit Place) :=
  [.act (), .act (), .act (),
    .release () (.section none (.add 1 5)) (.section none (.ended .added)),
    .restore (), .interrupt () .pit, .free () .pit .reading]

theorem enters_add : Enters (.section none (.add 1 5)) := by
  unfold Enters Address
  decide

theorem adding_run : ∃ m, locked.Run (bootLocked 7) adding m ∧ ((m.cpu ()).running =
    .inside (some true) (.section none (.add 1 5)) (.section none (.add 1 5)) ∧
      ∃ m', locked.Run m added m') :=
  ⟨_, .cons (e := Sync.Instr.free () _ _) ⟨trivial, rfl, id, _, _,
    .call enters_add (by simp), rfl⟩ <|
    .cons (e := Sync.Instr.begin ()) ⟨fun _ _ h => Bool.noConfusion h, _, rfl, enters_add, rfl⟩ <|
    .cons (e := Sync.Instr.cli ()) ⟨trivial, _, _, rfl, rfl⟩ <|
    .cons (e := Sync.Instr.testAndSet ()) ⟨trivial, _, _, rfl, rfl⟩ (.nil _), rfl, _,
    .cons (e := Sync.Instr.act ()) ⟨trivial, _, _, _, _, _, rfl, rfl, rfl⟩ <|
    .cons (e := Sync.Instr.act ()) ⟨trivial, _, _, _, _, _, rfl, rfl, rfl⟩ <|
    .cons (e := Sync.Instr.act ()) ⟨trivial, _, _, _, _, _, rfl, rfl, rfl⟩ <|
    .cons (e := Sync.Instr.release () _ _) ⟨trivial, _, rfl, rfl, rfl⟩ <|
    .cons (e := Sync.Instr.restore ()) ⟨trivial, _, _, rfl, rfl⟩ <|
    .cons (e := Sync.Instr.interrupt () Place.pit) ⟨trivial, rfl, .inl rfl, rfl⟩ <|
    .cons (e := Sync.Instr.free () Place.pit Place.reading) ⟨trivial, rfl, id, _, _, .count, rfl⟩
      (.nil _)⟩

theorem locked_timers_atomic_adding : ∃ m, locked.Run (bootLocked 7) (adding ++ added) m ∧
    ∃ t, system.Run (boot 7) [.add 1 5, .pit] t ∧ (m.locked = 0 → t.st = m.shared) := by
  obtain ⟨m, hrun, -, m', hrun'⟩ := adding_run
  exact ⟨m', hrun.append hrun', locked_timers_atomic bootLocked_start (hrun.append hrun')⟩

theorem section_ends {s : State} {ticking : Bool} {p : Place} {cb : Option Nat}
    (hr : system.Reach ⟨s, ticking⟩) (hp : PlaceOk cb p) (hent : Enters p)
    (hcb : ∀ now ∈ cb, now = s.tick) :
    ∃ p' s', code.Whole p s p' s' := by
  obtain ⟨q, hg⟩ := reach_good hr
  cases p with
  | «section» c body =>
    obtain ⟨rfl, -⟩ := hp
    cases body with
    | add t d =>
      obtain ⟨s', hs', -⟩ := add_spec hg hent.1 d
      exact ⟨_, s', (steps_add hs').whole c⟩
    | cancel t =>
      obtain ⟨r, s', hs', -⟩ := cancel_spec hg t
      exact ⟨_, s', (steps_cancel hs').whole c⟩
    | round now =>
      cases c with
      | none => exact hent.elim
      | some now' =>
        obtain rfl : now' = now := hent
        obtain rfl := hcb now' rfl
        rcases round_spec hg with ⟨hs', -⟩ | ⟨t, rest, s', -, -, hs', -⟩
        · exact ⟨_, s, (steps_round hs').whole _⟩
        · exact ⟨_, s', (steps_round hs').whole _⟩
    | _ => exact hent.elim
  | _ => exact hent.elim

/-- The code that runs, when it is about to enter a section, with the tick count that it has
read. -/
theorem Shape.running {s : State} {ticking : Bool} {cpu : Processor Place} (h : Shape s ticking cpu)
    (hent : Enters cpu.running) : ∃ cb, PlaceOk cb cpu.running ∧ ∀ now ∈ cb, now = s.tick := by
  cases h with
  | main _ hp => exact ⟨none, hp, fun _ h => by cases h⟩
  | handler _ hh =>
    rcases hh with ⟨-, rfl | rfl⟩ | ⟨-, rfl | hh⟩
    · exact hent.elim
    · exact hent.elim
    · exact hent.elim
    · exact ⟨some s.tick, hh, fun _ h => by cases h; rfl⟩

/-- **No critical section of `timer.c` hangs**: in every reachable state the lock is not waited for,
and a section that is in progress comes to its end, whatever the queue is.  (That a tick runs
through all its callbacks is another matter, see `tickEnds_iff`.) -/
theorem locked_timers_complete {m m' : Machine1} {l : List (Sync.Instr Unit Place)} (hm : Start m)
    (h : locked.Run m l m') : (∀ flags p, (m'.cpu ()).running ≠ .spinning flags p) ∧
      ∀ flags p at', (m'.cpu ()).running = .inside flags p at' →
        ∃ p' s', code.Whole at' m'.shared p' s' := by
  refine ⟨Sync.alone_never_spins (System.Reach.run (.init hm.idle) h), fun flags p at' hin => ?_⟩
  obtain ⟨s, t, hs, ⟨hst, hreach, hshape⟩, -⟩ := locked_agree hm h
  obtain ⟨-, -, hacts⟩ := hs.owner.of_inside hin
  have hok := hs.running ()
  rw [hin] at hok
  have hplace : (Sync.view (m'.cpu ())).running = p := by
    unfold Sync.view
    rw [hin]
    rfl
  obtain ⟨cb, hp, hcb⟩ := hshape.running (hplace ▸ hok.2)
  obtain ⟨s₀, ticking⟩ := t
  obtain rfl : s₀ = s := hst
  obtain ⟨p', s', hwhole⟩ := section_ends hreach (hplace ▸ hp) hok.2 hcb
  exact ⟨p', s', hwhole.rest (hacts (.inl inferInstance))⟩

theorem locked_timers_complete_adding : ∃ m, locked.Run (bootLocked 7) adding m ∧
    ((∀ flags p, (m.cpu ()).running ≠ .spinning flags p) ∧ ∀ flags p at',
      (m.cpu ()).running = .inside flags p at' → ∃ p' s', code.Whole at' m.shared p' s') := by
  obtain ⟨m, hrun, -⟩ := adding_run
  exact ⟨m, hrun, locked_timers_complete bootLocked_start hrun⟩

end CobraOS.Timers
