import CobraOS.Base.Chain
import CobraOS.Base.Word
import CobraOS.Base.System

/-!
# Timers, `arch/x86/cpu/timer.c` and `pit_handler`

The queue is an intrusive list through the field `next` of the timers, which are known by their
addresses.  `queue_insert` keeps it in the order of the words `expires`; `timer_tick` takes timers
off its front while the signed difference to the tick count is not positive.

`timer_tick` releases the lock around every callback, and a callback may call `timer_add` and
`timer_cancel`.  So a tick is not one step: `pit` counts the tick and enters `timer_tick`, each
`fire` is one round of its loop up to the call of the callback, and `done` leaves the loop; calls of
callbacks come between the rounds.
-/

namespace CobraOS.Timers

open Base

/-- `struct timer`; `fn` is `none` for the null pointer. -/
structure Timer where
  expires : Nat
  period : Nat
  fn : Option Nat
  arg : Nat
  active : Bool
  next : Option Nat

/-- The timers by address, `timer_queue` and `tick_count`. -/
structure State where
  timers : Nat → Timer
  queue : Option Nat
  tick : Nat

/-- More than there are addresses. -/
def queueFuel : Nat := 4294967297

def links (s : State) (a : Nat) : Option Nat := (s.timers a).next

/-- Write to the timer at `a`. -/
def State.set (s : State) (a : Nat) (t : Timer) : State :=
  { s with timers := Function.update s.timers a t }

def State.setNext (s : State) (a : Nat) (p : Option Nat) : State :=
  s.set a { s.timers a with next := p }

/-- `*pp = p`, where `pp` is `&timer_queue` or the address of the `next` field of `prev`. -/
def State.setIndirect (s : State) (prev : Option Nat) (p : Option Nat) : State :=
  match prev with
  | none => { s with queue := p }
  | some a => s.setNext a p

/-- `none` for a walk that does not end. -/
def queueInsert (s : State) (t : Nat) : Option State := do
  let (pp, cur) ← locate (links s) (fun a => decide ((s.timers t).expires < (s.timers a).expires))
    queueFuel none s.queue
  let s := s.setNext t cur
  some (s.setIndirect pp (some t))

def queueRemove (s : State) (t : Nat) : Option State := do
  let (pp, cur) ← locate (links s) (fun a => a == t) queueFuel none s.queue
  match cur with
  | none => some s
  | some _ =>
    let s := s.setIndirect pp (s.timers t).next
    some (s.setNext t none)

/-- The condition of the loop of `timer_tick`, for the first timer of the queue. -/
def due (s : State) (a : Nat) : Bool := decide (wint (wsub (s.timers a).expires s.tick) ≤ 0)

/-- One round of the loop of `timer_tick`: the timer taken off the queue, whose callback is called
next, or `none` when the loop ends. -/
def timerTickRound (s : State) : Option (Option Nat × State) :=
  match s.queue with
  | none => some (none, s)
  | some t =>
    if due s t then do
      let s := { s with queue := (s.timers t).next }
      let s := s.setNext t none
      if (s.timers t).period ≠ 0 then do
        let s := s.set t { s.timers t with expires := (s.tick + (s.timers t).period) % 4294967296 }
        let s ← queueInsert s t
        some (some t, s)
      else
        some (some t, s.set t { s.timers t with active := false })
    else some (none, s)

/-- `tick_count++` -/
def tickCount (s : State) : State := { s with tick := (s.tick + 1) % 4294967296 }

def timerSetup (s : State) (t : Nat) (fn : Option Nat) (arg period : Nat) : State :=
  s.set t ⟨0, period, fn, arg, false, none⟩

/-- `if (t->active) queue_remove(t)` -/
def dequeue (s : State) (t : Nat) : Option State :=
  if (s.timers t).active then queueRemove s t else some s

def timerAdd (s : State) (t delayTicks : Nat) : Option State := do
  let s ← dequeue s t
  let s := s.set t { s.timers t with
    expires := (s.tick + (if delayTicks = 0 then 1 else delayTicks)) % 4294967296
    active := true }
  queueInsert s t

/-- `MS_TO_TICKS` -/
def msToTicks (ms : Nat) : Nat := (ms * 100 % 4294967296 + 999) % 4294967296 / 1000

def timerAddMs (s : State) (t delayMs : Nat) : Option State := timerAdd s t (msToTicks delayMs)

/-- The result is `0`, or `-1` when the timer is not active. -/
def timerCancel (s : State) (t : Nat) : Option (Int × State) :=
  if (s.timers t).active then do
    let s ← queueRemove s t
    some (0, s.set t { s.timers t with active := false })
  else some (-1, s)

/-! ### Runs -/

/-- The state, and whether `timer_tick` is running. -/
structure Machine where
  st : State
  ticking : Bool

inductive Event
  | pit
  | fire (t : Nat)
  | done
  | setup (t : Nat) (fn : Option Nat) (arg period : Nat)
  | add (t delayTicks : Nat)
  | cancel (t : Nat)
  deriving DecidableEq

/-- `t` can be the address of a timer. -/
def Address (t : Nat) : Prop := t < 4294967296

/-- What an event does.  Timers are only set up while they are not active. -/
def Step (m : Machine) (e : Event) (m' : Machine) : Prop :=
  match e with
  | .pit => m.ticking = false ∧ m' = ⟨tickCount m.st, true⟩
  | .fire t => m.ticking = true ∧ ∃ s, timerTickRound m.st = some (some t, s) ∧ m' = ⟨s, true⟩
  | .done => m.ticking = true ∧ ∃ s, timerTickRound m.st = some (none, s) ∧ m' = ⟨s, false⟩
  | .setup t fn arg period => Address t ∧ (m.st.timers t).active = false ∧ period < 4294967296 ∧
      m' = ⟨timerSetup m.st t fn arg period, m.ticking⟩
  | .add t delayTicks => Address t ∧ delayTicks < 4294967296 ∧
      ∃ s, timerAdd m.st t delayTicks = some s ∧ m' = ⟨s, m.ticking⟩
  | .cancel t => Address t ∧ ∃ r s, timerCancel m.st t = some (r, s) ∧ m' = ⟨s, m.ticking⟩

/-- The event is a call for the timer `t`. -/
def Touches (t : Nat) : Event → Prop
  | .setup a _ _ _ => a = t
  | .add a _ => a = t
  | .cancel a => a = t
  | _ => False

/-- No timer is set up, and the tick count is any word. -/
def Fresh (m : Machine) : Prop :=
  m.st.queue = none ∧ (∀ t, (m.st.timers t).active = false ∧ (m.st.timers t).period = 0) ∧
    m.st.tick < 4294967296 ∧ m.ticking = false

/-- Every run of the timers. -/
def system : System Machine Event := ⟨Fresh, Step⟩

/-- The ticks among the events. -/
def ticks (l : List Event) : Nat := l.count .pit

end CobraOS.Timers
