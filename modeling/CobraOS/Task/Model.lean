import CobraOS.Base.Chain
import CobraOS.Base.System

/-!
# The scheduler, `arch/x86/kernel/task.c`

Tasks and stacks are known by the addresses of their heap blocks; an address without a task has been
freed or was never a task, and a function that follows a pointer to it has no result, nor has a
`kfree` of a block that is not allocated.  What `kmalloc` answers is a parameter.

`task_switch` makes another task the running one, and what runs next is what that task was about to
do: a new task starts at its entry, and one that has called `schedule` before goes on behind its
call.  So `schedule` is followed into the task that it switches to, up to the point where that task
leaves `schedule`.
-/

namespace CobraOS.Task

open Base

/-- `task_state_t` -/
inductive TaskState
  | running
  | ready
  | blocked
  | sleeping
  | terminated
  deriving DecidableEq

/-- `task_t` -/
structure TaskT where
  esp : Nat
  pageDir : Nat
  stack : Option Nat
  state : TaskState
  pid : Nat
  next : Option Nat
  deriving DecidableEq

/-- After `memset`. -/
def TaskT.zero : TaskT := ⟨0, 0, none, .running, 0, none⟩

/-- The tasks, the static variables and the heap blocks in use; `freed` lists the blocks that have
been freed, and `inSchedule` says which tasks have been switched out in `schedule`. -/
structure State where
  tasks : Nat → Option TaskT
  queue : Option Nat
  current : Option Nat
  nextPid : Nat
  live : Nat → Bool
  freed : List Nat
  inSchedule : Nat → Bool

/-- More than there are addresses. -/
def queueFuel : Nat := 4294967297

def links (s : State) (t : Nat) : Option Nat := (s.tasks t).bind TaskT.next

namespace State

def set (s : State) (t : Nat) (task : TaskT) : State :=
  { s with tasks := Function.update s.tasks t (some task) }

/-- A block that `kmalloc` returns. -/
def alloc (s : State) (a : Nat) : State := { s with live := Function.update s.live a true }

def kfree (s : State) (a : Nat) : Option State :=
  if s.live a then
    some { s with
      live := Function.update s.live a false
      tasks := Function.update s.tasks a none
      freed := s.freed ++ [a] }
  else none

/-- `if (stack) kfree(stack);` -/
def kfreeStack (s : State) : Option Nat → Option State
  | none => some s
  | some a => s.kfree a

def setNext (s : State) (t : Nat) (p : Option Nat) : Option State := do
  let task ← s.tasks t
  some (s.set t { task with next := p })

/-- `*pp = p`, where `pp` is `&task_queue` or the address of the `next` field of `prev`. -/
def setIndirect (s : State) (prev : Option Nat) (p : Option Nat) : Option State :=
  match prev with
  | none => some { s with queue := p }
  | some t => s.setNext t p

def setState (s : State) (t : Nat) (state : TaskState) : Option State := do
  let task ← s.tasks t
  some (s.set t { task with state := state })

end State

/-- `t` is unlinked from behind `prev` and freed. -/
def reapTask (s : State) (prev : Option Nat) (t : Nat) (task : TaskT) : Option State := do
  let s ← s.setIndirect prev task.next
  let s ← s.setNext t none
  let s ← s.kfreeStack task.stack
  s.kfree t

/-- The loop of `task_reap_terminated`; `cur` is `*pp`, and `prev` the task it is the `next` of. -/
def reapLoop : Nat → Option Nat → Option Nat → State → Option State
  | 0, _, _, _ => none
  | _ + 1, _, none, s => some s
  | fuel + 1, prev, some t, s => do
    let task ← s.tasks t
    if task.state = .terminated ∧ s.current ≠ some t then do
      let s ← reapTask s prev t task
      reapLoop fuel prev task.next s
    else reapLoop fuel (some t) task.next s

def taskReapTerminated (s : State) : Option State := reapLoop queueFuel none s.queue s

/-- `cr3` is read into the field `page_dir`; the system halts if `kmalloc` fails. -/
def taskingInit (s : State) (answer : Option Nat) (cr3 : Nat) : Option State := do
  let task ← answer
  let s := (s.alloc task).set task { TaskT.zero with
    state := .running, pid := s.nextPid, pageDir := cr3 }
  some { s with current := some task, nextPid := (s.nextPid + 1) % 4294967296, queue := some task }

/-- The new task becomes the last of the queue. -/
def appendTask (s : State) (task : Nat) : Option State :=
  match s.queue with
  | none => some { s with queue := some task }
  | some _ => do
    let (_, last) ← locate (links s) (fun t => (links s t).isNone) queueFuel none s.queue
    let last ← last
    s.setNext last (some task)

/-- `answer` and `answer'` are what `kmalloc` returns for the `task_t` and for the stack, on which
the frame of ten words is built. -/
def taskCreate (s : State) (pageDir : Nat) (answer answer' : Option Nat) :
    Option (Option Nat × State) :=
  match answer with
  | none => some (none, s)
  | some task =>
    let s := (s.alloc task).set task .zero
    match answer' with
    | none => do
      let s ← s.kfree task
      some (none, s)
    | some stack => do
      let s := (s.alloc stack).set task ⟨stack + 4096 - 40, pageDir, some stack, .ready,
        s.nextPid, none⟩
      let s ← appendTask {
        s with nextPid := (s.nextPid + 1) % 4294967296, inSchedule :=
          Function.update s.inSchedule task false } task
      some (some task, s)

/-- The loop of `schedule`, which looks for a task that is ready. -/
def findReady (s : State) (current : Nat) : Nat → Option Nat → Option (Option Nat)
  | 0, _ => none
  | _ + 1, none => some none
  | fuel + 1, some t =>
    if t = current then some (some t)
    else do
      let task ← s.tasks t
      if task.state = .ready then some (some t) else findReady s current fuel (task.next.or s.queue)

/-- `task_switch(next)` by the task `old`, up to the end of `schedule` in the task `next`. -/
def taskSwitchTo (s : State) (old next : Nat) : Option State :=
  let s := { s with current := some next, inSchedule := Function.update s.inSchedule old true }
  if s.inSchedule next then s.setState next .running else some s

/-- `if (old->state == TASK_RUNNING) old->state = TASK_READY;` -/
def yieldTask (s : State) (old : Nat) : Option State := do
  let task ← s.tasks old
  if task.state = .running then some (s.set old { task with state := .ready }) else some s

/-- The end of `schedule` for the task that has been found; whether it has been switched to. -/
def switchIfReady (s : State) (old : Nat) : Option Nat → Option (Bool × State)
  | none => some (false, s)
  | some next =>
    if next = old then some (false, s)
    else do
      let task ← s.tasks next
      if task.state = .ready then do
        let s ← s.setState next .running
        let s ← yieldTask s old
        let s ← taskSwitchTo s old next
        some (true, s)
      else some (false, s)

/-- Whether another task runs now. -/
def schedule (s : State) : Option (Bool × State) :=
  match s.current with
  | none => some (false, s)
  | some _ => do
    let s ← taskReapTerminated s
    let current ← s.current
    let task ← s.tasks current
    let next ← findReady s current queueFuel (task.next.or s.queue)
    switchIfReady s current next

/-- The system halts in this task if no other one runs now. -/
def taskExit (s : State) : Option (Bool × State) :=
  match s.current with
  | none => some (false, s)
  | some current => do
    let s ← s.setState current .terminated
    schedule s

/-! ### Runs -/

/-- No task exists, and the blocks in use are those of `base`. -/
def blank (base : Nat → Bool) : State := ⟨fun _ => none, none, none, 1, base, [], fun _ => false⟩

/-- `kmalloc` has returned the address of a block that is not in use. -/
def Granted (s : State) (a : Nat) : Prop := a < 4294967296 ∧ s.live a = false

/-- After `tasking_init`; `first` is the task that runs. -/
def Booted (base : Nat → Bool) (first : Nat) (s : State) : Prop :=
  Granted (blank base) first ∧ ∃ cr3, taskingInit (blank base) (some first) cr3 = some s

/-- What the running task calls; `result` is the pointer that `task_create` returns, and `t` the
task that exits. -/
inductive Event
  | create (pageDir : Nat) (answer answer' : Option Nat) (result : Option Nat)
  | schedule
  | exit (t : Nat)

/-- A task that exits finds one that is ready. -/
def Step (s : State) (e : Event) (s' : State) : Prop :=
  match e with
  | .create pageDir answer answer' result =>
    (∀ a ∈ answer, Granted s a) ∧ (∀ b ∈ answer', Granted s b ∧ answer ≠ some b) ∧
      taskCreate s pageDir answer answer' = some (result, s')
  | .schedule => ∃ switched, Task.schedule s = some (switched, s')
  | .exit t => s.current = some t ∧ taskExit s = some (true, s')

/-- Every run of the scheduler after `tasking_init`. -/
def system : System State Event := ⟨fun s => ∃ base first, Booted base first s, Step⟩

end CobraOS.Task
