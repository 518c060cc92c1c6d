import CobraOS.Base.Sections

/-!
# Spinlocks, `arch/x86/kernel/spinlock.c`

The instructions of `spinlock_acquire_irq` and `spinlock_release_irq`, and of the plain variants, as
they come one by one on any number of processors, each of which may be interrupted whenever its
interrupt flag is set.  `timer.c` has the same functions under the names `lock_acquire` and
`lock_release`; they differ in how the flags come back, which `Variant` leaves open.

What runs between the calls and in the sections is any code `C`.
-/

namespace CobraOS.Sync

open Base

/-- `lock->locked` -/
abbrev Word := Nat

/-- `__sync_lock_test_and_set(&lock->locked, 1)`: the value before, and the one after. -/
def testAndSet (locked : Word) : Word × Word := (locked, 1)

/-- `__sync_lock_release(&lock->locked)` -/
def lockRelease : Word := 0

/-- `spinlock_is_locked` -/
def spinlockIsLocked (locked : Word) : Bool := decide (locked ≠ 0)

/-- Which functions the code calls. -/
structure Variant (ℓ : Type*) where
  /-- The section that begins here is entered with `spinlock_acquire_irq`, not with
  `spinlock_acquire`. -/
  irq : ℓ → Bool
  /-- The interrupt flag after the flags were restored, by the saved one and the present one. -/
  restore : Bool → Bool → Bool
  restore_false : ∀ flags, restore flags false = flags

/-- `push flags; popf` in `spinlock_release_irq`. -/
def popf (flags _present : Bool) : Bool := flags

/-- `if (flags & (1u << 9)) sti` in `lock_release` of `timer.c`. -/
def stiIfSet (flags present : Bool) : Bool := flags || present

/-- Where an activity is: outside the functions, before one of their instructions, or in a section.
`flags` is the saved interrupt flag, `none` for the plain variant; `l` is the place that the section
begins at. -/
inductive Pc (ℓ : Type*)
  | outside (l : ℓ)
  /-- before `cli` -/
  | saved (flags : Bool) (l : ℓ)
  /-- before `__sync_lock_test_and_set` -/
  | trying (flags : Option Bool) (l : ℓ)
  /-- before the test of `while (lock->locked)` -/
  | spinning (flags : Option Bool) (l : ℓ)
  /-- in the section, at `at'` -/
  | inside (flags : Option Bool) (l at' : ℓ)
  /-- before the flags are restored; `l` is where the code goes on -/
  | released (flags : Bool) (l : ℓ)

/-- The processors and what they share, which is the lock and the state `σ`. -/
structure State (ι ℓ σ : Type*) where
  cpu : ι → Processor (Pc ℓ)
  locked : Word
  shared : σ

/-- The instruction that comes next on processor `c`. -/
inductive Instr (ι ℓ : Type*)
  | free (c : ι) (l l' : ℓ)
  | begin (c : ι)
  | cli (c : ι)
  | testAndSet (c : ι)
  | look (c : ι)
  | act (c : ι)
  | release (c : ι) (l l' : ℓ)
  | restore (c : ι)
  | interrupt (c : ι) (l : ℓ)
  | resume (c : ι)

section

variable {ι ℓ σ : Type*} [DecidableEq ι]

namespace State

/-- Another place of the activity that runs on `c`. -/
def goTo (m : State ι ℓ σ) (c : ι) (pc : Pc ℓ) : State ι ℓ σ :=
  { m with cpu := Function.update m.cpu c { m.cpu c with running := pc } }

/-- Another interrupt flag. -/
def setIf (m : State ι ℓ σ) (c : ι) (b : Bool) : State ι ℓ σ :=
  { m with cpu := Function.update m.cpu c { m.cpu c with accepts := b } }

/-- Another processor `c`. -/
def put (m : State ι ℓ σ) (c : ι) (p : Processor (Pc ℓ)) : State ι ℓ σ :=
  { m with cpu := Function.update m.cpu c p }

end State

/-- What the first instructions of the two variants do. -/
def beginCall (irq accepts : Bool) (l : ℓ) : Pc ℓ :=
  if irq then .saved accepts l else .trying none l

/-- What the last instructions of the two variants lead to. -/
def afterRelease (flags : Option Bool) (l : ℓ) : Pc ℓ :=
  match flags with
  | some flags => .released flags l
  | none => .outside l

variable (C : Sections ℓ σ) (V : Variant ℓ)

/-- One instruction. -/
def step (m : State ι ℓ σ) (e : Instr ι ℓ) (m' : State ι ℓ σ) : Prop :=
  match e with
  | .free c l l' => (m.cpu c).running = .outside l ∧ ¬ C.enters l ∧
      ∃ s' b, C.free l m.shared (m.cpu c).accepts l' s' b ∧
        m' = { m.put c ⟨b, .outside l', (m.cpu c).interrupted⟩ with shared := s' }
  | .begin c => ∃ l, (m.cpu c).running = .outside l ∧ C.enters l ∧
      m' = m.goTo c (beginCall (V.irq l) (m.cpu c).accepts l)
  | .cli c => ∃ flags l, (m.cpu c).running = .saved flags l ∧
      m' = (m.goTo c (.trying (some flags) l)).setIf c false
  | .testAndSet c => ∃ flags l, (m.cpu c).running = .trying flags l ∧
      m' = { m.goTo c
        (if (testAndSet m.locked).1 = 0 then .inside flags l l else .spinning flags l) with
        locked := (testAndSet m.locked).2 }
  | .look c => ∃ flags l, (m.cpu c).running = .spinning flags l ∧
      m' = m.goTo c (if m.locked ≠ 0 then .spinning flags l else .trying flags l)
  | .act c => ∃ flags l at' l' s', (m.cpu c).running = .inside flags l at' ∧
      C.act at' m.shared = some (l', s') ∧
      m' = { m.goTo c (.inside flags l l') with shared := s' }
  | .release c l at' =>
    ∃ flags, (m.cpu c).running = .inside flags l at' ∧ C.act at' m.shared = none ∧
      m' = { m.goTo c (afterRelease flags (C.leave at')) with locked := lockRelease }
  | .restore c => ∃ flags l, (m.cpu c).running = .released flags l ∧
      m' = (m.goTo c (.outside l)).setIf c (V.restore flags (m.cpu c).accepts)
  | .interrupt c l => (m.cpu c).accepts = true ∧ C.handler l ∧
      m' = m.put c ⟨false, .outside l, (m.cpu c).activities⟩
  | .resume c => ∃ l, (m.cpu c).running = .outside l ∧ C.finished l ∧
      ∃ pc rest, (m.cpu c).interrupted = pc :: rest ∧ m' = m.put c ⟨true, pc, rest⟩

/-- The lock is free, and every processor runs one activity outside the functions. -/
def Idle (m : State ι ℓ σ) : Prop :=
  m.locked = 0 ∧ ∀ c, (∃ l, (m.cpu c).running = .outside l) ∧ (m.cpu c).interrupted = []

/-- Every run, with the lock initialised. -/
def system : System (State ι ℓ σ) (Instr ι ℓ) := ⟨Idle, step C V⟩

/-- The rule for the two variants: `spinlock_acquire` is called with interrupts off. -/
def Rule (m : State ι ℓ σ) : Instr ι ℓ → Prop
  | .begin c => ∀ l, (m.cpu c).running = .outside l → V.irq l = false → (m.cpu c).accepts = false
  | _ => True

/-- Every run in which the calls keep to the rule. -/
def ruled : System (State ι ℓ σ) (Instr ι ℓ) := (system C V).restrict (Rule V)

end

/-! ### A client -/

/-- All calls are of the `_irq` functions. -/
def irqOnly (ℓ : Type*) : Variant ℓ := ⟨fun _ => true, popf, fun _ => rfl⟩

/-- All calls are of the plain functions. -/
def plainOnly (ℓ : Type*) : Variant ℓ := ⟨fun _ => false, popf, fun _ => rfl⟩

/-- A counter that is incremented in a section, by the processors and by their interrupts: a section
begins at `0` and ends at `1`, and at `2` the code is done. -/
def counting : Sections Nat Nat where
  enters l := l = 0
  act l s := if l = 0 then some (1, s + 1) else none
  leave _ := 2
  free _ _ _ _ _ _ := False
  handler l := l = 0
  finished l := l = 2

/-- Two processors before their sections, with interrupts on. -/
def twoCounting : State Bool Nat Nat := ⟨fun _ => ⟨true, .outside 0, []⟩, 0, 0⟩

theorem twoCounting_idle : Idle twoCounting := ⟨rfl, fun _ => ⟨⟨0, rfl⟩, rfl⟩⟩

/-- The processor `true` has the lock, and `false` waits for it. -/
def contended : State Bool Nat Nat :=
  let m := twoCounting.goTo true (.saved true 0)
  let m := (m.goTo true (.trying (some true) 0)).setIf true false
  let m := { m.goTo true (.inside (some true) 0 0) with locked := 1 }
  let m := m.goTo false (.saved true 0)
  let m := (m.goTo false (.trying (some true) 0)).setIf false false
  { m.goTo false (.spinning (some true) 0) with locked := 1 }

theorem contended_run : (ruled counting (irqOnly Nat)).Run twoCounting
    [.begin true, .cli true, .testAndSet true, .begin false, .cli false, .testAndSet false]
      contended :=
  .cons (e := Instr.begin true) ⟨fun _ _ h => Bool.noConfusion h, 0, rfl, rfl, rfl⟩ <|
    .cons (e := Instr.cli true) ⟨trivial, true, 0, rfl, rfl⟩ <|
    .cons (e := Instr.testAndSet true) ⟨trivial, some true, 0, rfl, rfl⟩ <|
    .cons (e := Instr.begin false) ⟨fun _ _ h => Bool.noConfusion h, 0, rfl, rfl, rfl⟩ <|
    .cons (e := Instr.cli false) ⟨trivial, true, 0, rfl, rfl⟩ <|
    .cons (e := Instr.testAndSet false) ⟨trivial, some true, 0, rfl, rfl⟩ (.nil _)

theorem contended_reach : (ruled counting (irqOnly Nat)).Reach contended :=
  System.Reach.run (.init twoCounting_idle) contended_run

/-- With the plain functions, processor `true` was interrupted in its section, and the handler waits
for the lock. -/
def selfBlocked : State Bool Nat Nat :=
  let m := twoCounting.goTo true (.trying none 0)
  let m := { m.goTo true (.inside none 0 0) with locked := 1 }
  let m := m.put true ⟨false, .outside 0, (m.cpu true).activities⟩
  let m := m.goTo true (.trying none 0)
  { m.goTo true (.spinning none 0) with locked := 1 }

theorem selfBlocked_reach : (system counting (plainOnly Nat)).Reach selfBlocked :=
  System.Reach.run (.init twoCounting_idle) <|
    .cons (e := Instr.begin true) ⟨0, rfl, rfl, rfl⟩ <|
    .cons (e := Instr.testAndSet true) ⟨none, 0, rfl, rfl⟩ <|
    .cons (e := Instr.interrupt true 0) ⟨rfl, rfl, rfl⟩ <|
    .cons (e := Instr.begin true) ⟨0, rfl, rfl, rfl⟩ <|
    .cons (e := Instr.testAndSet true) ⟨none, 0, rfl, rfl⟩ (.nil _)

end CobraOS.Sync
