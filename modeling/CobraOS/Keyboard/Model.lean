import CobraOS.Base.Ring
import CobraOS.Base.System

/-!
# The keyboard ring, `arch/x86/drivers/keyboard/keyboard.c`

The interrupt handler puts characters into `key_buffer` and moves `key_head`; the kernel takes them
out and moves `key_tail`.  No lock holds the interrupt off, so it can come between any two accesses
of the kernel to the three variables, which are volatile.  `Consumer` says how far
`keyboard_has_char` or `keyboard_get_char` has come; the kernel makes one access at a time.
-/

namespace CobraOS.Keyboard

open Base

/-- `KB_BUFFER_SIZE` -/
def kbBufferSize : Nat := 256

/-- `key_buffer`, `key_head`, `key_tail` and `buffer_overflow`. -/
structure Ring where
  buffer : Nat → UInt8
  head : Nat
  tail : Nat
  overflow : Bool

def bufferIsFull (r : Ring) : Bool := (r.head + 1) % kbBufferSize == r.tail

def bufferPut (r : Ring) (c : UInt8) : Bool × Ring :=
  let next := (r.head + 1) % kbBufferSize
  if next = r.tail then (false, { r with overflow := true })
  else (true, { r with buffer := Function.update r.buffer r.head c, head := next })

/-- What `keyboard_has_char` tests. -/
def hasChar (r : Ring) : Bool := r.head != r.tail

/-- What `keyboard_handler` does to the ring at `cleanup`. -/
def cleanup (r : Ring) : Ring := if bufferIsFull r then r else { r with overflow := false }

/-- Where the kernel is: in no call, in `keyboard_has_char` before it reads `key_head` or
`key_tail`, or in `keyboard_get_char` before it reads `key_head` or `key_tail`, before `buffer_get`
reads `key_tail`, the slot or `key_tail` again, or before it writes `key_tail`. -/
inductive Consumer
  | idle
  | hasHead
  | hasTail (head : Nat)
  | getHead
  | getTail (head : Nat)
  | getIndex
  | getSlot (index : Nat)
  | getNext (c : UInt8)
  | getStore (c : UInt8) (tail : Nat)

/-- What calls return. -/
inductive Event
  | accepted (c : UInt8)
  | refused (c : UInt8)
  | said (b : Bool)
  | got (c : UInt8)

structure State where
  ring : Ring
  consumer : Consumer
  log : List Event

/-- A call to `buffer_put` in an interrupt. -/
def put (s : State) (c : UInt8) : State :=
  match bufferPut s.ring c with
  | (true, ring) => { s with ring := ring, log := s.log ++ [.accepted c] }
  | (false, ring) => { s with ring := ring, log := s.log ++ [.refused c] }

/-- The next access of the kernel. -/
def access (s : State) : Option State :=
  match s.consumer with
  | .idle => none
  | .hasHead => some { s with consumer := .hasTail s.ring.head }
  | .hasTail head =>
    some { s with consumer := .idle, log := s.log ++ [.said (head != s.ring.tail)] }
  | .getHead => some { s with consumer := .getTail s.ring.head }
  | .getTail head =>
    if head = s.ring.tail then some { s with consumer := .idle, log := s.log ++ [.got 0] }
    else some { s with consumer := .getIndex }
  | .getIndex => some { s with consumer := .getSlot s.ring.tail }
  | .getSlot index => some { s with consumer := .getNext (s.ring.buffer index) }
  | .getNext c => some { s with consumer := .getStore c s.ring.tail }
  | .getStore c tail =>
    some {
      ring := { s.ring with tail := (tail + 1) % kbBufferSize }
      consumer := .idle
      log := s.log ++ [.got c] }

inductive Step
  | put (c : UInt8)
  | cleanup
  | has
  | get
  | access

/-- A step of the interrupt handler or of the kernel, which gets a character when
`keyboard_has_char` holds. -/
def step (s : State) : Step → Option State
  | .put c => some (put s c)
  | .cleanup => some { s with ring := cleanup s.ring }
  | .has =>
    match s.consumer with
    | .idle => some { s with consumer := .hasHead }
    | _ => none
  | .get =>
    match s.consumer with
    | .idle => if hasChar s.ring then some { s with consumer := .getHead } else none
    | _ => none
  | .access => access s

/-- `init_keyboard`; what is in the slots does not matter. -/
def initial (s : State) : Prop :=
  s.ring.head = 0 ∧ s.ring.tail = 0 ∧ s.ring.overflow = false ∧ s.consumer = .idle ∧ s.log = []

/-- Every interleaving. -/
def system : System State Step where
  init := initial
  step s l s' := step s l = some s'

/-! ### What has been accepted, returned, and is held -/

def Event.accepted? : Event → Option UInt8
  | .accepted c => some c
  | _ => none

def Event.got? : Event → Option UInt8
  | .got c => some c
  | _ => none

/-- The characters for which `buffer_put` has returned true, in order. -/
def accepted (s : State) : List UInt8 := s.log.filterMap Event.accepted?

/-- The characters that `keyboard_get_char` has returned, in order. -/
def returned (s : State) : List UInt8 := s.log.filterMap Event.got?

/-- How many slots are in use. -/
def count (r : Ring) : Nat := (r.head + kbBufferSize - r.tail) % kbBufferSize

/-- The characters in the ring. -/
def held (r : Ring) : List UInt8 := ringList r.buffer kbBufferSize r.tail (count r)

end CobraOS.Keyboard
