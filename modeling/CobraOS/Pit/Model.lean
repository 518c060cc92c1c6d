import Mathlib.Tactic

/-!
# The interval timer, `arch/x86/cpu/pit.c`

A machine word is a `BitVec 32`.  The bytes that go to the ports of the timer are logged; the chip
of the clock, by which `pit_calibrate_with_rtc` waits, is seen only through the number of ticks that
pass meanwhile.

`sleep_ticks` reads `tick_count` once for its target and then before every wait.  How many ticks
pass from one of these reads to the next is the list `passes`; it has no result while it has not
returned.
-/

namespace CobraOS.Pit

abbrev Word := BitVec 32

/-- The static variables. -/
structure State where
  tickCount : Word
  pitHz : Word
  currentDivisor : Word

/-- A byte that is written to a port. -/
structure Outb where
  port : Nat
  value : BitVec 8
  deriving DecidableEq

/-- The values the variables start with. -/
def booted : State := ⟨0, 100, 0⟩

/-- Channel 0 as a rate generator, and its divisor, the low byte first. -/
def program (divisor : Word) : List Outb :=
  [⟨0x43, 0x36⟩, ⟨0x40, (divisor &&& 0xFF).setWidth 8⟩,
    ⟨0x40, ((divisor >>> 8) &&& 0xFF).setWidth 8⟩]

/-- A division by zero has no result. -/
def pitInit (s : State) (frequency : Word) : Option (State × List Outb) :=
  if frequency = 0 then none
  else
    let divisor := 1193182 / frequency
    some ({ s with pitHz := frequency, currentDivisor := divisor }, program divisor)

/-- While the clock ends 1024 of its periods, `passed` ticks pass. -/
def pitCalibrateWithRtc (s : State) (desiredHz : Word) (passed : Nat) : State × List Outb :=
  if desiredHz = 0 ∨ s.currentDivisor = 0 then (s, [])
  else
    let startTicks := s.tickCount
    let s := { s with tickCount := s.tickCount + BitVec.ofNat 32 passed }
    let endTicks := s.tickCount
    let measuredTicks := endTicks - startTicks
    if measuredTicks = 0 then (s, [])
    else
      let actualBaseFreq := measuredTicks * s.currentDivisor
      let newDivisor := actualBaseFreq / desiredHz
      let newDivisor := if newDivisor < 2 then 2 else newDivisor
      ({ s with currentDivisor := newDivisor, pitHz := desiredHz }, program newDivisor)

/-- `while ((int32_t)(tick_count - target) < 0)`, when `elapsed` ticks have passed of those
counted. -/
def waitLoop (target start : Word) : Nat → List Nat → Option Nat
  | _, [] => none
  | elapsed, pass :: passes =>
    let elapsed := elapsed + pass
    if (start + BitVec.ofNat 32 elapsed - target).toInt < 0 then
      waitLoop target start elapsed passes
    else some elapsed

/-- The number of ticks that pass before `sleep_ticks` returns. -/
def sleepTicks (s : State) (ticks : Word) (passes : List Nat) : Option Nat :=
  if ticks = 0 then some 0
  else
    let target := s.tickCount + ticks
    waitLoop target s.tickCount 0 passes

/-- The number of ticks that pass before `sleep` returns. -/
def sleep (s : State) (milliseconds : Word) (passes : List Nat) : Option Nat :=
  if milliseconds = 0 then some 0
  else
    let ticks := (milliseconds * s.pitHz + 999) / 1000
    sleepTicks s ticks passes

end CobraOS.Pit
