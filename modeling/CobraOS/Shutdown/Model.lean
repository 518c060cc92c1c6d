import CobraOS.Timers.Ops

/-!
# Scheduled shutdown, `arch/x86/cpu/shutdown.c` and the shell command `timer`

A shutdown is a timer whose callback stops the machine.  `cmd_timer` splits its arguments into at
most 16 words and schedules a shutdown after a number of seconds, which becomes milliseconds (`secs
* 1000`) and then ticks (`MS_TO_TICKS`), all of them 32-bit words.

Texts are lists of characters.  `printed` are the calls of the printing functions: a text that is
handed to `viprint` is a format there, also the message of a shutdown and a word of the user.
-/

namespace CobraOS.Shutdown

open Base Timers

/-- `enum shutdown_mode` -/
inductive ShutdownMode
  | poweroff
  | reboot
  | halt
  deriving DecidableEq

/-- The address of `sd_timer`.  Other timers have other addresses. -/
def sdTimer : Nat := 0

/-- The address of `shutdown_fire`. -/
def shutdownFireFn : Nat := 0

/-- `SHUTDOWN_DEFAULT_MS` -/
def shutdownDefaultMs : Nat := 10 * 60 * 1000

/-- A call of `viprint` with a format and no arguments, or of `print_uint`. -/
inductive Print
  | viprint (format : List Char)
  | uint (n : Nat)
  deriving DecidableEq

/-- The timers, the static variables of `shutdown.c`, `sd_default_secs` of the shell, what has been
printed, and how the machine was stopped. -/
structure Sys where
  timers : Timers.State
  ticking : Bool
  pitHz : Nat
  sdActive : Bool
  sdMode : ShutdownMode
  sdDeadline : Nat
  sdMsg : List Char
  sdDefaultSecs : Nat
  printed : List Print
  stopped : Option ShutdownMode

def viprintChars (s : Sys) (format : List Char) : Sys :=
  { s with printed := s.printed ++ [.viprint format] }

def viprint (s : Sys) (text : String) : Sys := viprintChars s text.toList

def printUint (s : Sys) (n : Nat) : Sys := { s with printed := s.printed ++ [.uint n] }

@[simp] theorem viprint_timers (s : Sys) (text : String) : (viprint s text).timers = s.timers := rfl

@[simp] theorem viprint_sdActive (s : Sys) (text : String) :
    (viprint s text).sdActive = s.sdActive := rfl

@[simp] theorem viprintChars_timers (s : Sys) (text : List Char) :
    (viprintChars s text).timers = s.timers := rfl

@[simp] theorem viprintChars_sdActive (s : Sys) (text : List Char) :
    (viprintChars s text).sdActive = s.sdActive := rfl

@[simp] theorem printUint_timers (s : Sys) (n : Nat) : (printUint s n).timers = s.timers := rfl

@[simp] theorem printUint_sdActive (s : Sys) (n : Nat) : (printUint s n).sdActive = s.sdActive :=
  rfl

@[simp] theorem viprint_rest (s : Sys) (text : String) :
    (viprint s text).stopped = s.stopped ∧ (viprint s text).ticking = s.ticking ∧
      (viprint s text).sdDefaultSecs = s.sdDefaultSecs := ⟨rfl, rfl, rfl⟩

@[simp] theorem viprintChars_rest (s : Sys) (text : List Char) :
    (viprintChars s text).stopped = s.stopped ∧ (viprintChars s text).ticking = s.ticking ∧
      (viprintChars s text).sdDefaultSecs = s.sdDefaultSecs := ⟨rfl, rfl, rfl⟩

@[simp] theorem printUint_rest (s : Sys) (n : Nat) :
    (printUint s n).stopped = s.stopped ∧ (printUint s n).ticking = s.ticking ∧
      (printUint s n).sdDefaultSecs = s.sdDefaultSecs := ⟨rfl, rfl, rfl⟩

/-! ### `shutdown.c` -/

def shutdownFire (s : Sys) : Sys :=
  if s.sdActive then
    let s := { s with sdActive := false }
    let s := viprint s "\nSystem going down: "
    let s := viprintChars s s.sdMsg
    let s := viprint s "\n"
    { s with stopped := some s.sdMode }
  else s

def cancelShutdown (s : Sys) : Option Sys :=
  if s.sdActive then do
    let (_, timers) ← timerCancel s.timers sdTimer
    some { s with timers := timers, sdActive := false }
  else some s

/-- The null pointer and the empty text both stand for no message. -/
def scheduleShutdown (s : Sys) (mode : ShutdownMode) (delayMs : Nat) (msg : List Char) :
    Option Sys := do
  let s ← cancelShutdown s
  let s := { s with
    sdActive := true
    sdMode := mode
    sdMsg := if msg = [] then "scheduled shutdown".toList else msg.take 95 }
  let timers := timerSetup s.timers sdTimer (some shutdownFireFn) 0 0
  let timers ← timerAddMs timers sdTimer delayMs
  let delayTicks := (delayMs * s.pitHz % 4294967296 + 999) % 4294967296 / 1000
  let delayTicks := if delayTicks = 0 then 1 else delayTicks
  some { s with
    timers := timers
    sdDeadline := (timers.tick + delayTicks) % 4294967296 }

def shutdownRemainingMs (s : Sys) : Nat :=
  if s.sdActive then
    let leftTicks := wint (wsub s.sdDeadline s.timers.tick)
    if leftTicks ≤ 0 then 0 else leftTicks.toNat * 1000 % 4294967296 / s.pitHz
  else 0

def scheduleDefaultShutdown (s : Sys) : Option Sys :=
  if s.sdActive then some s
  else scheduleShutdown s .poweroff shutdownDefaultMs "automatic 10-minute shutdown".toList

/-! ### The command `timer` -/

def parseDigits : List Char → Nat → Option Nat
  | [], v => some v
  | c :: s, v =>
    if c < '0' ∨ '9' < c then none
    else parseDigits s ((v * 10 + (c.toNat - '0'.toNat)) % 4294967296)

/-- `none` for the result `-1`. -/
def parseU32 (s : List Char) : Option Nat := if s = [] then none else parseDigits s 0

def isBlank (c : Char) : Bool := c == ' ' || c == '\t'

/-- At most `argc` words. -/
def words : Nat → List Char → List (List Char)
  | 0, _ => []
  | argc + 1, p =>
    let p := p.dropWhile isBlank
    if p = [] then []
    else p.takeWhile (fun c => !isBlank c) ::
      words argc ((p.dropWhile (fun c => !isBlank c)).drop 1)

/-- The arguments as `cmd_timer` splits them: 255 characters, 16 words. -/
def argvOf (args : List Char) : List (List Char) := words 16 (args.take 255)

/-- The words from the message on, joined by blanks and cut to the length of the buffer. -/
def joinMsg (argv : List (List Char)) : List Char := ([' '].intercalate argv).take 95

/-- `timer now [reboot|halt]` and `timer <secs> [reboot|halt]`: the mode and the words after it. -/
def modeOf : List (List Char) → ShutdownMode × List (List Char)
  | [] => (.poweroff, [])
  | w :: ws =>
    if w = "reboot".toList then (.reboot, ws)
    else if w = "halt".toList then (.halt, ws)
    else (.poweroff, w :: ws)

def printScheduled (s : Sys) (secs : Nat) (mode : ShutdownMode) : Sys :=
  let s := viprint s "Shutdown scheduled in "
  let s := printUint s secs
  let s := viprint s "s"
  let s := match mode with
    | .poweroff => s
    | .reboot => viprint s " (reboot)"
    | .halt => viprint s " (halt)"
  viprint s ". Use 'timer cancel' to abort.\n"

def cmdTimerDefault (s : Sys) (argv : List (List Char)) : Sys :=
  match argv with
  | [] =>
    let s := viprint s "Default shutdown: "
    let s := printUint s s.sdDefaultSecs
    viprint s " seconds.\n"
  | w :: _ =>
    match parseU32 w with
    | none => viprint s "timer: bad default value.\n"
    | some 0 => viprint s "timer: bad default value.\n"
    | some secs =>
      let s := { s with sdDefaultSecs := secs }
      let s := viprint s "Default shutdown set to "
      let s := printUint s secs
      viprint s " seconds.\n"

def cmdTimerStatus (s : Sys) : Sys :=
  if s.sdActive then
    let s := viprint s "Shutdown pending, "
    let s := printUint s (shutdownRemainingMs s / 1000)
    viprint s " seconds remaining.\n"
  else viprint s "No shutdown scheduled.\n"

def cmdTimerBad (s : Sys) (w : List Char) : Sys :=
  let s := viprint s "timer: bad argument '"
  let s := viprintChars s w
  let s := viprint s "'\n"
  let s := viprint s "usage: timer [<secs>] [reboot|halt] [message...]\n"
  let s := viprint s "       timer cancel | status | now [reboot|halt]\n"
  viprint s "       timer default [secs]\n"

def cmdTimer (s : Sys) (args : List Char) : Option Sys :=
  match argvOf args with
  | [] => do
    let s ← scheduleShutdown s .poweroff (s.sdDefaultSecs * 1000 % 4294967296)
      "default shutdown".toList
    let s := viprint s "Shutdown scheduled in "
    let s := printUint s (s.sdDefaultSecs / 60)
    let s := viprint s " min "
    let s := printUint s (s.sdDefaultSecs % 60)
    some (viprint s "s. Use 'timer cancel' to abort.\n")
  | w :: argv =>
    if w = "cancel".toList then
      if s.sdActive then do
        let s ← cancelShutdown s
        some (viprint s "Shutdown cancelled.\n")
      else some (viprint s "No shutdown pending.\n")
    else if w = "status".toList then some (cmdTimerStatus s)
    else if w = "default".toList then some (cmdTimerDefault s argv)
    else if w = "now".toList then
      scheduleShutdown s (modeOf argv).1 0 "immediate shutdown".toList
    else
      match parseU32 w with
      | none => some (cmdTimerBad s w)
      | some secs => do
        let (mode, msg) := modeOf argv
        let s ← scheduleShutdown s mode (secs * 1000 % 4294967296) (joinMsg msg)
        some (printScheduled s secs mode)

/-- The command calls `schedule_shutdown`. -/
def schedules (args : List Char) : Bool :=
  match argvOf args with
  | [] => true
  | w :: _ =>
    if w = "cancel".toList ∨ w = "status".toList ∨ w = "default".toList then false
    else w = "now".toList ∨ (parseU32 w).isSome

/-! ### Runs -/

/-- `timer` commands and other calls of `shutdown.c`, and what happens to the timers: ticks, rounds
of `timer_tick`, and calls for other timers. -/
inductive Event
  | timer (args : List Char)
  | schedule (mode : ShutdownMode) (delayMs : Nat) (msg : List Char)
  | cancelShutdown
  | timers (e : Timers.Event)

/-- The callback of `t`.  That of `sd_timer` is `shutdown_fire`; those of other timers only act by
later events. -/
def callback (s : Sys) (t : Nat) : Sys := if t = sdTimer then shutdownFire s else s

def Step (s : Sys) (e : Event) (s' : Sys) : Prop :=
  s.stopped = none ∧
  match e with
  | .timer args => s.ticking = false ∧ cmdTimer s args = some s'
  | .schedule mode delayMs msg =>
    delayMs < 4294967296 ∧ scheduleShutdown s mode delayMs msg = some s'
  | .cancelShutdown => Shutdown.cancelShutdown s = some s'
  | .timers e => ¬ Touches sdTimer e ∧ ∃ m, Timers.Step ⟨s.timers, s.ticking⟩ e m ∧
        s' = match e with
          | .fire t => callback { s with timers := m.st, ticking := m.ticking } t
          | _ => { s with timers := m.st, ticking := m.ticking }

/-- No timer is set up, no shutdown is scheduled, and the machine runs. -/
def Boot (s : Sys) : Prop :=
  Fresh ⟨s.timers, s.ticking⟩ ∧ s.sdActive = false ∧ s.sdDefaultSecs < 4294967296 ∧ s.stopped = none

def system : System Sys Event := ⟨Boot, Step⟩

/-- The ticks among the events. -/
def ticks (l : List Event) : Nat :=
  l.countP (fun e => match e with | .timers .pit => true | _ => false)

/-- The event calls `schedule_shutdown`. -/
def Replaces : Event → Prop
  | .timer args => schedules args = true
  | .schedule _ _ _ => True
  | _ => False

end CobraOS.Shutdown
