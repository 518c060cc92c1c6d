import CobraOS.Keyboard.Handler
import CobraOS.Shutdown.Model

/-!
# Interrupts, `arch/x86/cpu/interrupts.c`

`interrupt_dispatch` and the two handlers that `kernel` registers.  What is written to ports is
logged with the screen, whose cursor is set by port writes too.  A dispatch that does not come back
has no result: an exception and an interrupt nobody knows halt the processor, and so does a shutdown
in a timer tick.
-/

namespace CobraOS.Interrupts

open Keyboard (Bytes utf8)

/-- `PIC1_CMD` -/
def pic1Cmd : Nat := 0x20

/-- `PIC2_CMD` -/
def pic2Cmd : Nat := 0xA0

/-- `PIC_EOI` -/
def picEoi : UInt8 := 0x20

/-- `PIC_READ_ISR` -/
def picReadIsrCmd : UInt8 := 0x0B

/-- `IRQ_BASE` -/
def irqBase : UInt32 := 32

/-- `IRQ_COUNT` -/
def irqCount : Nat := 16

/-- `SYSCALL_VECTOR` -/
def syscallVector : UInt32 := 0x80

/-- `MAX_SYSCALLS` -/
def maxSyscalls : Nat := 64

/-- The fields of `struct registers` that are used. -/
structure Registers where
  intNo : UInt32
  eax : UInt32
  ebx : UInt32
  ecx : UInt32
  edx : UInt32
  esi : UInt32

/-- An interrupt, with what the ports of the two PICs and of the keyboard give in it. -/
structure Interrupt where
  regs : Registers
  pic1 : UInt8
  pic2 : UInt8
  port : Keyboard.Port

/-- The screen with the log of port writes, the keyboard, the timers, and what other handlers work
on. -/
structure Kernel (σ : Type) where
  screen : Screen.State
  keyboard : Keyboard.Driver
  sys : Shutdown.Sys
  rest : σ

variable {σ : Type}

def Kernel.outb (k : Kernel σ) (port : Nat) (value : UInt8) : Kernel σ :=
  { k with screen := Screen.outb k.screen port value }

def Kernel.viprint (k : Kernel σ) (text : String) : Kernel σ :=
  { k with screen := Screen.vprint k.screen (utf8 text) }

/-- A digit of `"0123456789ABCDEF"`. -/
def hexDigit (d : Nat) : UInt8 := UInt8.ofNat (if d < 10 then 48 + d else 55 + d)

/-- `hexString` -/
def hexString (value : Nat) : Bytes :=
  [48, 120] ++ (List.range 8).map fun i => hexDigit (value / 16 ^ (7 - i) % 16)

def Kernel.hexprint (k : Kernel σ) (value : Nat) : Kernel σ :=
  { k with screen := Screen.vprint k.screen (hexString value ++ [10]) }

/-- A handler gets the state and the interrupt; it has no result when it does not come back. -/
abbrev Handler (σ : Type) := Kernel σ → Interrupt → Option (Kernel σ)

/-! ### Handlers -/

/-- The loop of `timer_tick`. -/
def timerTick : Nat → Shutdown.Sys → Option Shutdown.Sys
  | 0, _ => none
  | fuel + 1, s =>
    match Timers.timerTickRound s.timers with
    | none => none
    | some (none, timers) => some { s with timers := timers }
    | some (some t, timers) =>
      let s := Shutdown.callback { s with timers := timers } t
      if s.stopped = none then timerTick fuel s else none

def pitHandler : Handler σ := fun k _ => do
  let sys ← timerTick Timers.queueFuel { k.sys with timers := Timers.tickCount k.sys.timers }
  some { k with sys := sys }

/-- `keyboard_handler`, with the text it prints when no byte comes. -/
def keyboardHandler : Handler σ := fun k i =>
  let (driver, outs) := Keyboard.keyboardHandler k.keyboard i.port
  let k := if Keyboard.waitForByte 1000 i.port.status then k else k.viprint
    "Keyboard controller timeout\n"
  some { k with keyboard := driver, screen := { k.screen with ports := k.screen.ports ++ outs } }

/-! ### Dispatch -/

def picReadIsr (k : Kernel σ) (i : Interrupt) : Kernel σ × UInt16 :=
  ((k.outb pic1Cmd picReadIsrCmd).outb pic2Cmd picReadIsrCmd,
    (i.pic2.toUInt16 <<< 8) ||| i.pic1.toUInt16)

def picSendEoi (k : Kernel σ) (irq : Nat) : Kernel σ :=
  let k := if 8 ≤ irq then k.outb pic2Cmd picEoi else k
  k.outb pic1Cmd picEoi

/-- The handler of a line, or the text that there is none. -/
def callHandler (handlers : Nat → Option (Handler σ)) (k : Kernel σ) (i : Interrupt) (irq : Nat) :
    Option (Kernel σ) :=
  match handlers irq with
  | some handler => handler k i
  | none => some (((k.viprint "Unhandled IRQ ").hexprint irq).viprint "\n")

/-- `irq_dispatch` after the test for a spurious interrupt. -/
def handleIrq (handlers : Nat → Option (Handler σ)) (k : Kernel σ) (i : Interrupt) (irq : Nat) :
    Option (Kernel σ) := (callHandler handlers k i irq).map fun k => picSendEoi k irq

def irqDispatch (handlers : Nat → Option (Handler σ)) (k : Kernel σ) (i : Interrupt) :
    Option (Kernel σ) :=
  let irq := (i.regs.intNo - irqBase).toNat % 256
  if irqCount ≤ irq then some (k.viprint "Invalid IRQ vector\n")
  else if irq = 7 ∨ irq = 15 then
    let (k, isr) := picReadIsr k i
    if isr &&& (1 <<< UInt16.ofNat irq) = 0 then
      some (if irq = 15 then k.outb pic1Cmd picEoi else k)
    else handleIrq handlers k i irq
  else handleIrq handlers k i irq

/-- `syscall_table` -/
abbrev SyscallTable := Nat → Option (UInt32 → UInt32 → UInt32 → UInt32 → UInt32)

def syscallDispatch (table : SyscallTable) (r : Registers) : UInt32 :=
  if maxSyscalls ≤ r.eax.toNat then 0xFFFFFFFF
  else
    match table r.eax.toNat with
    | none => 0xFFFFFFFF
    | some call => call r.ebx r.ecx r.edx r.esi

/-- The kernel and the registers after the interrupt. -/
def interruptDispatch (handlers : Nat → Option (Handler σ)) (table : SyscallTable) (k : Kernel σ)
    (i : Interrupt) : Option (Kernel σ × Registers) :=
  let vector := i.regs.intNo
  if vector < 32 then none
  else if irqBase ≤ vector ∧ vector < irqBase + UInt32.ofNat irqCount then
    (irqDispatch handlers k i).map fun k => (k, i.regs)
  else if vector = syscallVector then some (k, { i.regs with eax := syscallDispatch table i.regs })
  else none

/-- The result is `-1` when there is a handler already. -/
def irqRegisterHandler (handlers : Nat → Option (Handler σ)) (irq : Nat) (handler : Handler σ) :
    Int × (Nat → Option (Handler σ)) :=
  if irqCount ≤ irq ∨ (handlers irq).isSome then (-1, handlers)
  else (0, Function.update handlers irq (some handler))

/-- The handlers that `kernel` registers. -/
def kernelHandlers : Nat → Option (Handler σ) :=
  (irqRegisterHandler (irqRegisterHandler (fun _ => none) 0 pitHandler).2 1 keyboardHandler).2

end CobraOS.Interrupts
