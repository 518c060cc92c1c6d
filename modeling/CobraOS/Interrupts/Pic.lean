import CobraOS.Base.Interference
import CobraOS.Base.Pic
import CobraOS.Interrupts.Eoi

/-!
# The interrupt controllers, `arch/x86/cpu/pic.c`, and what `kernel` does with them

The two chips are on a board with the processor, of which there is its interrupt flag.  The
functions of `pic.c` are programs of port accesses, and between two accesses a device may raise or
drop its line, and an interrupt may come.

An interrupt is what `interrupt_dispatch` does, with the vector that the chips give; what it writes
to their ports is replayed on them.  It is one step, because interrupts are off until it returns and
a line that is raised or dropped meanwhile does not matter to it.
-/

namespace CobraOS.Interrupts

open Base

variable {σ : Type}

/-- The chips, the interrupt flag, whether there is an IDT, `irq_handlers`, and the rest. -/
structure Board (σ : Type) where
  pic : Pic.Pair
  accepts : Bool
  idtLoaded : Bool
  handlers : Nat → Option (Handler σ)
  kernel : Kernel σ

/-- Programs of the kernel. -/
abbrev Code (σ : Type) := Prog (Board σ) UInt8

/-- A change of the state that gives no answer. -/
def update (f : Board σ → Board σ) : Code σ Unit := .act (fun b => (0, f b)) fun _ => .done ()

def Board.out (b : Board σ) (port : Nat) (value : UInt8) : Board σ :=
  { b with pic := b.pic.out port value, kernel := b.kernel.outb port value }

def outb (port : Nat) (value : UInt8) : Code σ Unit := update fun b => b.out port value

def inb (port : Nat) : Code σ UInt8 := .act (fun b => (b.pic.inp port, b)) .done

def ioWait : Code σ Unit := outb 0x80 0

/-- What does not touch the chips. -/
def work (f : Kernel σ → Kernel σ) : Code σ Unit := update fun b => { b with kernel := f b.kernel }

def viprint (text : String) : Code σ Unit := work fun k => k.viprint text

/-! ### `cornucopia_pic.h` -/

def picCommandMaster : Nat := 0x20

def picDataMaster : Nat := 0x21

def picCommandSlave : Nat := 0xA0

def picDataSlave : Nat := 0xA1

def icw1Init : UInt8 := 0x11

def icw1Icw4 : UInt8 := 0x01

def icw48086 : UInt8 := 0x01

def picOffsetMaster : UInt8 := 0x20

def picOffsetSlave : UInt8 := 0x28

def picMasterIcw3 : UInt8 := 0x04

def picSlaveIcw3 : UInt8 := 0x02

/-! ### `pic.c` -/

/-- The initialization words for one chip. -/
def sendIcws (command data : Nat) (offset icw3 : UInt8) : Code σ Unit := do
  outb command (icw1Init ||| icw1Icw4)
  ioWait
  outb data offset
  ioWait
  outb data icw3
  ioWait
  outb data icw48086
  ioWait

def remap : Code σ Unit := do
  let masterMask ← inb picDataMaster
  let slaveMask ← inb picDataSlave
  sendIcws picCommandMaster picDataMaster picOffsetMaster picMasterIcw3
  sendIcws picCommandSlave picDataSlave picOffsetSlave picSlaveIcw3
  outb picDataMaster masterMask
  ioWait
  outb picDataSlave slaveMask
  ioWait
  viprint "Remap done\n"
  viprint "Masking all\n"
  outb picDataMaster 0xFF
  outb picDataSlave 0xFF
  viprint "Masked\n"

/-- The data port of a line, and the number of the line at its chip. -/
def portOf (irqLine : Nat) : Nat × Nat :=
  if irqLine < 8 then (picDataMaster, irqLine) else (picDataSlave, irqLine - 8)

def setMask (irqLine : Nat) : Code σ Unit := do
  let value ← inb (portOf irqLine).1
  outb (portOf irqLine).1 (value ||| ⟨1#8 <<< (portOf irqLine).2⟩)

def clearMask (irqLine : Nat) : Code σ Unit := do
  let value ← inb (portOf irqLine).1
  outb (portOf irqLine).1 (value &&& ~~~⟨1#8 <<< (portOf irqLine).2⟩)

def disablePic : Code σ Unit := do
  setMask 0
  outb picDataSlave 0xFF
  ioWait
  outb picDataMaster 0xFF
  viprint "Disabled PIC\n"

def unmaskKb : Code σ Unit := do
  let masterMask ← inb picDataMaster
  outb picDataMaster (masterMask &&& ~~~⟨1#8 <<< 1⟩)

/-! ### `interrupts.c` and `kernel.c` -/

/-- `init_ints`; what the entries of the IDT are does not matter here. -/
def initInts : Code σ Unit := do
  viprint "Setting IDT entries\n"
  viprint "Remapping PIC\n"
  remap
  viprint "Loading IDT\n"
  update fun b => { b with idtLoaded := true }
  viprint "Loaded IDT\n"

/-- `irq_register_handler`, whose result `kernel` does not look at. -/
def registerHandler (irq : Nat) (handler : Handler σ) : Code σ Unit :=
  update fun b => { b with handlers := (irqRegisterHandler b.handlers irq handler).2 }

def asmIntsOn : Code σ Unit := do
  update fun b => { b with accepts := true }
  viprint "Interrupts enabled\n"

/-- Functions one after the other. -/
def works (fs : List (Kernel σ → Kernel σ)) : Code σ Unit :=
  fs.foldr (fun f p => work f >>= fun _ => p) (pure ())

/-- `kernel` from `init_ints` to its loop.  Most functions do not touch the chips: `pit_init`, those
that are called before `unmask_kb`, and those that are called after `clear_mask`. -/
def start (pitInit : Kernel σ → Kernel σ) (before after : List (Kernel σ → Kernel σ)) :
    Code σ Unit := do
  initInts
  work pitInit
  registerHandler 0 pitHandler
  registerHandler 1 keyboardHandler
  asmIntsOn
  works before
  unmaskKb
  clearMask 0
  works after

/-! ### Events -/

inductive Event
  | raise (line : Nat)
  | drop (line : Nat)
  | interrupt (i : Interrupt)

/-- The chips after writes to ports. -/
def replay (pic : Pic.Pair) (outs : List Screen.Out) : Pic.Pair :=
  outs.foldl (fun pic o => pic.out o.port o.value) pic

/-- An interrupt, with what the processor and the dispatcher read from the chips. -/
def Board.interrupted (table : SyscallTable) (b : Board σ) (i : Interrupt) (b' : Board σ) : Prop :=
  let pic := b.pic.acknowledge.2
  let read := pic.out pic1Cmd picReadIsrCmd
  i.regs.intNo = b.pic.acknowledge.1.toUInt32 ∧ i.pic1 = read.inp pic1Cmd ∧
    i.pic2 = (read.out pic2Cmd picReadIsrCmd).inp pic2Cmd ∧
    ∃ k r, interruptDispatch b.handlers table b.kernel i = some (k, r) ∧ b' = { b with
      kernel := k
      pic := replay pic (k.screen.ports.drop b.kernel.screen.ports.length) }

def Board.step (table : SyscallTable) (b : Board σ) (e : Event) (b' : Board σ) : Prop :=
  match e with
  | .raise l => l < 16 ∧ b' = { b with pic := b.pic.raise l }
  | .drop l => l < 16 ∧ b' = { b with pic := b.pic.drop l }
  | .interrupt i => b.accepts = true ∧ b.interrupted table i b'

/-- Where `kernel` starts: interrupts are off, nothing is in service, and no handler is
registered. -/
structure Board.Entry (b : Board σ) : Prop where
  accepts : b.accepts = false
  master : b.pic.master.service = 0
  slave : b.pic.slave.service = 0
  handlers : b.handlers = fun _ => none

/-- The board and its devices. -/
def devices (σ : Type) (table : SyscallTable) : System (Board σ) Event where
  init := Board.Entry
  step := Board.step table

end CobraOS.Interrupts
