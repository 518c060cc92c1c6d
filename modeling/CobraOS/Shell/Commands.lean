import CobraOS.Base.Pool
import CobraOS.Heap.Client
import CobraOS.Pmm.Agreement
import CobraOS.Ramfs.Model
import CobraOS.Shell.Numbers

/-!
# `shell_process_line` and the commands of the two allocators

A line is split into its first word, at most 31 bytes of it, and the arguments behind the blanks;
the word is compared with the names of the commands in turn.  `alloc`, `free` and `freecount` call
the page allocator, and no other command does; `kalloc` and `kfree` call the heap for the user;
`shutdown` and `reboot` do not come back.  What the other commands print, and what they do to the
heap for the file system and the editor, is a parameter.

A line that does not come back, or that leaves an array, ends in a `Stop`.  After the second the
line may well come back, with memory behind the array changed: nothing is known then.  What a
session shows is the list of its lines with what was printed for each: `pageEvent` and `blocks` read
it.
-/

namespace CobraOS.Shell

open Base Screen
open Ramfs (text)

/-! ### The line -/

/-- The commands, in the order in which their names are compared. -/
inductive Command
  | help | clear | echo | ticks | uptime | version | shutdown | reboot | memmap | alloc | free
  | freecount | history | paging | kalloc | kfree | kheapinfo | tasks | ls | cat | mkdir | rm | cd
  | pwd | sn | touch | date | time | timer
  deriving DecidableEq

/-- The chain of `strcmp`. -/
def commandTable : List (Bytes × Command) :=
  [(text "help", .help), (text "clear", .clear), (text "echo", .echo), (text "ticks", .ticks),
    (text "uptime", .uptime), (text "version", .version), (text "shutdown", .shutdown),
      (text "reboot", .reboot),
    (text "memmap", .memmap), (text "alloc", .alloc), (text "free", .free),
      (text "freecount", .freecount),
    (text "history", .history), (text "paging", .paging), (text "kalloc", .kalloc),
      (text "kfree", .kfree),
    (text "kheapinfo", .kheapinfo), (text "tasks", .tasks), (text "ls", .ls), (text "cat", .cat),
    (text "mkdir", .mkdir), (text "rm", .rm), (text "cd", .cd), (text "pwd", .pwd),
      (text "sn", .sn),
    (text "touch", .touch), (text "date", .date), (text "time", .time), (text "timer", .timer)]

def commandOf (cmd : Bytes) : Option Command :=
  (commandTable.find? fun e => e.1 == cmd).map Prod.snd

/-- `while (*args && *args != ' ' && i < 31) cmd[i++] = *args++;`, with the number of bytes that may
follow. -/
def readCmd : Nat → Bytes → Bytes × Bytes
  | i + 1, c :: args =>
    if c = 32 then ([], c :: args)
    else
      let r := readCmd i args
      (c :: r.1, r.2)
  | _, args => ([], args)

/-- `cmd` and `args`. -/
def splitLine (line : Bytes) : Bytes × Bytes :=
  let r := readCmd 31 line
  (r.1, r.2.dropWhile (· = 32))

/-! ### The commands -/

/-- What the functions that print find in memory: texts for conversions, the stack behind the
arguments, and the local array of `print_uint`. -/
structure Around where
  mem : Screen.Word → Bytes
  stack : Nat → Screen.Word
  junk : Fin 12 → UInt8
  /-- The local variable that a parser is to fill. -/
  out : Nat

/-- The allocators. -/
structure Machine where
  pmm : Pmm.State
  heap : Heap.State

/-- How a line ends when there is nothing to say about what comes after it. -/
inductive Stop
  /-- It prints this and does not come back. -/
  | never (printed : Bytes)
  /-- It leaves an array. -/
  | outOfBounds
  deriving DecidableEq

/-- A function with checked accesses to its array. -/
def inArray {α : Type} : Option α → Except Stop α
  | some a => .ok a
  | none => .error .outOfBounds

def ofPmm {α : Type} (r : Except Pmm.PmmStop α) : Except Stop α := r.mapError fun _ => .outOfBounds

def heapStop : Heap.HeapStop → Stop
  | .outOfBounds => .outOfBounds
  | _ => .never []

def ofHeap {α : Type} (r : Except Heap.HeapStop α) : Except Stop α := r.mapError heapStop

section

variable (w : Around)

def Around.say (s : String) : Bytes := (viprint w.mem w.stack (text s)).1

def Around.hex (value : Nat) : Except Stop Bytes := inArray (hexprint w.mem w.stack value)

def Around.uint (n : Nat) : Except Stop Bytes := inArray (printUint w.mem w.stack w.junk n)

/-- `cli`, and `hlt` for ever. -/
def cmdShutdown {α : Type} : Except Stop α := .error (.never (w.say "System halting. Goodbye.\n"))

/-- The keyboard controller resets the processor, or an exception without a table of handlers
does. -/
def cmdReboot {α : Type} : Except Stop α := .error (.never (w.say "Rebooting...\n"))

def cmdAlloc (p : Pmm.State) : Except Stop (Bytes × Pmm.State) := do
  let (page, p) ← ofPmm (Pmm.pmmAllocPage p)
  match page with
  | some (a + 1) => do
    let shown ← w.hex (a + 1)
    .ok (w.say "Allocated physical page at: " ++ shown, p)
  | _ => .ok (w.say "PMM: no free pages available.\n", p)

/-- What `pmm_free_page` prints. -/
def noticeText : Option Pmm.Notice → Except Stop Bytes
  | none => .ok []
  | some (.doubleFree page) => do
    let shown ← w.hex page
    .ok (w.say "PMM: double free at " ++ shown ++ w.say "\n")
  | some .stackOverflow => .ok (w.say "PMM free stack overflow!\n")

def cmdPfree (p : Pmm.State) (args : Bytes) : Except Stop (Bytes × Pmm.State) :=
  let r := parseHex (some args) w.out
  if r.ret = false then .ok (w.say r.printed ++ w.say "Usage: free <hex_addr>\n", p)
  else do
    let (notice, p) ← ofPmm (Pmm.pmmFreePage p r.out)
    let noticed ← noticeText w notice
    let shown ← w.hex r.out
    .ok (noticed ++ w.say "Freed physical page at: " ++ shown, p)

def cmdFreecount (p : Pmm.State) : Except Stop Bytes := do
  let shown ← w.uint (Pmm.pmmGetFreePageCount p)
  .ok (w.say "Free physical pages: " ++ shown ++ w.say "\n")

def cmdKalloc (h : Heap.State) (args : Bytes) : Except Stop (Bytes × Heap.State) :=
  let r := parseDec (some args) w.out
  if r.ret = false then .ok (w.say r.printed ++ w.say "Usage: kalloc <decimal_size>\n", h)
  else do
    let (ptr, h) ← ofHeap (Heap.kmalloc h r.out)
    if ptr = 0 then .ok (w.say "kmalloc: allocation failed.\n", h)
    else do
      let size ← w.uint r.out
      let shown ← w.hex ptr
      .ok (w.say "Allocated " ++ size ++ w.say " bytes at: " ++ shown, h)

def cmdKfree (h : Heap.State) (args : Bytes) : Except Stop (Bytes × Heap.State) :=
  let r := parseHex (some args) w.out
  if r.ret = false then .ok (w.say r.printed ++ w.say "Usage: kfree <hex_addr>\n", h)
  else do
    let h ← ofHeap (Heap.kfree h r.out)
    let shown ← w.hex r.out
    .ok (w.say "Freed kernel heap pointer: " ++ shown, h)

/-- What a line prints and what it does to the allocators; `rest` is what another command prints,
and the heap after it. -/
def shellProcessLine (rest : Except Stop (Bytes × Heap.State)) (k : Machine) (line : Bytes) :
    Except Stop (Bytes × Machine) :=
  if line = [] then .ok ([], k)
  else
    let (cmd, args) := splitLine line
    match commandOf cmd with
    | none => .ok (w.say "Unknown command: '" ++ (viprint w.mem w.stack cmd).1 ++
        w.say "'. Type 'help' for a list.\n", k)
    | some .shutdown => cmdShutdown w
    | some .reboot => cmdReboot w
    | some .alloc => (cmdAlloc w k.pmm).map fun r => (r.1, { k with pmm := r.2 })
    | some .free => (cmdPfree w k.pmm args).map fun r => (r.1, { k with pmm := r.2 })
    | some .freecount => (cmdFreecount w k.pmm).map fun printed => (printed, k)
    | some .kalloc => (cmdKalloc w k.heap args).map fun r => (r.1, { k with heap := r.2 })
    | some .kfree => (cmdKfree w k.heap args).map fun r => (r.1, { k with heap := r.2 })
    | some _ => rest.map fun r => (r.1, { k with heap := r.2 })

end

/-! ### Sessions -/

/-- A line and what it printed. -/
structure Entry where
  line : Bytes
  printed : Bytes

/-- Bytes other than the blank and the end of the line. -/
def inNumber (b : UInt8) : Bool := b != 10 && b != 32

/-- The number behind a text, up to a blank or the end of the line. -/
def numberBehind (read : Bytes → Option Nat) (label : String) (printed : Bytes) : Option Nat :=
  if (text label).isPrefixOf printed then
    read ((printed.drop (text label).length).takeWhile inNumber)
  else none

def hexNumber (s : Bytes) : Option Nat :=
  let r := parseHex (some s) 0
  if r.ret then some r.out else none

def decNumber (s : Bytes) : Option Nat :=
  let r := parseDec (some s) 0
  if r.ret then some r.out else none

/-- The command of a line. -/
def commandIn (line : Bytes) : Option Command := commandOf (splitLine line).1

/-- **What an entry shows of the pages.** -/
def pageEvent (e : Entry) : Pool.Event Nat :=
  match commandIn e.line with
  | some .alloc =>
    match numberBehind hexNumber "Allocated physical page at: " e.printed with
    | some a => .took a
    | none => .refused
  | some .free =>
    match numberBehind hexNumber "Freed physical page at: " e.printed,
      numberBehind hexNumber "PMM: double free at " e.printed,
      numberBehind hexNumber "PMM free stack overflow!\nFreed physical page at: " e.printed with
    | some a, _, _ => .gave a
    | none, some a, _ => .again a
    | none, none, some a => .full a
    | none, none, none => .other
  | some .freecount =>
    match numberBehind decNumber "Free physical pages: " e.printed with
    | some n => .counted n
    | none => .other
  | _ => .other

/-- The block that an entry shows, its address and its size. -/
def blockShown (e : Entry) : Option Heap.Allocation :=
  if commandIn e.line = some .kalloc then do
    let size ← numberBehind decNumber "Allocated " e.printed
    let p ← numberBehind hexNumber " bytes at: " ((e.printed.drop 10).dropWhile (· ≠ 32))
    some (p, size)
  else none

/-- The address that a line gives to `kfree`. -/
def kfreeArg (line : Bytes) : Option Nat :=
  if commandIn line = some .kfree then hexNumber (splitLine line).2 else none

def blockStep (live : List Heap.Allocation) (e : Entry) : List Heap.Allocation :=
  match blockShown e, kfreeArg e.line with
  | some b, _ => b :: live
  | none, some p => live.filter fun b => b.1 ≠ p
  | none, none => live

/-- **The blocks that a session shows** and that it has not given back since. -/
def blocks (log : List Entry) : List Heap.Allocation := log.foldl blockStep []

/-- The address that a line gives to `free`. -/
def freeArg (line : Bytes) : Option Nat :=
  if commandIn line = some .free then hexNumber (splitLine line).2 else none

/-- The allocators, with the blocks that the user has and those that the kernel has. -/
structure Session where
  machine : Machine
  mine : List Heap.Allocation
  kernels : List Heap.Allocation

/-- A line that frees only what the user has. -/
def Careful (mine : List Heap.Allocation) (line : Bytes) : Prop :=
  ∀ p, kfreeArg line = some p → p = 0 ∨ ∃ n, (p, n) ∈ mine

/-- A line that stays in the arrays: it is careful, and a page that it frees has a bit. -/
structure Safe (mine : List Heap.Allocation) (line : Bytes) : Prop where
  careful : Careful mine line
  free : ∀ a, freeArg line = some a → Pmm.pageToIndex a < Pmm.bitmapFrames

/-- Lines are processed one after the other, whatever is in memory around the shell.  A line that is
not safe may do anything. -/
def sessions : System Session Entry where
  init s := s.mine = []
  step s e s' := s'.mine = blockStep s.mine e ∧ (Safe s.mine e.line →
    ∃ w rest, shellProcessLine w rest s.machine e.line = .ok (e.printed, s'.machine))

/-- Sessions of safe lines. -/
def safeSessions : System Session Entry := sessions.restrict fun s e => Safe s.mine e.line

end CobraOS.Shell
