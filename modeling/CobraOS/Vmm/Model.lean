import CobraOS.Base.Packed
import CobraOS.Base.System

/-!
# Page tables, `arch/x86/cpu/vmm.c`

The page directory and the page tables are pages of memory, which is a function from addresses to
words.  A word of the directory or of a table holds the address of a page and flags in its low 12
bits.

The frame that `pmm_alloc_page` returns, if it is called, is part of a call (`newPt`, with `0` for
`NULL`).  `Fresh` is what `map_page` may expect of it.
-/

namespace CobraOS.Vmm

open Base

abbrev Word := BitVec 32

/-- `PAGE_SIZE` -/
def pageSize : Nat := 4096

/-- The bits for the flags, `0xFFF`. -/
def flagsMask : Word := 0xFFF

/-- `PAGE_RW` -/
def pageRw : Word := 2

/-- `PAGE_USER` -/
def pageUser : Word := 4

/-- `current_page_directory`, and the word at each address. -/
structure State where
  pageDirectory : Nat
  word : Nat → Word

def pdIndex (virt : Word) : Nat := (virt >>> 22).toNat

def ptIndex (virt : Word) : Nat := ((virt >>> 12) &&& 0x3FF).toNat

/-- `page_dir[i]` -/
def State.dirEntry (s : State) (i : Nat) : Word := s.word (s.pageDirectory + 4 * i)

/-- `(uint32_t *)(entry & ~0xFFF)` -/
def tableOf (entry : Word) : Nat := (entry &&& ~~~flagsMask).toNat

def State.store (s : State) (a : Nat) (w : Word) : State :=
  { s with word := Function.update s.word a w }

/-- `memset(page, 0, PAGE_SIZE)` -/
def State.zeroPage (s : State) (page : Nat) : State :=
  { s with word := fun a => if page ≤ a ∧ a < page + pageSize then 0 else s.word a }

/-- The arguments of `map_page`, and what `pmm_alloc_page` returns. -/
structure Call where
  virt : Word
  phys : Word
  flags : Word
  newPt : Word
  deriving DecidableEq

/-- A page table for the directory entry, if there is none; `none` when there is no page for it. -/
def ensureTable (s : State) (c : Call) : Option State :=
  if s.dirEntry (pdIndex c.virt) &&& 1 = 0 then
    if c.newPt = 0 then none
    else
      some ((s.zeroPage c.newPt.toNat).store (s.pageDirectory + 4 * pdIndex c.virt)
        (c.newPt ||| (c.flags &&& flagsMask) ||| 1))
  else some s

def mapPage (s : State) (c : Call) : Bool × State :=
  match ensureTable s c with
  | none => (false, s)
  | some s =>
    (true, s.store (tableOf (s.dirEntry (pdIndex c.virt)) + 4 * ptIndex c.virt)
      (c.phys ||| c.flags ||| 1))

/-- `page_table[pt_index]` -/
def State.tableEntry (s : State) (virt : Word) : Word :=
  s.word (tableOf (s.dirEntry (pdIndex virt)) + 4 * ptIndex virt)

def isMapped (s : State) (virt : Word) : Bool :=
  if s.dirEntry (pdIndex virt) &&& 1 = 0 then false else s.tableEntry virt &&& 1 != 0

/-- What walking directory and table gives: the page and the flags. -/
def walk (s : State) (virt : Word) : Option (Word × Word) :=
  if isMapped s virt then
    some (s.tableEntry virt &&& ~~~flagsMask, s.tableEntry virt &&& flagsMask)
  else none

/-- The permissions that the processor grants for the page of `virt`. -/
def permissions (s : State) (virt : Word) : Word :=
  s.dirEntry (pdIndex virt) &&& s.tableEntry virt &&& (pageRw ||| pageUser)

/-! ### Runs -/

/-- A page for a new table: none, or one that is neither the directory nor a table in use. -/
def Fresh (s : State) (newPt : Word) : Prop :=
  newPt = 0 ∨ (newPt &&& flagsMask = 0 ∧ newPt.toNat ≠ s.pageDirectory ∧
    ∀ i < 1024, s.dirEntry i &&& 1 ≠ 0 → tableOf (s.dirEntry i) ≠ newPt.toNat)

/-- A page directory without entries. -/
structure Empty (s : State) : Prop where
  aligned : s.pageDirectory % pageSize = 0
  entries : ∀ i < 1024, s.dirEntry i &&& 1 = 0

/-- A call and its result. -/
structure Event where
  call : Call
  ok : Bool

/-- Every sequence of calls from an empty directory, with page-aligned `phys` and flags below
`4096`. -/
def system : System State Event where
  init := Empty
  step s e s' := Fresh s e.call.newPt ∧ e.call.phys &&& flagsMask = 0 ∧
    e.call.flags &&& ~~~flagsMask = 0 ∧
    mapPage s e.call = (e.ok, s')

/-- The successful calls of a run. -/
def successes (l : List Event) : List Call := (l.filter Event.ok).map Event.call

/-- The first call for the directory entry `i`. -/
def firstIn (l : List Call) (i : Nat) : Option Call := l.find? (fun c => pdIndex c.virt = i)

/-- The last call for the page of `virt`. -/
def lastFor (l : List Call) (virt : Word) : Option Call :=
  l.reverse.find? (fun c => c.virt >>> 12 = virt >>> 12)

end CobraOS.Vmm
