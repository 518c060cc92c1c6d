import CobraOS.Base.Memory
import CobraOS.Pmm.Model

/-!
# The memory map at boot, `arch/x86/kernel/multiboot.c`

`parse_multiboot_info` walks the memory map twice, once to add up the available memory and once to
give its pages to the page allocator.  The map is read from memory, where each entry says how far
away the next one is.  All address arithmetic is that of `uint32_t`: the end of the map, the end of
an entry and the next page address wrap.  A loop takes fuel, and a loop that needs more never ends.
-/

namespace CobraOS.Boot

open Base Pmm

/-- `multiboot_memory_map_t` -/
structure Entry where
  size : Nat
  baseAddrLow : Nat
  baseAddrHigh : Nat
  lengthLow : Nat
  lengthHigh : Nat
  type : Nat
  deriving DecidableEq

/-- `MULTIBOOT_MEMORY_AVAILABLE` -/
def memoryAvailable : Nat := 1

/-- `kernel_phys_start` -/
def kernelPhysStart : Nat := 0x100000

/-- The entry at `a`. -/
def mmapEntry (m : Mem) (a : Nat) : Entry :=
  ⟨load32 m a, load32 m (a + 4), load32 m (a + 8), load32 m (a + 12), load32 m (a + 16),
    load32 m (a + 20)⟩

/-! ### The fields of `multiboot_info_t` that are read -/

def mbiFlags (m : Mem) (mbi : Nat) : Nat := load32 m mbi
def mbiMmapLength (m : Mem) (mbi : Nat) : Nat := load32 m (mbi + 44)
def mbiMmapAddr (m : Mem) (mbi : Nat) : Nat := load32 m (mbi + 48)

/-- The static variables of the file, and the page allocator. -/
structure State where
  memMapAddr : Nat
  memMapLength : Nat
  pmm : Pmm.State

/-- The ways `parse_multiboot_info` does not return. -/
inductive BootStop
  /-- `Error: Multiboot memory map not provided!` -/
  | noMemoryMap
  /-- an access past the end of the arrays of the page allocator -/
  | outOfBounds
  /-- a loop that does not end -/
  | endless

/-- `while ((uint32_t)mmap < mem_map_addr + mem_map_length)`, with `stop` for the right side: the
body of the loop for the entry at `a`, and on to the next one. -/
def mmapLoop {σ : Type} (m : Mem) (stop : Nat) (body : Entry → σ → Except BootStop σ) :
    Nat → Nat → σ → Except BootStop σ
  | 0, _, _ => .error .endless
  | fuel + 1, a, s =>
    if a < stop then do
      let e := mmapEntry m a
      let s ← body e s
      mmapLoop m stop body fuel ((a + e.size + 4) % 4294967296) s
    else .ok s

/-- `pmm_free_page(addr)`, which prints and otherwise returns nothing. -/
def freePage (s : Pmm.State) (addr : Nat) : Except BootStop Pmm.State :=
  match pmmFreePage s addr with
  | .ok (_, s) => .ok s
  | .error .outOfBounds => .error .outOfBounds

/-- The body of the page loop: `continue` in the kernel image, `pmm_free_page` elsewhere. -/
def pageBody (kernelPhysEnd : Nat) (s : Pmm.State) (addr : Nat) : Except BootStop Pmm.State :=
  if kernelPhysStart ≤ addr ∧ addr < kernelPhysEnd then .ok s else freePage s addr

/-- `for (addr = base; addr < base + length; addr += PAGE_SIZE)`, with `stop` for `base +
length`. -/
def pagesLoop (kernelPhysEnd stop : Nat) : Nat → Nat → Pmm.State → Except BootStop Pmm.State
  | 0, _, _ => .error .endless
  | fuel + 1, addr, s =>
    if addr < stop then do
      let s ← pageBody kernelPhysEnd s addr
      pagesLoop kernelPhysEnd stop fuel ((addr + pageSize) % 4294967296) s
    else .ok s

/-- The body of the first walk. -/
def addLength (e : Entry) (total : Nat) : Except BootStop Nat :=
  if e.type = memoryAvailable then .ok ((total + e.lengthLow) % 4294967296) else .ok total

/-- The body of the second walk. -/
def freeEntry (fuel kernelPhysEnd : Nat) (e : Entry) (s : Pmm.State) : Except BootStop Pmm.State :=
  if e.type = memoryAvailable then
    pagesLoop kernelPhysEnd ((e.baseAddrLow + e.lengthLow) % 4294967296) fuel e.baseAddrLow s
  else .ok s

def parseMultibootInfo (fuel : Nat) (m : Mem) (kernelPhysEnd : Nat) (s : State) (mbi : Nat) :
    Except BootStop State :=
  if mbiFlags m mbi &&& (1 <<< 6) = 0 then .error .noMemoryMap
  else do
    let s := { s with memMapAddr := mbiMmapAddr m mbi, memMapLength := mbiMmapLength m mbi }
    let stop := (s.memMapAddr + s.memMapLength) % 4294967296
    let totalAvailable ← mmapLoop m stop addLength fuel s.memMapAddr 0
    let pmm := pmmInit s.pmm totalAvailable
    let pmm ← mmapLoop m stop (freeEntry fuel kernelPhysEnd) fuel s.memMapAddr pmm
    .ok { s with pmm := pmm }

/-! ### Well-formed maps -/

/-- The first byte of the region, by both words. -/
def Entry.base (e : Entry) : Nat := e.baseAddrLow + 4294967296 * e.baseAddrHigh

/-- The length of the region, by both words. -/
def Entry.length (e : Entry) : Nat := e.lengthLow + 4294967296 * e.lengthHigh

/-- The entries `es` are laid out from `a` to `stop`. -/
def MapAt (m : Mem) (stop : Nat) : Nat → List Entry → Prop
  | a, [] => a = stop
  | a, e :: es => e = mmapEntry m a ∧ 20 ≤ e.size ∧ MapAt m stop (a + e.size + 4) es

theorem MapAt.le {m : Mem} {stop : Nat} :
    ∀ {es : List Entry} {a : Nat}, MapAt m stop a es → a ≤ stop
  | [], _, h => le_of_eq h
  | _ :: _, _, ⟨_, _, h⟩ => by
    have := h.le
    omega

/-- `mbi` has a memory map, and it consists of the entries `es`. -/
structure HasMap (m : Mem) (mbi : Nat) (es : List Entry) : Prop where
  given : mbiFlags m mbi &&& (1 <<< 6) ≠ 0
  fits : mbiMmapAddr m mbi + mbiMmapLength m mbi < 4294967296
  entries : MapAt m (mbiMmapAddr m mbi + mbiMmapLength m mbi) (mbiMmapAddr m mbi) es

end CobraOS.Boot
