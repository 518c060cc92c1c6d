import CobraOS.Base.Chain
import CobraOS.Base.Memory
import CobraOS.Base.Word
import CobraOS.Base.Dyadic
import CobraOS.Base.System
import CobraOS.Heap.Model
import CobraOS.Heap.Alloc
import CobraOS.Heap.Free
import CobraOS.Heap.Client
import CobraOS.Heap.Run
import CobraOS.Base.Bitmap
import CobraOS.Pmm.Agreement
import CobraOS.Boot.Multiboot
import CobraOS.Boot.Pages
import CobraOS.Boot.Frames
import CobraOS.Boot.Owners
import CobraOS.Timers.Model
import CobraOS.Timers.Queue
import CobraOS.Timers.Ops
import CobraOS.Timers.Punctual
import CobraOS.Shutdown.Model
import CobraOS.Shutdown.Early
import CobraOS.Base.Block
import CobraOS.Snake.Model
import CobraOS.Base.Caret
import CobraOS.Snake.Session
import CobraOS.Snake.Line
import CobraOS.Snake.Editor
import CobraOS.Snake.Invariant
import CobraOS.Snake.FlatText
import CobraOS.Ramfs.Model
import CobraOS.Ramfs.Shell
import CobraOS.Base.Tree
import CobraOS.Base.Partial
import CobraOS.Ramfs.Tree
import CobraOS.Ramfs.Data
import CobraOS.Ramfs.Handles
import CobraOS.Ramfs.Runs
import CobraOS.Ramfs.Paths
import CobraOS.Ramfs.Dangling
import CobraOS.Base.Ring
import CobraOS.Keyboard.Fifo
import CobraOS.Base.Cells
import CobraOS.Shell.Line
import CobraOS.Shell.Refines
import CobraOS.Base.Stack
import CobraOS.Base.X86
import CobraOS.Timers.Reentrant
import CobraOS.Task.Switch
import CobraOS.Task.Transparent
import CobraOS.Task.Frame
import CobraOS.Task.Model
import CobraOS.Task.Queue
import CobraOS.Task.Schedule
import CobraOS.Task.Create
import CobraOS.Task.Invariant
import CobraOS.Snake.Files
import CobraOS.Snake.Loaded
import CobraOS.Snake.Undo
import CobraOS.Snake.Run
import CobraOS.Snake.Unsaved
import CobraOS.Snake.RoundTrip
import CobraOS.Base.Ledger
import CobraOS.Snake.Owners
import CobraOS.Snake.Leaks
import CobraOS.Snake.Memory
import CobraOS.Ramfs.Append
import CobraOS.Screen.Model
import CobraOS.Shell.History
import CobraOS.Shell.Display
import CobraOS.Base.Packed
import CobraOS.Boot.Bounds
import CobraOS.Vmm.Model
import CobraOS.Vmm.Mapping
import CobraOS.Screen.Format
import CobraOS.Screen.Printf
import CobraOS.Base.Components
import CobraOS.Ramfs.Follow
import CobraOS.Ramfs.Pwd
import CobraOS.Ramfs.Verbatim
import CobraOS.Ramfs.Siblings
import CobraOS.Ramfs.Nameable
import CobraOS.Shutdown.Pending
import CobraOS.Keyboard.Handler
import CobraOS.Keyboard.Modifiers
import CobraOS.Keyboard.Whole
import CobraOS.Keyboard.Typed
import CobraOS.Keyboard.Client
import CobraOS.Shell.Keys
import CobraOS.Interrupts.Model
import CobraOS.Interrupts.Eoi
import CobraOS.Snake.Refused
import CobraOS.Snake.Supplied
import CobraOS.Snake.Edits
import CobraOS.Snake.Pointers
import CobraOS.Snake.Dirty
import CobraOS.Heap.Complete
import CobraOS.Heap.Zeroed
import CobraOS.Heap.Aligned
import CobraOS.Heap.DoubleFree
import CobraOS.Ramfs.Cursor
import CobraOS.Ramfs.Extent
import CobraOS.Ramfs.Target
import CobraOS.Ramfs.Atomic
import CobraOS.Snake.Pieces
import CobraOS.Snake.Unchanged
import CobraOS.Base.Numeral
import CobraOS.Shell.Numbers
import CobraOS.Pit.Model
import CobraOS.Pit.Sleep
import CobraOS.Boot.Ends
import CobraOS.Base.Cyclic
import CobraOS.Task.Fair
import CobraOS.Task.Listing
import CobraOS.Timers.Drain
import CobraOS.Timers.Stable
import CobraOS.Shell.Recall
import CobraOS.Snake.SameFile
import CobraOS.Base.Buffer
import CobraOS.Screen.Snprintf
import CobraOS.Base.Layout
import CobraOS.Screen.Console
import CobraOS.Base.Copy
import CobraOS.Lib.Memory
import CobraOS.Base.Bcd
import CobraOS.Rtc.Formats
import CobraOS.Pit.Program
import CobraOS.Base.Sections
import CobraOS.Sync.Deadlock
import CobraOS.Timers.Locked
import CobraOS.Base.Gate
import CobraOS.Base.Interference
import CobraOS.Base.Pic
import CobraOS.Interrupts.Lines
import CobraOS.Interrupts.Loop
import CobraOS.Interrupts.Stubs
import CobraOS.Interrupts.Transparent
import CobraOS.Snake.Prompt
import CobraOS.Vmm.Paging
import CobraOS.Base.Pool
import CobraOS.Shell.Blocks
import CobraOS.Segments.Flat
