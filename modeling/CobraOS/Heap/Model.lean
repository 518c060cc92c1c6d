import CobraOS.Base.Chain
import CobraOS.Base.Memory
import CobraOS.Base.Word

/-!
# The kernel heap, `arch/x86/kernel/heap.c`

The heap is a buddy allocator over the 4 MiB from `heapStart`.  Every block begins with a 16-byte
header in the memory itself: the words `next`, `order`, `free` and `self`.  The state is the memory,
the array `freeLists` of list heads and `heapTop`; a null pointer is the address `0`.

The functions follow the source statement by statement.  A loop over orders is a recursion on the
number of orders left.  The walk of `removeFreeBlock` is `locate` with fuel for one more block than
the heap can hold; a walk that is longer than that never ends.  Where the source stops the machine,
the result is a `HeapStop` with the state at that point.
-/

namespace CobraOS.Heap

open Base

/-- `HEAP_START` -/
def heapStart : Nat := 0x02000000

/-- `HEAP_SIZE` -/
def heapSize : Nat := 0x02000000

/-- `MIN_BLOCK_SHIFT` -/
def minBlockShift : Nat := 5

/-- `MAX_BLOCK_SHIFT` -/
def maxBlockShift : Nat := 22

/-- `MAX_BLOCK_SIZE` -/
def maxBlockSize : Nat := 1 <<< maxBlockShift

/-- `HEADER_SIZE`, the size of `block_t`. -/
def headerSize : Nat := 16

/-- `sizeof(void *)` and `sizeof(uintptr_t)` -/
def ptrSize : Nat := 4

/-- `(size_t)-1` -/
def sizeMax : Nat := 4294967295

/-- The static variables of the file and the memory. -/
structure State where
  mem : Mem
  freeLists : Nat → Nat
  heapTop : Nat

/-- The ways a heap operation does not return. -/
inductive HeapStop
  /-- the `for (;;)` at the end of `remove_free_block` -/
  | corruptedFreeList (h : State)
  /-- the `for (;;)` of `buddy_free` -/
  | badFree (h : State)
  /-- the `for (;;)` of `kmalloc_init` -/
  | tooSmall
  /-- an index past the end of `free_lists` -/
  | outOfBounds
  /-- a walk along a free list that does not end -/
  | endless

/-! ### The header of a block -/

def blockNext (m : Mem) (b : Nat) : Nat := load32 m b
def blockOrder (m : Mem) (b : Nat) : Nat := load32 m (b + 4)
def blockFree (m : Mem) (b : Nat) : Nat := load32 m (b + 8)
def blockSelf (m : Mem) (b : Nat) : Nat := load32 m (b + 12)

def setNext (m : Mem) (b w : Nat) : Mem := store32 m b w
def setOrder (m : Mem) (b w : Nat) : Mem := store32 m (b + 4) w
def setFree (m : Mem) (b w : Nat) : Mem := store32 m (b + 8) w
def setSelf (m : Mem) (b w : Nat) : Mem := store32 m (b + 12) w

/-- A pointer, `none` when it is null. -/
def ptr (a : Nat) : Option Nat := if a = 0 then none else some a

/-- The `next` pointers of the blocks. -/
def links (m : Mem) (b : Nat) : Option Nat := ptr (blockNext m b)

/-- One more block than fits in the heap. -/
def listFuel : Nat := 131073

/-! ### Blocks and free lists -/

/-- The block that `kmalloc_init` puts in the list of its order. -/
def initBlock (h : State) (b order top : Nat) : State where
  mem := setSelf (setNext (setFree (setOrder h.mem b order) b 1) b 0) b 0
  freeLists := Function.update h.freeLists order b
  heapTop := top

/-- `while (max_order > MIN_BLOCK_SHIFT && (aligned_start + (1UL << max_order) > …)) max_order--` -/
def fittingOrder (alignedStart : Nat) : Nat → Nat
  | 0 => 0
  | order + 1 =>
    if minBlockShift < order + 1 ∧ heapStart + heapSize < alignedStart + (1 <<< (order + 1)) then
      fittingOrder alignedStart order
    else order + 1

def kmallocInit (h : State) : Except HeapStop State :=
  let h := { h with freeLists := fun i => if i ≤ maxBlockShift then 0 else h.freeLists i }
  let alignedStart := (heapStart + maxBlockSize - 1) &&& (sizeMax - (maxBlockSize - 1))
  if heapStart + heapSize < alignedStart + maxBlockSize then
    let maxOrder := fittingOrder alignedStart maxBlockShift
    if maxOrder < minBlockShift then .error .tooSmall
    else .ok (initBlock h alignedStart maxOrder (alignedStart + (1 <<< maxOrder)))
  else .ok (initBlock h alignedStart maxBlockShift (alignedStart + maxBlockSize))

def buddyOf (m : Mem) (block : Nat) : Nat := block ^^^ (1 <<< blockOrder m block)

def insertFreeBlock (h : State) (block : Nat) : Except HeapStop State :=
  let order := blockOrder h.mem block
  if maxBlockShift < order then .error .outOfBounds
  else .ok { h with
    mem := setNext h.mem block (h.freeLists order)
    freeLists := Function.update h.freeLists order block }

/-- `*indirect = v`, where `indirect` is the head of list `order` or the `next` field of `prev`. -/
def setIndirect (h : State) (order : Nat) (prev : Option Nat) (v : Nat) : State :=
  match prev with
  | none => { h with freeLists := Function.update h.freeLists order v }
  | some c => { h with mem := setNext h.mem c v }

def removeFreeBlock (h : State) (block : Nat) : Except HeapStop State :=
  let order := blockOrder h.mem block
  if maxBlockShift < order then .error .outOfBounds
  else
    match locate (links h.mem) (fun a => a == block) listFuel none (ptr (h.freeLists order)) with
    | none => .error .endless
    | some (_, none) => .error (.corruptedFreeList h)
    | some (prev, some _) =>
      let h := setIndirect h order prev (blockNext h.mem block)
      .ok { h with mem := setNext h.mem block 0 }

def splitBlock (h : State) (order : Nat) : Except HeapStop State := do
  let block := h.freeLists order
  let h ← removeFreeBlock h block
  let order := order - 1
  let mem := setFree (setOrder h.mem block order) block 1
  let buddy := buddyOf mem block
  let mem := setSelf (setFree (setOrder mem buddy order) buddy 1) buddy 0
  let h ← insertFreeBlock { h with mem := mem } block
  insertFreeBlock h buddy

/-- The loop of `coalesce`, with the number of orders left to `MAX_BLOCK_SHIFT`. -/
def coalesceLoop : Nat → State → Nat → Nat → Except HeapStop (Nat × State)
  | 0, h, block, _ => .ok (block, h)
  | n + 1, h, block, order => do
    let buddy := buddyOf h.mem block
    if blockFree h.mem buddy = 0 ∨ blockOrder h.mem buddy ≠ order then
      .ok (block, h)
    else
      let h ← removeFreeBlock h buddy
      let block := if buddy < block then buddy else block
      let order := order + 1
      let mem := setFree (setOrder h.mem block order) block 1
      coalesceLoop n { h with mem := mem } block order

def coalesce (h : State) (block : Nat) : Except HeapStop (Nat × State) :=
  let order := blockOrder h.mem block
  coalesceLoop (maxBlockShift - order) h block order

/-! ### Allocation -/

/-- `while (order < MAX_BLOCK_SHIFT && (1UL << order) < total) order++`, with the number of orders
left. -/
def orderFor (total : Nat) : Nat → Nat → Nat
  | 0, order => order
  | n + 1, order => if 1 <<< order < total then orderFor total n (order + 1) else order

/-- `while (o <= MAX_BLOCK_SHIFT && free_lists[o] == NULL) o++`, with the number of orders left. -/
def firstList (freeLists : Nat → Nat) : Nat → Nat → Nat
  | 0, o => o
  | n + 1, o => if freeLists o = 0 then firstList freeLists n (o + 1) else o

/-- `while (o > order) { split_block(o); o--; }`, with `n = o - order`. -/
def splitDown (order : Nat) : Nat → State → Except HeapStop State
  | 0, h => .ok h
  | n + 1, h => do
    let h ← splitBlock h (order + (n + 1))
    splitDown order n h

def buddyAlloc (h : State) (size : Nat) : Except HeapStop (Nat × State) :=
  if size = 0 then .ok (0, h)
  else if sizeMax - headerSize < size then .ok (0, h)
  else
    let total := size + headerSize
    let order := orderFor total (maxBlockShift - minBlockShift) minBlockShift
    if 1 <<< order < total then .ok (0, h)
    else
      let o := firstList h.freeLists (maxBlockShift + 1 - order) order
      if maxBlockShift < o then .ok (0, h)
      else do
        let h ← splitDown order (o - order) h
        let block := h.freeLists order
        let h ← removeFreeBlock h block
        let mem := setSelf (setFree h.mem block 0) block block
        .ok (block + headerSize, { h with mem := mem })

def kmalloc (h : State) (size : Nat) : Except HeapStop (Nat × State) :=
  if size = 0 then .ok (0, h)
  else if sizeMax - 7 < size then .ok (0, h)
  else buddyAlloc h ((size + 7) &&& (sizeMax - 7))

/-- `n` bytes from `p` on become `c`. -/
def heapMemset (m : Mem) (p : Nat) (c : UInt8) : Nat → Mem
  | 0 => m
  | n + 1 => heapMemset (store8 m p c) (p + 1) c n

def kcalloc (h : State) (nmemb size : Nat) : Except HeapStop (Nat × State) :=
  if nmemb = 0 ∨ size = 0 then .ok (0, h)
  else if sizeMax / nmemb < size then .ok (0, h)
  else do
    let total := nmemb * size
    let (p, h) ← kmalloc h total
    if p = 0 then .ok (0, h)
    else .ok (p, { h with mem := heapMemset h.mem p 0 total })

/-- `while (a < alignment) { if (a > (size_t)-1 / 2) return NULL; a <<= 1; }`: the power of two, or
`none` for the early return. -/
def roundAlignment (alignment : Nat) : Nat → Nat → Option Nat
  | 0, a => some a
  | n + 1, a =>
    if a < alignment then
      if sizeMax / 2 < a then none else roundAlignment alignment n (a <<< 1)
    else some a

/-- The alignment that `kmalloc_aligned` uses. -/
def effectiveAlignment (alignment : Nat) : Option Nat :=
  let alignment := if alignment < ptrSize then ptrSize else alignment
  if alignment &&& (alignment - 1) ≠ 0 then roundAlignment alignment 32 1 else some alignment

def kmallocAligned (h : State) (size alignment : Nat) : Except HeapStop (Nat × State) :=
  if size = 0 then .ok (0, h)
  else
    match effectiveAlignment alignment with
    | none => .ok (0, h)
    | some alignment =>
      if sizeMax - alignment - ptrSize < size then .ok (0, h)
      else do
        let total := size + alignment + ptrSize
        let (raw, h) ← kmalloc h total
        if raw = 0 then .ok (0, h)
        else
          let aligned := (raw + ptrSize + alignment - 1) % 4294967296 &&&
            (sizeMax - (alignment - 1))
          let block := raw - headerSize
          .ok (aligned, { h with mem := store32 h.mem (aligned - ptrSize) block })

/-! ### Release -/

/-- The word in front of a payload, where `kfree` finds the block. -/
def ownerWord (m : Mem) (p : Nat) : Nat := load32 m (wsub p ptrSize)

def buddyFree (h : State) (p : Nat) : Except HeapStop State :=
  if p = 0 then .ok h
  else
    let block := ownerWord h.mem p
    if block = 0 ∨ blockFree h.mem block ≠ 0 then .error (.badFree h)
    else do
      let h := { h with mem := setFree h.mem block 1 }
      let (block, h) ← coalesce h block
      insertFreeBlock h block

def kfree (h : State) (p : Nat) : Except HeapStop State := buddyFree h p

def heapInit (h : State) : Except HeapStop State := kmallocInit h

end CobraOS.Heap
