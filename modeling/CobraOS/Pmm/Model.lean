import CobraOS.Base.Bitmap

/-!
# The page allocator, `arch/x86/kernel/pmm.c`

Free pages are kept twice: their addresses on a stack, and one bit for each frame in a bitmap.  The
stack holds addresses as they were given to `pmm_free_page`, aligned or not; the bitmap is indexed
by the frame, the address divided by `PAGE_SIZE`.

An index past the end of an array is an error, since the source does not check it.  What a function
prints is part of its result.
-/

namespace CobraOS.Pmm

open Base

/-- `PAGE_SIZE` -/
def pageSize : Nat := 4096

/-- `MAX_FRAMES` -/
def maxFrames : Nat := 32768

/-- The length of `pmm_bitmap`. -/
def bitmapWords : Nat := maxFrames / 32 + 1

structure State where
  bitmap : Bitmap
  freeStack : Nat → Nat
  stackTop : Nat
  totalFrames : Nat
  freePageCount : Nat

/-- What `pmm_free_page` prints when it does not free. -/
inductive Notice
  /-- `PMM: double free at` and the address -/
  | doubleFree (page : Nat)
  /-- `PMM free stack overflow!` -/
  | stackOverflow
  deriving DecidableEq

/-- An access past the end of `pmm_bitmap` or `free_stack`. -/
inductive PmmStop
  | outOfBounds
  deriving DecidableEq

def pageToIndex (page : Nat) : Nat := page / pageSize

/-- The access to the word of `index` in `pmm_bitmap`. -/
def checkIndex (index : Nat) : Except PmmStop Unit :=
  if index / 32 < bitmapWords then .ok () else .error .outOfBounds

def bitmapSet (s : State) (index : Nat) : Except PmmStop State := do
  checkIndex index
  .ok { s with bitmap := setBit s.bitmap index }

def bitmapClear (s : State) (index : Nat) : Except PmmStop State := do
  checkIndex index
  .ok { s with bitmap := clearBit s.bitmap index }

def bitmapTest (s : State) (index : Nat) : Except PmmStop Bool := do
  checkIndex index
  .ok (hasBit s.bitmap index)

def pmmInit (s : State) (totalMemory : Nat) : State where
  bitmap := fun i => if i < bitmapWords then 0#32 else s.bitmap i
  freeStack := s.freeStack
  stackTop := 0
  totalFrames := totalMemory / pageSize
  freePageCount := 0

/-- The page, or `none` for the null pointer of an empty stack. -/
def pmmAllocPage (s : State) : Except PmmStop (Option Nat × State) :=
  if s.stackTop = 0 then .ok (none, s)
  else if maxFrames ≤ s.stackTop - 1 then .error .outOfBounds
  else do
    let s := { s with stackTop := s.stackTop - 1 }
    let page := s.freeStack s.stackTop
    let index := pageToIndex page
    let s ← bitmapClear s index
    let s := if 0 < s.freePageCount then { s with freePageCount := s.freePageCount - 1 } else s
    .ok (some page, s)

def pmmFreePage (s : State) (page : Nat) : Except PmmStop (Option Notice × State) := do
  let index := pageToIndex page
  if ← bitmapTest s index then
    .ok (some (.doubleFree page), s)
  else if maxFrames ≤ s.stackTop then
    .ok (some .stackOverflow, s)
  else do
    let s := { s with
      freeStack := Function.update s.freeStack s.stackTop page
      stackTop := s.stackTop + 1 }
    let s ← bitmapSet s index
    .ok (none, { s with freePageCount := s.freePageCount + 1 })

def pmmGetFreePageCount (s : State) : Nat := s.freePageCount

def pmmIsPageFree (s : State) (page : Nat) : Except PmmStop Bool := bitmapTest s (pageToIndex page)

end CobraOS.Pmm
