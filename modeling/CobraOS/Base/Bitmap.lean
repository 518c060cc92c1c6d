import CobraOS.Base.BitArray
import Mathlib.Data.Finset.Card

/-!
# Sets of numbers in an array of 32-bit words

Bit `i` of the set is bit `i % 32` of word `i / 32`.  Setting or clearing a bit with a shifted mask
changes membership of that number only (`hasBit_setBit`, `hasBit_clearBit`), although it rewrites a
word that holds 31 others.
-/

namespace Base

abbrev Bitmap := Nat → BitVec 32

/-- `words[i / 32] & (1 << i % 32)` is not zero. -/
def hasBit (w : Bitmap) (i : Nat) : Bool := (w (i / 32) &&& (1#32 <<< (i % 32))) != 0#32

/-- `words[i / 32] |= 1 << i % 32` -/
def setBit (w : Bitmap) (i : Nat) : Bitmap :=
  Function.update w (i / 32) (w (i / 32) ||| (1#32 <<< (i % 32)))

/-- `words[i / 32] &= ~(1 << i % 32)` -/
def clearBit (w : Bitmap) (i : Nat) : Bitmap :=
  Function.update w (i / 32) (w (i / 32) &&& ~~~(1#32 <<< (i % 32)))

theorem hasBit_eq (w : Bitmap) (i : Nat) : hasBit w i = (w (i / 32)).getLsbD (i % 32) :=
  bitAt_eq (by decide) w i

theorem hasBit_setBit (w : Bitmap) (i j : Nat) :
    hasBit (setBit w i) j = (hasBit w j || decide (j = i)) := bitAt_setBitAt (by decide) w i j

theorem hasBit_clearBit (w : Bitmap) (i j : Nat) :
    hasBit (clearBit w i) j = (hasBit w j && decide (j ≠ i)) := bitAt_clearBitAt (by decide) w i j

/-- The numbers below `n` in the set. -/
def members (w : Bitmap) (n : Nat) : Finset Nat := (Finset.range n).filter (fun i => hasBit w i)

theorem mem_members {w : Bitmap} {n i : Nat} : i ∈ members w n ↔ i < n ∧ hasBit w i = true := by
  simp [members]

end Base
