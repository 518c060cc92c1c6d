import Mathlib.Tactic

/-!
# A value and flags in one word

A word whose low bits are zero has room for flags there.  `mask` is the word with just the low bits,
so `a &&& mask = 0` says that `a` has the room.  Both parts can be read back (`packed_high`,
`packed_low`).
-/

namespace Base

variable {w : Nat} {a f mask : BitVec w}

theorem and_and_not (f mask : BitVec w) : f &&& mask &&& ~~~mask = 0 := by
  ext i hi
  simp

theorem getElem_of_and_eq_zero {b : BitVec w} (h : a &&& b = 0) {i : Nat} (hi : i < w) :
    (a[i] && b[i]) = false := by
  rw [← BitVec.getElem_and, h]
  exact BitVec.getElem_zero hi

theorem packed_high (ha : a &&& mask = 0) (hf : f &&& ~~~mask = 0) : (a ||| f) &&& ~~~mask = a := by
  ext i hi
  have hai := getElem_of_and_eq_zero ha hi
  have hfi := getElem_of_and_eq_zero hf hi
  rw [BitVec.getElem_not] at hfi
  rw [BitVec.getElem_and, BitVec.getElem_or, BitVec.getElem_not]
  revert hai hfi
  cases a[i] <;> cases f[i] <;> cases mask[i] <;> simp

theorem packed_low (ha : a &&& mask = 0) (hf : f &&& ~~~mask = 0) : (a ||| f) &&& mask = f := by
  ext i hi
  have hai := getElem_of_and_eq_zero ha hi
  have hfi := getElem_of_and_eq_zero hf hi
  rw [BitVec.getElem_not] at hfi
  rw [BitVec.getElem_and, BitVec.getElem_or]
  revert hai hfi
  cases a[i] <;> cases f[i] <;> cases mask[i] <;> simp

end Base
