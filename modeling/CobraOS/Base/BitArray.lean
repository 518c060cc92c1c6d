import Mathlib.Tactic

/-!
# Bits in an array of words

Bit `i` of an array of words of `w` bits is bit `i % w` of word `i / w`.  Setting or clearing a bit
with a shifted mask changes that bit only (`bitAt_setBitAt`, `bitAt_clearBitAt`), although it
rewrites a word.
-/

namespace Base

variable {w : Nat}

/-- `words[i / w] & (1 << i % w)` is not zero. -/
def bitAt (a : Nat → BitVec w) (i : Nat) : Bool := (a (i / w) &&& (1#w <<< (i % w))) != 0#w

/-- `words[i / w] |= 1 << i % w` -/
def setBitAt (a : Nat → BitVec w) (i : Nat) : Nat → BitVec w :=
  Function.update a (i / w) (a (i / w) ||| (1#w <<< (i % w)))

/-- `words[i / w] &= ~(1 << i % w)` -/
def clearBitAt (a : Nat → BitVec w) (i : Nat) : Nat → BitVec w :=
  Function.update a (i / w) (a (i / w) &&& ~~~(1#w <<< (i % w)))

theorem mask_getLsbD {k j : Nat} (hk : k < w) : (1#w <<< k).getLsbD j = decide (j = k) := by
  rw [BitVec.getLsbD_shiftLeft, BitVec.getLsbD_one]
  rw [Bool.eq_iff_iff]
  simp only [Bool.and_eq_true, Bool.not_eq_true', decide_eq_true_eq, decide_eq_false_iff_not]
  omega

theorem bitAt_eq (hw : 0 < w) (a : Nat → BitVec w) (i : Nat) :
    bitAt a i = (a (i / w)).getLsbD (i % w) := by
  have hk : i % w < w := Nat.mod_lt _ hw
  unfold bitAt
  cases hb : (a (i / w)).getLsbD (i % w) with
  | true =>
    rw [bne_iff_ne]
    intro h0
    have := congrArg (fun v => v.getLsbD (i % w)) h0
    simp only [BitVec.getLsbD_and, mask_getLsbD hk, hb, BitVec.getLsbD_zero] at this
    simp at this
  | false =>
    rw [bne_eq_false_iff_eq]
    apply BitVec.eq_of_getLsbD_eq
    intro j hj
    rw [BitVec.getLsbD_and, mask_getLsbD hk, BitVec.getLsbD_zero]
    by_cases hjk : j = i % w
    · rw [hjk, hb, Bool.false_and]
    · rw [decide_eq_false hjk, Bool.and_false]

theorem bit_index {i j : Nat} (h : j / w = i / w) : j % w = i % w ↔ j = i := by
  constructor
  · intro hm
    rw [← Nat.div_add_mod j w, ← Nat.div_add_mod i w, h, hm]
  · rintro rfl
    rfl

theorem bitAt_setBitAt (hw : 0 < w) (a : Nat → BitVec w) (i j : Nat) :
    bitAt (setBitAt a i) j = (bitAt a j || decide (j = i)) := by
  have hk : i % w < w := Nat.mod_lt _ hw
  rw [bitAt_eq hw, bitAt_eq hw]
  unfold setBitAt
  by_cases hword : j / w = i / w
  · rw [hword, Function.update_self, BitVec.getLsbD_or, mask_getLsbD hk]
    simp only [bit_index hword]
  · rw [Function.update_of_ne hword, decide_eq_false (by rintro rfl; exact hword rfl),
      Bool.or_false]

theorem bitAt_clearBitAt (hw : 0 < w) (a : Nat → BitVec w) (i j : Nat) :
    bitAt (clearBitAt a i) j = (bitAt a j && decide (j ≠ i)) := by
  have hk : i % w < w := Nat.mod_lt _ hw
  have hj : j % w < w := Nat.mod_lt _ hw
  rw [bitAt_eq hw, bitAt_eq hw]
  unfold clearBitAt
  by_cases hword : j / w = i / w
  · rw [hword, Function.update_self, BitVec.getLsbD_and, BitVec.getLsbD_not, mask_getLsbD hk,
      decide_eq_true hj, Bool.true_and, ← decide_not]
    simp only [ne_eq, bit_index hword]
  · rw [Function.update_of_ne hword, decide_eq_true (by rintro rfl; exact hword rfl), Bool.and_true]

end Base
