import Mathlib.Tactic

/-!
# Two digits in another base

A number of two digits in base `a` is packed into a word of two digits in base `b` by moving its
digits over; with `10` and `16` this is the packed decimal format.  The way back is the same
function with the bases exchanged (`repack_repack`), and it leaves a number that was not packed
alone only if that has one digit (`repack_eq_self`).
-/

namespace Base

/-- The digits of `v` in base `a`, read in base `b`. -/
def repack (a b v : Nat) : Nat := v / a * b + v % a

variable {a b v : Nat}

theorem repack_repack (ha : 0 < a) (hab : a ≤ b) (v : Nat) : repack b a (repack a b v) = v := by
  have hlow : v % a < b := (Nat.mod_lt v ha).trans_le hab
  have hdiv : (v / a * b + v % a) / b = v / a := by
    rw [Nat.add_comm, Nat.add_mul_div_right _ _ (by omega), Nat.div_eq_of_lt hlow, Nat.zero_add]
  have hmod : (v / a * b + v % a) % b = v % a := by
    rw [Nat.mul_add_mod_self_right, Nat.mod_eq_of_lt hlow]
  unfold repack
  rw [hdiv, hmod, Nat.div_add_mod']

theorem repack_le (hab : a ≤ b) (v : Nat) : repack b a v ≤ v := by
  have hle : v / b * a ≤ v / b * b := Nat.mul_le_mul_left _ hab
  have hv : v / b * b + v % b = v := Nat.div_add_mod' v b
  unfold repack
  omega

/-- **A number that was not packed** is read as it is if it has one digit. -/
theorem repack_eq_self (hab : a < b) : repack b a v = v ↔ v < b := by
  unfold repack
  constructor
  · intro heq
    by_contra hge
    have hpos : 0 < v / b := Nat.div_pos (Nat.not_lt.mp hge) (by omega)
    have hlt : v / b * a < v / b * b := Nat.mul_lt_mul_of_pos_left hab hpos
    have hv : v / b * b + v % b = v := Nat.div_add_mod' v b
    omega
  · intro hlt
    rw [Nat.div_eq_of_lt hlt, Nat.mod_eq_of_lt hlt, Nat.zero_mul, Nat.zero_add]

end Base
