import Mathlib.Tactic
import Mathlib.Data.Nat.Bitwise

/-!
# 32-bit arithmetic on natural numbers

A machine word is a natural number below `2 ^ 32`, and the operations that can overflow are followed
by `% 4294967296`.  `wsub` is the difference of two words and `wint` the signed reading of one.
Masking with the complement of `2 ^ k - 1` rounds down to a multiple of `2 ^ k` (`land_mask`).
-/

namespace Base

/-- `a - b` on 32-bit words. -/
def wsub (a b : Nat) : Nat := (a + (4294967296 - b % 4294967296)) % 4294967296

/-- The `int32_t` a word stands for. -/
def wint (a : Nat) : Int :=
  if a % 4294967296 < 2147483648 then (a % 4294967296 : Nat)
  else (a % 4294967296 : Nat) - 4294967296

theorem wsub_lt (a b : Nat) : wsub a b < 4294967296 := Nat.mod_lt _ (by decide)

theorem wsub_of_le {a b : Nat} (h : b ≤ a) (ha : a < 4294967296) : wsub a b = a - b := by
  unfold wsub
  omega

/-- `x &= ~(2 ^ k - 1)`. -/
theorem land_mask {x k : Nat} (hx : x < 4294967296) (hk : k ≤ 32) :
    x &&& (4294967295 - (2 ^ k - 1)) = x / 2 ^ k * 2 ^ k := by
  have hmask : 4294967295 - (2 ^ k - 1) = (2 ^ (32 - k) - 1) <<< k := by
    have h1 : 2 ^ (32 - k) * 2 ^ k = 4294967296 := by
      rw [← Nat.pow_add, Nat.sub_add_cancel hk]
    have h2 := Nat.two_pow_pos k
    rw [Nat.shiftLeft_eq, Nat.sub_mul, Nat.one_mul, h1]
    omega
  rw [hmask, ← Nat.shiftRight_eq_div_pow, ← Nat.shiftLeft_eq]
  apply Nat.eq_of_testBit_eq
  intro i
  simp only [Nat.testBit_and, Nat.testBit_shiftLeft, Nat.testBit_shiftRight,
    Nat.testBit_two_pow_sub_one]
  by_cases hi : k ≤ i
  · rw [Nat.add_sub_cancel' hi]
    by_cases hb : i < 32
    · simp [hi, show i - k < 32 - k by omega]
    · have hpow : 2 ^ 32 ≤ 2 ^ i := Nat.pow_le_pow_right (by decide) (by omega)
      have : x.testBit i = false := Nat.testBit_lt_two_pow (lt_of_lt_of_le hx hpow)
      simp [this]
  · simp [hi]

end Base
