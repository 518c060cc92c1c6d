import CobraOS.Pit.Model
import Mathlib.Algebra.Order.Floor.Div

/-!
# How long `sleep` and `sleep_ticks` sleep

`sleep_ticks` looks at the sign of what is left.  So it waits for all its ticks when there are at
most 2 ^ 31 of them, and for more it returns at once.  `sleep` never asks for so many, but the
product of the milliseconds and the frequency is cut to a word: it waits long enough exactly when
the product fits (`sleeps_long_enough_iff`).
-/

namespace CobraOS.Pit

variable {s : State} {n : Word} {elapsed r : Nat} {passes : List Nat}

theorem sleepTicks_of_ne (hn : n ≠ 0) : sleepTicks s n passes =
    waitLoop (s.tickCount + n) s.tickCount 0 passes := if_neg hn

theorem sleep_of_ne {ms : Word} (hms : ms ≠ 0) : sleep s ms passes =
    sleepTicks s ((ms * s.pitHz + 999) / 1000) passes := if_neg hms

theorem left_neg_iff (start n : Word) (elapsed : Nat) :
    (start + BitVec.ofNat 32 elapsed - (start + n)).toInt < 0 ↔
      2147483648 ≤ (elapsed + (4294967296 - n.toNat)) % 4294967296 := by
  have hsub : start + BitVec.ofNat 32 elapsed - (start + n) = BitVec.ofNat 32 elapsed - n := by
    bv_omega
  rw [hsub, BitVec.toInt_neg_iff, BitVec.toNat_sub, BitVec.toNat_ofNat]
  omega

/-- As long as fewer ticks have passed than are to pass, the loop goes on. -/
theorem waitLoop_le (hn : n.toNat ≤ 2147483648) (start : Word) : ∀ {passes : List Nat}
    {elapsed : Nat},
    waitLoop (start + n) start elapsed passes = some r → n.toNat ≤ r := by
  intro passes
  induction passes with
  | nil => exact fun h => nomatch h
  | cons pass passes ih =>
    intro elapsed h
    rw [waitLoop] at h
    simp only [left_neg_iff] at h
    split_ifs at h with hneg
    · exact ih h
    · cases h
      omega

theorem sleepTicks_le (s : State) (hn : n.toNat ≤ 2147483648) (h : sleepTicks s n passes = some r) :
    n.toNat ≤ r := by
  unfold sleepTicks at h
  split_ifs at h with hzero
  · cases h
    rw [hzero]
    exact Nat.le_refl 0
  · exact waitLoop_le hn _ h

theorem sleepTicks_at_once (s : State) (hn : 2147483648 < n.toNat) :
    sleepTicks s n [0] = some 0 := by
  have hzero : n ≠ 0 := by
    rintro rfl
    exact absurd hn (by decide)
  have hleft : ¬(s.tickCount + BitVec.ofNat 32 (0 + 0) - (s.tickCount + n)).toInt < 0 := by
    rw [left_neg_iff]
    omega
  rw [sleepTicks_of_ne hzero]
  exact if_neg hleft

theorem waitLoop_replicate (hn : n.toNat ≤ 2147483648) (start : Word) : ∀ (k elapsed : Nat),
    elapsed + (k + 1) = n.toNat →
      waitLoop (start + n) start elapsed (List.replicate (k + 1) 1) = some n.toNat := by
  intro k
  induction k with
  | zero =>
    intro elapsed hsum
    have hleft : ¬(start + BitVec.ofNat 32 (elapsed + 1) - (start + n)).toInt < 0 := by
      rw [left_neg_iff]
      omega
    rw [List.replicate_succ, waitLoop, if_neg hleft, hsum]
  | succ k ih =>
    intro elapsed hsum
    have hleft : (start + BitVec.ofNat 32 (elapsed + 1) - (start + n)).toInt < 0 := by
      rw [left_neg_iff]
      omega
    rw [List.replicate_succ, waitLoop, if_pos hleft]
    exact ih (elapsed + 1) (by omega)

/-- Up to 2 ^ 31 ticks, `sleep_ticks` can return after just as many as it was asked for. -/
theorem sleepTicks_replicate (s : State) (hn : n.toNat ≤ 2147483648) :
    sleepTicks s n (List.replicate n.toNat 1) = some n.toNat := by
  by_cases hzero : n = 0
  · subst hzero
    rfl
  · obtain ⟨k, hk⟩ := Nat.exists_eq_add_one_of_ne_zero (fun he => hzero (BitVec.eq_of_toNat_eq he))
    have hloop := waitLoop_replicate hn s.tickCount k 0 (by omega)
    rwa [← hk, ← sleepTicks_of_ne hzero] at hloop

theorem ticks_toNat (ms hz : Word) :
    ((ms * hz + 999) / 1000).toNat = (ms.toNat * hz.toNat + 999) % 4294967296 / 1000 := by
  rw [BitVec.toNat_udiv, BitVec.toNat_add, BitVec.toNat_mul]
  exact congrArg (· / 1000) (Nat.mod_add_mod _ _ _)

/-- `sleep` never asks for more ticks than `sleep_ticks` can wait for. -/
theorem ticks_le (ms hz : Word) : ((ms * hz + 999) / 1000).toNat ≤ 2147483648 := by
  rw [ticks_toNat]
  omega

theorem sleep_replicate (s : State) {ms : Word} (hms : ms ≠ 0) : ∃ passes,
    sleep s ms passes = some ((ms.toNat * s.pitHz.toNat + 999) % 4294967296 / 1000) := by
  have hticks := sleepTicks_replicate s (ticks_le ms s.pitHz)
  rw [← sleep_of_ne hms, ticks_toNat] at hticks
  exact ⟨_, hticks⟩

/-- **`sleep_ticks` waits for all its ticks** exactly when there are at most 2 ^ 31 of them. -/
theorem sleepTicks_iff (s : State) (n : Word) :
    (∀ passes r, sleepTicks s n passes = some r → n.toNat ≤ r) ↔ n.toNat ≤ 2147483648 := by
  constructor
  · intro h
    by_contra hn
    have := h _ _ (sleepTicks_at_once s (Nat.lt_of_not_le hn))
    omega
  · exact fun hn passes r h => sleepTicks_le s hn h

/-- **`sleep` waits long enough** exactly when the product of the milliseconds and the frequency,
rounded up, fits a word. -/
theorem sleep_iff (s : State) (ms : Word) :
    (∀ passes r, sleep s ms passes = some r → ms.toNat * s.pitHz.toNat ⌈/⌉ 1000 ≤ r) ↔
      ms.toNat * s.pitHz.toNat + 999 < 4294967296 := by
  have hceil : ms.toNat * s.pitHz.toNat ⌈/⌉ 1000 = (ms.toNat * s.pitHz.toNat + 999) / 1000 :=
    Nat.ceilDiv_eq_add_pred_div _ _
  rw [hceil]
  by_cases hms : ms = 0
  · subst hms
    refine iff_of_true (fun passes r h => ?_) ?_
    · rw [show (0 : Word).toNat = 0 from rfl, Nat.zero_mul]
      exact Nat.zero_le r
    · rw [show (0 : Word).toNat = 0 from rfl, Nat.zero_mul]
      decide
  · constructor
    · intro h
      obtain ⟨passes, hpasses⟩ := sleep_replicate s hms
      have hle := h passes _ hpasses
      by_contra hlarge
      -- The ticks that the word loses are more than a rounding can make up for.
      have hmod := Nat.mod_add_div (ms.toNat * s.pitHz.toNat + 999) 4294967296
      have hdiv : 1 ≤ (ms.toNat * s.pitHz.toNat + 999) / 4294967296 :=
        (Nat.one_le_div_iff (by decide)).mpr (Nat.le_of_not_lt hlarge)
      omega
    · intro hfits passes r h
      rw [sleep_of_ne hms] at h
      have hle := sleepTicks_le s (ticks_le ms s.pitHz) h
      rwa [ticks_toNat, Nat.mod_eq_of_lt hfits] at hle

/-- **Neither returns early**: exactly for the numbers of ticks up to 2 ^ 31, and for the times
whose product with the frequency, rounded up, fits a word. -/
theorem sleeps_long_enough_iff (s : State) (n ms : Word) :
    ((∀ passes r, sleepTicks s n passes = some r → n.toNat ≤ r) ↔ n.toNat ≤ 2147483648) ∧
      ((∀ passes r, sleep s ms passes = some r → ms.toNat * s.pitHz.toNat ⌈/⌉ 1000 ≤ r) ↔
        ms.toNat * s.pitHz.toNat + 999 < 4294967296) :=
  ⟨sleepTicks_iff s n, sleep_iff s ms⟩

/-- At 100 ticks a second `sleep(42949673)` is over after one tick of 4294968, and
`sleep_ticks(2147483649)` after none. -/
theorem sleeps_too_short : ∃ s written, pitInit booted 100 = some (s, written) ∧
    (¬∀ passes r, sleep s 42949673 passes = some r → (42949673 * 100) ⌈/⌉ 1000 ≤ r) ∧
    ¬∀ passes r, sleepTicks s 2147483649 passes = some r → 2147483649 ≤ r :=
  ⟨_, _, rfl, fun h => absurd (h [1] 1 (by decide)) (by decide),
    fun h => absurd (h [0] 0 (by decide)) (by decide)⟩

end CobraOS.Pit
