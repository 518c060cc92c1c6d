import Mathlib.Tactic

/-!
# Numerals

A numeral is one digit or more, the highest one first, and `digit` says which items are digits and
of which value.  A parser that keeps its value as a machine word reads a numeral to its value cut to
the word (`readDigits_eq_some`).

A number is written with as many digits as it has, or with a fixed number of them (`fixedDigits`).
-/

namespace Base

variable {α : Type*}

/-- The texts of one digit or more, with their values. -/
inductive Numeral (digit : α → Option Nat) (base : Nat) : List α → Nat → Prop
  | one {a : α} {d : Nat} (ha : digit a = some d) : Numeral digit base [a] d
  | more {s : List α} {v : Nat} {a : α} {d : Nat} (hs : Numeral digit base s v)
      (ha : digit a = some d) :
      Numeral digit base (s ++ [a]) (v * base + d)

/-- The loop of a parser, with the value so far. -/
def readDigits (digit : α → Option Nat) (base modulus : Nat) : List α → Nat → Option Nat
  | [], v => some v
  | a :: s, v =>
    match digit a with
    | none => none
    | some d => readDigits digit base modulus s ((v * base + d) % modulus)

/-- The lowest `k` digits of a number. -/
def fixedDigits (write : Nat → α) (base : Nat) : Nat → Nat → List α
  | 0, _ => []
  | k + 1, n => fixedDigits write base k (n / base) ++ [write (n % base)]

variable {digit : α → Option Nat} {base modulus : Nat}

theorem Numeral.ne_nil {s : List α} {v : Nat} (h : Numeral digit base s v) : s ≠ [] := by
  cases h <;> simp

theorem Numeral.isSome {s : List α} {v : Nat} (h : Numeral digit base s v) :
    ∀ a ∈ s, (digit a).isSome := by
  induction h with
  | one ha => simp [ha]
  | more hs ha ih =>
    intro b hb
    rcases List.mem_append.mp hb with hb | hb
    · exact ih b hb
    · rw [List.mem_singleton.mp hb, ha]
      rfl

theorem readDigits_append (s : List α) (a : α) : ∀ v, readDigits digit base modulus (s ++ [a]) v =
    (readDigits digit base modulus s v).bind fun w => (digit a).map fun d =>
      (w * base + d) % modulus := by
  induction s with
  | nil =>
    intro v
    cases h : digit a <;> simp [readDigits, h]
  | cons b s ih =>
    intro v
    cases h : digit b with
    | none => simp [readDigits, h]
    | some d => simpa [readDigits, h] using ih _

/-- **A numeral is read to its value**, cut to the word. -/
theorem Numeral.readDigits_eq {s : List α} {v : Nat} (h : Numeral digit base s v) :
    readDigits digit base modulus s 0 = some (v % modulus) := by
  induction h with
  | one ha => simp [readDigits, ha]
  | more hs ha ih =>
    rw [readDigits_append, ih, Option.bind_some, ha, Option.map_some, Nat.add_mod,
      Nat.mod_mul_mod, ← Nat.add_mod]

theorem numeral_of_readDigits {s : List α} (hs : s ≠ []) : ∀ {r : Nat},
    readDigits digit base modulus s 0 = some r → ∃ v, Numeral digit base s v := by
  induction s using List.reverseRecOn with
  | nil => exact absurd rfl hs
  | append_singleton s a ih =>
    intro r h
    rw [readDigits_append] at h
    obtain ⟨w, hw, h⟩ := Option.bind_eq_some_iff.mp h
    obtain ⟨d, ha, -⟩ := Option.map_eq_some_iff.mp h
    by_cases hnil : s = []
    · subst hnil
      exact ⟨d, .one ha⟩
    · obtain ⟨v, hv⟩ := ih hnil hw
      exact ⟨v * base + d, .more hv ha⟩

/-- **The loop accepts the numerals**, and gives the value cut to the word. -/
theorem readDigits_eq_some {s : List α} (hs : s ≠ []) {r : Nat} :
    readDigits digit base modulus s 0 = some r ↔ ∃ v, Numeral digit base s v ∧ r = v % modulus := by
  constructor
  · intro h
    obtain ⟨v, hv⟩ := numeral_of_readDigits hs h
    exact ⟨v, hv, Option.some.inj (h.symm.trans hv.readDigits_eq)⟩
  · rintro ⟨v, hv, rfl⟩
    exact hv.readDigits_eq

/-- A numeral has one value: a word that is large enough reads it. -/
theorem Numeral.unique {s : List α} {v w : Nat} (hv : Numeral digit base s v)
    (hw : Numeral digit base s w) :
    v = w := by
  have h := Option.some.inj
    ((@Numeral.readDigits_eq _ _ _ (v + w + 1) _ _ hv).symm.trans hw.readDigits_eq)
  rwa [Nat.mod_eq_of_lt (by omega), Nat.mod_eq_of_lt (by omega)] at h

/-! ### Numerals that are written -/

theorem fixedDigits_numeral {write : Nat → α} (hb : 0 < base)
    (hw : ∀ d < base, digit (write d) = some d) :
    ∀ k n, Numeral digit base (fixedDigits write base (k + 1) n) (n % base ^ (k + 1)) := by
  intro k
  induction k with
  | zero =>
    intro n
    rw [Nat.pow_one]
    exact .one (hw _ (Nat.mod_lt n hb))
  | succ k ih =>
    intro n
    have hvalue : n / base % base ^ (k + 1) * base + n % base = n % base ^ (k + 2) := by
      rw [Nat.pow_succ' (n := k + 1), Nat.mod_mul, Nat.mul_comm base, Nat.add_comm (n % base)]
    rw [← hvalue]
    exact .more (ih (n / base)) (hw _ (Nat.mod_lt n hb))

/-- **All digits of a number denote it.** -/
theorem toDigits_numeral {write : Char → α} (hb : 1 < base)
    (hw : ∀ d < base, digit (write (Nat.digitChar d)) = some d) (n : Nat) :
    Numeral digit base ((Nat.toDigits base n).map write) n := by
  induction n using Nat.strongRecOn with
  | ind n ih =>
    rw [Nat.toDigits_eq_if hb]
    by_cases hsmall : n < base
    · rw [if_pos hsmall]
      exact .one (hw n hsmall)
    · have hdiv : n / base < n := Nat.div_lt_self (by omega) hb
      rw [if_neg hsmall, List.map_append]
      have hvalue : n / base * base + n % base = n := Nat.div_add_mod' n base
      have hmore := Numeral.more (ih (n / base) hdiv) (hw (n % base) (Nat.mod_lt n (by omega)))
      rwa [hvalue] at hmore

end Base
