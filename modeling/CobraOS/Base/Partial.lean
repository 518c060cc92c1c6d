import Mathlib.Tactic

/-!
# Functions that may have no result

A function of a program that follows pointers has no result where it would read what is not there.
`Returns r Q` says that there is a result and that it meets `Q`; the rules follow the program, one
for each way to put it together.
-/

namespace Base

variable {α β : Type}

theorem bind_ok {ε : Type} {x : Except ε α} {f : α → Except ε β} {b : β} (h : x >>= f = .ok b) :
    ∃ a, x = .ok a ∧ f a = .ok b := by
  cases x with
  | error e => cases h
  | ok a => exact ⟨a, rfl, h⟩

theorem map_ok {ε : Type} {x : Except ε α} {f : α → β} {b : β} (h : x.map f = .ok b) :
    ∃ a, x = .ok a ∧ f a = b := by
  cases x with
  | error e => cases h
  | ok a => exact ⟨a, rfl, Except.ok.inj h⟩

/-- There is a result, and it meets `Q`. -/
def Returns (r : Option α) (Q : α → Prop) : Prop := ∃ x, r = some x ∧ Q x

namespace Returns

variable {r : Option α} {Q R : α → Prop} {f : α → Option β} {P : β → Prop}

theorem some {x : α} (h : Q x) : Returns (some x) Q := ⟨x, rfl, h⟩

theorem mono (h : Returns r Q) (hq : ∀ x, Q x → R x) : Returns r R := by
  obtain ⟨x, hr, hx⟩ := h
  exact ⟨x, hr, hq x hx⟩

/-- **One computation after the other.** -/
theorem bind (h : Returns r Q) (hf : ∀ x, Q x → Returns (f x) P) : Returns (r >>= f) P := by
  obtain ⟨x, rfl, hx⟩ := h
  exact hf x hx

theorem ite {c : Prop} [Decidable c] {r' : Option α} (ht : c → Returns r Q)
    (he : ¬ c → Returns r' Q) :
    Returns (if c then r else r') Q := by
  by_cases hc : c
  · rw [if_pos hc]
    exact ht hc
  · rw [if_neg hc]
    exact he hc

theorem isSome (h : Returns r Q) : r.isSome = true := by
  obtain ⟨x, rfl, -⟩ := h
  rfl

theorem of_eq (h : Returns r Q) {x : α} (hr : r = Option.some x) : Q x := by
  obtain ⟨y, hy, hq⟩ := h
  cases hr.symm.trans hy
  exact hq

end Returns
end Base
