import Mathlib.Tactic

/-!
# Labelled transition systems

A system says where its runs start and what one labelled step may do.  `Reach` is what some run
reaches; `Run` keeps the labels.  An invariant is proved once, by `Reach.induct` or `Run.induct`,
from its start and its step.  `restrict` keeps only the steps that meet a condition.
-/

namespace Base

/-- Where the runs start, and the labelled steps. -/
structure System (σ ε : Type*) where
  init : σ → Prop
  step : σ → ε → σ → Prop

namespace System

variable {σ ε : Type*} {S : System σ ε}

/-- The states runs reach. -/
inductive Reach (S : System σ ε) : σ → Prop
  | init {s : σ} : S.init s → Reach S s
  | step {s s' : σ} {e : ε} : Reach S s → S.step s e s' → Reach S s'

/-- A run from one state to another, with its labels in order. -/
inductive Run (S : System σ ε) : σ → List ε → σ → Prop
  | nil (s : σ) : Run S s [] s
  | cons {s s' s'' : σ} {e : ε} {l : List ε} : S.step s e s' → Run S s' l s'' → Run S s (e :: l) s''

/-- **The invariant rule.** -/
theorem Reach.induct {P : σ → Prop} (h0 : ∀ s, S.init s → P s)
    (hstep : ∀ s e s', P s → S.step s e s' → P s') {s : σ} (h : Reach S s) : P s := by
  induction h with
  | init hi => exact h0 _ hi
  | step _ hs ih => exact hstep _ _ _ ih hs

/-- An invariant of the steps holds at the end of a run when it holds at its start. -/
theorem Run.induct {P : σ → Prop} (hstep : ∀ s e s', P s → S.step s e s' → P s') {s s' : σ}
    {l : List ε} (h : Run S s l s') (hs : P s) : P s' := by
  induction h with
  | nil _ => exact hs
  | cons h _ ih => exact ih (hstep _ _ _ hs h)

theorem Run.induct_of {P : σ → Prop} {C : ε → Prop}
    (hstep : ∀ s e s', C e → P s → S.step s e s' → P s') {s s' : σ} {l : List ε} (h : Run S s l s')
    (hl : ∀ e ∈ l, C e) (hs : P s) : P s' := by
  induction h with
  | nil _ => exact hs
  | cons h _ ih =>
    obtain ⟨he, hl⟩ := List.forall_mem_cons.mp hl
    exact ih hl (hstep _ _ _ he hs h)

theorem Reach.run {s s' : σ} {l : List ε} (hs : Reach S s) (h : Run S s l s') : Reach S s' :=
  h.induct (P := Reach S) (fun _ _ _ hp ht => hp.step ht) hs

theorem Run.split {s s' : σ} {l l' : List ε} (h : Run S s (l ++ l') s') :
    ∃ s₁, Run S s l s₁ ∧ Run S s₁ l' s' := by
  induction l generalizing s with
  | nil => exact ⟨s, .nil s, h⟩
  | cons e l ih =>
    cases h with
    | cons hstep hrest =>
      obtain ⟨s₁, h₁, h₂⟩ := ih hrest
      exact ⟨s₁, .cons hstep h₁, h₂⟩

/-- The steps that also meet `C`. -/
def restrict (S : System σ ε) (C : σ → ε → Prop) : System σ ε where
  init := S.init
  step s e s' := C s e ∧ S.step s e s'

theorem Reach.of_restrict {C : σ → ε → Prop} {s : σ} (h : Reach (S.restrict C) s) : Reach S s :=
  h.induct (fun _ hi => .init hi) (fun _ _ _ hp ht => hp.step ht.2)

end System
end Base
