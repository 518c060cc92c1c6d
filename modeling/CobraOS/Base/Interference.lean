import CobraOS.Base.System

/-!
# Programs among events

A program does atomic actions, and each gives an answer the rest of the program depends on.  Between
its actions, before the first and after the last, the state may take any steps of a system.

`Meets I p Q s` says that from `s` the program keeps `I` at every time, whatever happens between its
actions, and ends with `Q`.  There is one rule for an action, in which an assertion that the events
keep carries the program to the action (`Meets.act`), and one for programs after each other
(`Meets.bind`).
-/

namespace Base

/-- A program on states `σ` whose actions answer with a `ρ`. -/
inductive Prog (σ ρ α : Type)
  | done (a : α)
  | act (f : σ → ρ × σ) (k : ρ → Prog σ ρ α)

namespace Prog

variable {σ ρ α β ε : Type}

def bind : Prog σ ρ α → (α → Prog σ ρ β) → Prog σ ρ β
  | done a, g => g a
  | act f k, g => act f fun r => bind (k r) g

instance : Monad (Prog σ ρ) where
  pure := done
  bind := bind

/-- The program with the state as it is between its actions. -/
def among (S : System σ ε) (p : Prog σ ρ α) : System (σ × Prog σ ρ α) (Option ε) where
  init x := S.init x.1 ∧ x.2 = p
  step x e x' :=
    match e with
    | some e => S.step x.1 e x'.1 ∧ x'.2 = x.2
    | none => ∃ f k, x.2 = act f k ∧ x' = ((f x.1).2, k (f x.1).1)

/-- One event. -/
def Event (S : System σ ε) (s s' : σ) : Prop := ∃ e, S.step s e s'

/-- Whatever happens, `I` holds at every time, and `Q` from the end on. -/
def Meets (S : System σ ε) (I : σ → Prop) : Prog σ ρ α → (α → σ → Prop) → σ → Prop
  | done a, Q, s => ∀ s', Relation.ReflTransGen (Event S) s s' → I s' ∧ Q a s'
  | act f k, Q, s =>
    ∀ s', Relation.ReflTransGen (Event S) s s' → I s' ∧ Meets S I (k (f s').1) Q (f s').2

/-- No event ends the assertion. -/
def Stable (S : System σ ε) (A : σ → Prop) : Prop := ∀ s e s', A s → S.step s e s' → A s'

variable {S : System σ ε} {I A : σ → Prop} {s s' : σ} {Q : α → σ → Prop}

theorem Stable.star (hA : Stable S A) (hs : A s)
    (h : Relation.ReflTransGen (Event S) s s') : A s' := by
  induction h with
  | refl => exact hs
  | tail _ hstep ih =>
    obtain ⟨e, he⟩ := hstep
    exact hA _ e _ ih he

/-- **The rule for the end.** -/
theorem Meets.done (hA : Stable S A) (hI : ∀ s, A s → I s) {a : α} (hQ : ∀ s, A s → Q a s)
    (hs : A s) :
    Meets S I (Prog.done (ρ := ρ) a) Q s := fun s' h => ⟨hI s' (hA.star hs h), hQ s' (hA.star hs h)⟩

/-- **The rule for an action.** -/
theorem Meets.act (hA : Stable S A) (hI : ∀ s, A s → I s) {f : σ → ρ × σ} {k : ρ → Prog σ ρ α}
    (hnext : ∀ s, A s → Meets S I (k (f s).1) Q (f s).2) (hs : A s) :
    Meets S I (Prog.act f k) Q s :=
  fun s' h => ⟨hI s' (hA.star hs h), hnext s' (hA.star hs h)⟩

/-- **The rule for programs after each other.** -/
theorem Meets.bind {p : Prog σ ρ β} {g : β → Prog σ ρ α} {R : β → σ → Prop} (hp : Meets S I p R s)
    (hg : ∀ b s, R b s → Meets S I (g b) Q s) : Meets S I (Prog.bind p g) Q s := by
  induction p generalizing s with
  | done b => exact hg b s (hp s .refl).2
  | act f k ih => exact fun s' h => ⟨(hp s' h).1, ih _ (hp s' h).2⟩

theorem Meets.mono {p : Prog σ ρ α} {R : α → σ → Prop} (hp : Meets S I p R s)
    (h : ∀ a s, R a s → Q a s) :
    Meets S I p Q s := by
  induction p generalizing s with
  | done a => exact fun s' hs => ⟨(hp s' hs).1, h a s' (hp s' hs).2⟩
  | act f k ih => exact fun s' hs => ⟨(hp s' hs).1, ih _ (hp s' hs).2⟩

theorem Meets.event {p : Prog σ ρ α} (hp : Meets S I p Q s) (h : Event S s s') :
    Meets S I p Q s' := by
  cases p with
  | done a => exact fun s'' hs => hp s'' (.head h hs)
  | act f k => exact fun s'' hs => hp s'' (.head h hs)

/-! ### Programs that the events do not touch -/

/-- The program without events. -/
def alone : Prog σ ρ α → σ → α × σ
  | .done a, s => (a, s)
  | .act f k, s => alone (k (f s).1) (f s).2

theorem alone_run (S : System σ ε) (p₀ p : Prog σ ρ α) (s : σ) :
    ∃ l, (among S p₀).Run (s, p) l ((p.alone s).2, .done (p.alone s).1) := by
  induction p generalizing s with
  | done a => exact ⟨[], .nil _⟩
  | act f k ih =>
    obtain ⟨l, hl⟩ := ih (f s).1 (f s).2
    exact ⟨none :: l, .cons ⟨f, k, rfl, rfl⟩ hl⟩

variable {τ : Type} {view : σ → τ} {C : τ → Prop}

/-- The program depends on nothing but the view of the state, and it keeps `C` there. -/
def Sees (view : σ → τ) (C : τ → Prop) : Prog σ ρ α → Prop
  | .done _ => True
  | .act f k => (∀ s s', view s = view s' → C (view s) →
      (f s).1 = (f s').1 ∧ view (f s).2 = view (f s').2 ∧ C (view (f s).2)) ∧ ∀ r, Sees view C (k r)

theorem Sees.bind {p : Prog σ ρ β} {g : β → Prog σ ρ α} (hp : Sees view C p)
    (hg : ∀ b, Sees view C (g b)) :
    Sees view C (Prog.bind p g) := by
  induction p with
  | done b => exact hg b
  | act f k ih => exact ⟨hp.1, fun r => ih r (hp.2 r)⟩

theorem Sees.alone {p : Prog σ ρ α} (hp : Sees view C p) (hs : C (view s))
    (hview : view s = view s') :
    (p.alone s).1 = (p.alone s').1 ∧ view (p.alone s).2 = view (p.alone s').2 := by
  induction p generalizing s s' with
  | done a => exact ⟨rfl, hview⟩
  | act f k ih =>
    obtain ⟨hanswer, hnext, hC⟩ := hp.1 s s' hview hs
    obtain ⟨h₁, h₂⟩ := ih (f s).1 (hp.2 _) hC hnext
    rw [hanswer] at h₁ h₂
    exact ⟨by rw [Prog.alone, hanswer, h₁, Prog.alone], by rw [Prog.alone, hanswer, h₂, Prog.alone]⟩

/-- **The rule for a program that is alone**: when no event changes the view, it does what it does
without events. -/
theorem Meets.alone (hS : ∀ s e s', C (view s) → S.step s e s' → view s' = view s)
    (hI : ∀ s, C (view s) → I s) {p : Prog σ ρ α} (hp : Sees view C p) (hs : C (view s))
    (hQ : ∀ s', view s' = view (p.alone s).2 → Q (p.alone s).1 s') : Meets S I p Q s := by
  have hstar : ∀ {s s'}, C (view s) → Relation.ReflTransGen (Event S) s s' → view s' = view s := by
    intro s s' hs h
    induction h with
    | refl => rfl
    | tail _ hstep ih =>
      obtain ⟨e, he⟩ := hstep
      exact (hS _ e _ (ih ▸ hs) he).trans ih
  induction p generalizing s with
  | done a =>
    intro s' h
    have hview := hstar hs h
    exact ⟨hI s' (hview ▸ hs), hQ s' hview⟩
  | act f k ih =>
    intro s' h
    have hview := hstar hs h
    have hs' : C (view s') := hview ▸ hs
    obtain ⟨hanswer, hnext, hC⟩ := hp.1 s' s hview hs'
    refine ⟨hI s' hs', ih _ (hp.2 _) hC fun s'' hs'' => ?_⟩
    obtain ⟨h₁, h₂⟩ := Sees.alone (hp.2 (f s').1) hC hnext
    rw [h₁, hanswer]
    refine hQ s'' ?_
    rw [hs'', h₂, hanswer]
    rfl

/-! ### Soundness -/

/-- **Soundness**: what a run of the program among events comes to. -/
theorem Meets.run {p p₀ : Prog σ ρ α} (h : Meets S I p Q s) {l : List (Option ε)}
    {x : σ × Prog σ ρ α} (hrun : (among S p₀).Run (s, p) l x) : I x.1 ∧ ∀ a, x.2 = .done a →
      Q a x.1 := by
  have hmeets : Meets S I x.2 Q x.1 := by
    refine hrun.induct (P := fun x => Meets S I x.2 Q x.1) ?_ h
    rintro ⟨s, q⟩ e ⟨s', q'⟩ hx hstep
    cases e with
    | some e =>
      obtain ⟨he, rfl⟩ := hstep
      exact hx.event ⟨e, he⟩
    | none =>
      obtain ⟨f, k, rfl, he⟩ := hstep
      cases he
      exact (hx s .refl).2
  obtain ⟨s, q⟩ := x
  refine ⟨?_, ?_⟩
  · cases q with
    | done a => exact (hmeets s .refl).1
    | act f k => exact (hmeets s .refl).1
  · rintro a rfl
    exact (hmeets s .refl).2

end Prog

end Base
