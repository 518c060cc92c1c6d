import CobraOS.Base.System

/-!
# Sections of shared work on interruptible processors

Every processor runs one activity and can be interrupted by another one, which runs to its end
before the first goes on.  An activity works on the shared state in sections, step by step, and
between its sections it does what it likes.

`Sections.atomic` is the machine on which a section is one step.  What an implementation with a lock
has to show is that its runs are runs of that machine, which `Run.simulate` reduces to one step.
-/

namespace Base

/-! ### Simulation -/

namespace System

variable {σ τ ε η : Type*}

/-- **Forward simulation**: a step that shows a label is matched by a step with that label, one that
shows none is matched by no step. -/
theorem Run.simulate {S : System σ ε} {T : System τ η} (shown : ε → Option η) (R : σ → τ → Prop)
    (hstep : ∀ s e s' t, R s t → S.step s e s' →
      ∃ t', Run T t (shown e).toList t' ∧ R s' t')
    {s s' : σ} {l : List ε} (h : Run S s l s') {t : τ} (ht : R s t) :
    ∃ t', Run T t (l.filterMap shown) t' ∧ R s' t' := by
  induction h generalizing t with
  | nil _ => exact ⟨t, .nil t, ht⟩
  | @cons s s₁ s' e l h _ ih =>
    obtain ⟨t₁, hrun, h₁⟩ := hstep _ _ _ _ ht h
    obtain ⟨t', hrest, h'⟩ := ih h₁
    refine ⟨t', ?_, h'⟩
    cases he : shown e with
    | none =>
      rw [he] at hrun
      cases hrun
      rwa [List.filterMap_cons_none he]
    | some e' =>
      rw [he] at hrun
      cases hrun with
      | cons hs hn =>
        cases hn
        rw [List.filterMap_cons_some he]
        exact .cons hs hrest

theorem Run.single {T : System τ η} {t t' : τ} {e : η} (h : T.step t e t') :
    Run T t (some e).toList t' := .cons h (.nil t')

theorem Run.append {S : System σ ε} {s s' s'' : σ} {l l' : List ε} (h : Run S s l s')
    (h' : Run S s' l' s'') : Run S s (l ++ l') s'' := by
  induction h with
  | nil _ => exact h'
  | cons hs _ ih => exact .cons hs (ih h')

end System

/-! ### The machine -/

/-- What an activity does, by the place it has reached. -/
structure Sections (ℓ σ : Type*) where
  /-- A section begins here. -/
  enters : ℓ → Prop
  /-- One step of a section; `none` where the section ends. -/
  act : ℓ → σ → Option (ℓ × σ)
  /-- Where the activity goes on after a section that ended at this place. -/
  leave : ℓ → ℓ
  /-- One step outside the sections, with the shared state and the interrupt flag before and
  after. -/
  free : ℓ → σ → Bool → ℓ → σ → Bool → Prop
  /-- An interrupting activity begins here. -/
  handler : ℓ → Prop
  /-- An interrupting activity ends here. -/
  finished : ℓ → Prop

/-- A processor with the activity that it runs and those that were interrupted, the latest first. -/
structure Processor (α : Type*) where
  accepts : Bool
  running : α
  interrupted : List α

/-- The activities of a processor, the running one first. -/
def Processor.activities {α : Type*} (p : Processor α) : List α := p.running :: p.interrupted

structure Processors (ι α σ : Type*) where
  cpu : ι → Processor α
  shared : σ

namespace Sections

variable {ι ℓ σ : Type*} (C : Sections ℓ σ)

/-- Some steps of a section. -/
def Acts : ℓ × σ → ℓ × σ → Prop := Relation.ReflTransGen (fun p q => C.act p.1 p.2 = some q)

/-- A section from its first step to its last. -/
def Whole (l : ℓ) (s : σ) (l' : ℓ) (s' : σ) : Prop := C.Acts (l, s) (l', s') ∧ C.act l' s' = none

/-- Outside its sections the code neither reads nor writes the shared state. -/
def Private : Prop :=
  ∀ l s b l' s' b', C.free l s b l' s' b' → s' = s ∧ ∀ t, C.free l t b l' t b'

/-- What happens on a processor. -/
inductive Label (ι ℓ : Type*)
  | free (c : ι) (l l' : ℓ)
  | whole (c : ι) (l l' : ℓ)
  | interrupt (c : ι) (l : ℓ)
  | resume (c : ι)

variable [DecidableEq ι]

/-- The machine with another processor `c` and another shared state. -/
def put {α : Type*} (m : Processors ι α σ) (c : ι) (p : Processor α) (s : σ) : Processors ι α σ :=
  ⟨Function.update m.cpu c p, s⟩

/-- One step of the machine on which a section is one step. -/
def step (m : Processors ι ℓ σ) (e : Label ι ℓ) (m' : Processors ι ℓ σ) : Prop :=
  match e with
  | .free c l l' => (m.cpu c).running = l ∧ ¬ C.enters l ∧
      ∃ s' b, C.free l m.shared (m.cpu c).accepts l' s' b ∧
        m' = put m c ⟨b, l', (m.cpu c).interrupted⟩ s'
  | .whole c l l' => (m.cpu c).running = l ∧ C.enters l ∧
      ∃ s', C.Whole l m.shared l' s' ∧ m' = put m c { m.cpu c with running := C.leave l' } s'
  | .interrupt c l => (m.cpu c).accepts = true ∧ C.handler l ∧
      m' = put m c ⟨false, l, (m.cpu c).activities⟩ m.shared
  | .resume c => C.finished (m.cpu c).running ∧
      ∃ l rest, (m.cpu c).interrupted = l :: rest ∧ m' = put m c ⟨true, l, rest⟩ m.shared

/-- Every run of the code from the given places and shared state. -/
def atomic (start : Processors ι ℓ σ → Prop) : System (Processors ι ℓ σ) (Label ι ℓ) :=
  ⟨start, C.step⟩

end Sections

section

variable {ι α σ : Type*} [DecidableEq ι] (m : Processors ι α σ) (c : ι) (p : Processor α) (s : σ)

@[simp] theorem Sections.put_self : (Sections.put m c p s).cpu c = p := Function.update_self ..

@[simp] theorem Sections.put_shared : (Sections.put m c p s).shared = s := rfl

end

section

variable {ℓ σ : Type*} {C : Sections ℓ σ}

/-- A section that comes to its end comes to it from every place on its way. -/
theorem Sections.Acts.rest {p q r : ℓ × σ} (h : C.Acts p q) (hend : C.act q.1 q.2 = none)
    (hr : C.Acts p r) :
    C.Acts r q := by
  induction hr using Relation.ReflTransGen.head_induction_on with
  | refl => exact h
  | head hps _ ih =>
    refine ih ?_
    rcases Relation.ReflTransGen.cases_head h with rfl | ⟨s, hs, hrest⟩
    · rw [hend] at hps
      cases hps
    · rw [hps] at hs
      cases hs
      exact hrest

theorem Sections.Acts.of_end {p q : ℓ × σ} (h : C.Acts p q) (hend : C.act p.1 p.2 = none) :
    q = p := by
  rcases Relation.ReflTransGen.cases_head h with rfl | ⟨s, hs, -⟩
  · rfl
  · rw [hend] at hs
    cases hs

theorem Sections.Whole.rest {l l₁ l' : ℓ} {s s₁ s' : σ} (h : C.Whole l s l' s')
    (h₁ : C.Acts (l, s) (l₁, s₁)) :
    C.Whole l₁ s₁ l' s' := ⟨h.1.rest h.2 h₁, h.2⟩

theorem Sections.Whole.unique {l l₁ l₂ : ℓ} {s s₁ s₂ : σ} (h₁ : C.Whole l s l₁ s₁)
    (h₂ : C.Whole l s l₂ s₂) :
    l₁ = l₂ ∧ s₁ = s₂ := Prod.ext_iff.mp ((h₂.rest h₁.1).1.of_end h₁.2).symm

end

end Base
