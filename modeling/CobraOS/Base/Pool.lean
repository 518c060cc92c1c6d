import CobraOS.Base.System

/-!
# A pool of items, and what its clients see

Items with the same key are one item: a pool is the set of the keys that are in it.  A client takes
an item, which one is up to the pool, puts items back, and may ask how many there are.  A pool does
not take an item that it already has, nor any when it is full.  One item has a name that clients
take for a refusal, `null`; when it is taken, nobody knows.

What a client sees in a run is a list of events.  From these alone it follows that an item that is
seen twice was put back between (`took_twice`), that one that was put back twice was taken between
(`gave_twice`), what is not in the pool (`held_out`), and how many items there are (`card_run`).
-/

namespace Base.Pool

/-- What a client sees of one operation. -/
inductive Event (α : Type*)
  | took (a : α)
  /-- No item, or the item `null`. -/
  | refused
  | gave (a : α)
  /-- An item that was in the pool already. -/
  | again (a : α)
  /-- An item for which there was no room. -/
  | full (a : α)
  | counted (n : Nat)
  | other
  deriving DecidableEq

section

variable {α κ : Type*} [DecidableEq κ] (key : α → κ) (null : α) (room : Nat)

/-- What an event does to the keys in the pool. -/
def step (f : Finset κ) : Event α → Finset κ → Prop
  | .took a, f' => key a ∈ f ∧ f' = f.erase (key a)
  | .refused, f' => f = ∅ ∧ f' = ∅ ∨ key null ∈ f ∧ f' = f.erase (key null)
  | .gave a, f' => key a ∉ f ∧ f' = insert (key a) f
  | .again a, f' => key a ∈ f ∧ f' = f
  | .full a, f' => key a ∉ f ∧ room ≤ f.card ∧ f' = f
  | .counted n, f' => n = f.card ∧ f' = f
  | .other, f' => f' = f

/-- The pool as a system that may start with any items. -/
def system : System (Finset κ) (Event α) where
  init _ := True
  step := step key null room

end

section

variable {α κ : Type*} [DecidableEq κ] {key : α → κ} {null : α} {room : Nat} {f f' : Finset κ}
    {e : Event α} {l : List (Event α)} {k : κ} {a b : α}

/-- The event takes the item out, as far as a client can tell. -/
def Takes (key : α → κ) (null : α) (k : κ) (e : Event α) : Prop :=
  (∃ a, e = .took a ∧ key a = k) ∨ e = .refused ∧ key null = k

/-- The event puts the item in. -/
def Gives (key : α → κ) (k : κ) (e : Event α) : Prop := ∃ a, e = .gave a ∧ key a = k

theorem out_step (hstep : step key null room f e f') (hk : k ∉ f) (he : ¬Gives key k e) :
    k ∉ f' := by
  cases e with
  | took a =>
    obtain ⟨-, rfl⟩ := hstep
    exact fun hmem => hk (Finset.mem_of_mem_erase hmem)
  | refused =>
    rcases hstep with ⟨-, rfl⟩ | ⟨-, rfl⟩
    · exact Finset.notMem_empty k
    · exact fun hmem => hk (Finset.mem_of_mem_erase hmem)
  | gave a =>
    obtain ⟨-, rfl⟩ := hstep
    intro hmem
    rcases Finset.mem_insert.mp hmem with heq | hmem
    · exact he ⟨a, rfl, heq.symm⟩
    · exact hk hmem
  | again a => exact hstep.2 ▸ hk
  | full a => exact hstep.2.2 ▸ hk
  | counted n => exact hstep.2 ▸ hk
  | other => exact (show f' = f from hstep) ▸ hk

theorem in_step (hstep : step key null room f e f') (hk : k ∈ f) (he : ¬Takes key null k e) :
    k ∈ f' := by
  cases e with
  | took a =>
    obtain ⟨-, rfl⟩ := hstep
    exact Finset.mem_erase.mpr ⟨fun heq => he (.inl ⟨a, rfl, heq.symm⟩), hk⟩
  | refused =>
    rcases hstep with ⟨rfl, -⟩ | ⟨-, rfl⟩
    · exact absurd hk (Finset.notMem_empty k)
    · exact Finset.mem_erase.mpr ⟨fun heq => he (.inr ⟨rfl, heq.symm⟩), hk⟩
  | gave a =>
    obtain ⟨-, rfl⟩ := hstep
    exact Finset.mem_insert_of_mem hk
  | again a => exact hstep.2 ▸ hk
  | full a => exact hstep.2.2 ▸ hk
  | counted n => exact hstep.2 ▸ hk
  | other => exact (show f' = f from hstep) ▸ hk

theorem out_run (h : (system key null room).Run f l f') (hk : k ∉ f)
    (hl : ∀ e ∈ l, ¬Gives key k e) :
    k ∉ f' :=
  h.induct_of (P := fun f => k ∉ f) (fun _ _ _ he hk hstep => out_step hstep hk he) hl hk

theorem in_run (h : (system key null room).Run f l f') (hk : k ∈ f)
    (hl : ∀ e ∈ l, ¬Takes key null k e) :
    k ∈ f' :=
  h.induct_of (P := fun f => k ∈ f) (fun _ _ _ he hk hstep => in_step hstep hk he) hl hk

/-- **What was taken and not put back is out.** -/
theorem held_out (h : (system key null room).Run f (.took a :: l) f')
    (hl : ∀ e ∈ l, ¬Gives key (key a) e) :
    key a ∉ f' := by
  cases h with
  | cons hstep hrun =>
    obtain ⟨-, rfl⟩ : key a ∈ f ∧ _ = f.erase (key a) := hstep
    exact out_run hrun (Finset.notMem_erase _ _) hl

theorem given_in (h : (system key null room).Run f (.gave a :: l) f')
    (hl : ∀ e ∈ l, ¬Takes key null (key a) e) :
    key a ∈ f' := by
  cases h with
  | cons hstep hrun =>
    obtain ⟨-, rfl⟩ : key a ∉ f ∧ _ = insert (key a) f := hstep
    exact in_run hrun (Finset.mem_insert_self _ _) hl

/-- **An item that is seen twice was put back between.** -/
theorem took_twice {l₁ l₂ l₃ : List (Event α)}
    (h : (system key null room).Run f (l₁ ++ .took a :: (l₂ ++ .took b :: l₃)) f')
    (hab : key a = key b) :
    ∃ e ∈ l₂, Gives key (key a) e := by
  obtain ⟨f₁, -, h⟩ := h.split
  have hsplit : Event.took a :: (l₂ ++ .took b :: l₃) = (.took a :: l₂) ++ .took b :: l₃ := rfl
  rw [hsplit] at h
  obtain ⟨f₂, h₂, h₃⟩ := h.split
  by_contra hno
  have hout : key a ∉ f₂ := held_out h₂ fun e he hgives => hno ⟨e, he, hgives⟩
  cases h₃ with
  | cons hstep _ =>
    obtain ⟨hmem, -⟩ : key b ∈ f₂ ∧ _ := hstep
    exact hout (hab ▸ hmem)

/-- **An item that was put back twice was taken between.** -/
theorem gave_twice {l₁ l₂ l₃ : List (Event α)}
    (h : (system key null room).Run f (l₁ ++ .gave a :: (l₂ ++ .gave b :: l₃)) f')
    (hab : key a = key b) :
    ∃ e ∈ l₂, Takes key null (key a) e := by
  obtain ⟨f₁, -, h⟩ := h.split
  have hsplit : Event.gave a :: (l₂ ++ .gave b :: l₃) = (.gave a :: l₂) ++ .gave b :: l₃ := rfl
  rw [hsplit] at h
  obtain ⟨f₂, h₂, h₃⟩ := h.split
  by_contra hno
  have hin : key a ∈ f₂ := given_in h₂ fun e he htakes => hno ⟨e, he, htakes⟩
  cases h₃ with
  | cons hstep _ =>
    obtain ⟨hmem, -⟩ : key b ∉ f₂ ∧ _ := hstep
    exact hmem (hab ▸ hin)

/-! ### How many -/

def Event.isTook : Event α → Bool
  | .took _ => true
  | _ => false

def Event.isGave : Event α → Bool
  | .gave _ => true
  | _ => false

theorem card_step (hstep : step key null room f e f') (hnull : key null ∉ f) :
    f'.card + (if e.isTook then 1 else 0) = f.card + (if e.isGave then 1 else 0) := by
  cases e with
  | took a =>
    obtain ⟨hmem, rfl⟩ := hstep
    exact Finset.card_erase_add_one hmem
  | refused =>
    rcases hstep with ⟨rfl, rfl⟩ | ⟨hmem, -⟩
    · rfl
    · exact absurd hmem hnull
  | gave a =>
    obtain ⟨hmem, rfl⟩ := hstep
    exact Finset.card_insert_of_notMem hmem
  | again a => rw [hstep.2]; rfl
  | full a => rw [hstep.2.2]; rfl
  | counted n => rw [hstep.2]; rfl
  | other => rw [show f' = f from hstep]; rfl

/-- **How many items there are**, when `null` is never in the pool: those at the start and those put
back, less those that were taken. -/
theorem card_run (h : (system key null room).Run f l f') (hnull : key null ∉ f)
    (hl : ∀ e ∈ l, ¬Gives key (key null) e) :
    f'.card + l.countP Event.isTook = f.card + l.countP Event.isGave := by
  induction h with
  | nil _ => rfl
  | @cons f f₁ f' e l hstep _ ih =>
    obtain ⟨he, hl⟩ := List.forall_mem_cons.mp hl
    have hcard := card_step hstep hnull
    have hrest := ih (out_step hstep hnull he) hl
    rw [List.countP_cons, List.countP_cons]
    omega

/-- A refusal means that there is no item then. -/
theorem refused_empty (h : (system key null room).Run f l f') (hnull : key null ∉ f)
    (hl : ∀ e ∈ l, ¬Gives key (key null) e) {f'' : Finset κ}
    (hstep : step key null room f' .refused f'') :
    f' = ∅ := by
  obtain ⟨hempty, -⟩ | ⟨hmem, -⟩ : f' = ∅ ∧ f'' = ∅ ∨ key null ∈ f' ∧ f'' = f'.erase (key null) :=
    hstep
  · exact hempty
  · exact absurd hmem (out_run h hnull hl)

end

end Base.Pool
