import Mathlib.Tactic

/-!
# Blocks of memory and programs that allocate them

A block is what one allocation returns: its identity and its cells, of which those not yet written
are `none`.  Accesses are checked: `get`, `set` and `copy` fail outside the block, and `get` fails
at a cell that was never written.

An `Alloc` program asks for blocks of a `World`, which grants or refuses each request as it likes
and keeps a record of all requests and releases.  A program that makes a bad access has no result.
`Meets` says that a program has a result with a certain property, whatever the world does; there is
one rule for each way to build a program.  `Leads` says only that a result has the property if there
is one.
-/

namespace Base

/-- One allocation, with as many cells as fit. -/
structure Block (α : Type) where
  id : Nat
  cells : List (Option α)

namespace Block

variable {α : Type}

def get (b : Block α) (i : Nat) : Option α := (b.cells[i]?).join

def set (b : Block α) (i : Nat) (a : α) : Option (Block α) :=
  if i < b.cells.length then some { b with cells := b.cells.set i (some a) } else none

/-- `n` cells from `i` on of `src`, written or not, to the cells of `dst` from `j` on.  It reads
before it writes, so the two may be one block and overlap. -/
def copy (dst : Block α) (j : Nat) (src : Block α) (i n : Nat) : Option (Block α) :=
  if i + n ≤ src.cells.length ∧ j + n ≤ dst.cells.length then
    some { dst with
      cells := dst.cells.take j ++ ((src.cells.drop i).take n ++ dst.cells.drop (j + n)) }
  else none

theorem get_eq_some {b : Block α} {i : Nat} {a : α} : b.get i = some a ↔
    b.cells[i]? = some (some a) := by
  unfold get
  cases b.cells[i]? <;> simp

theorem set_some {b b' : Block α} {i : Nat} {a : α} (h : b.set i a = some b') :
    i < b.cells.length ∧ b' = ⟨b.id, b.cells.set i (some a)⟩ := by
  unfold set at h
  split at h
  · exact ⟨by assumption, (Option.some.inj h).symm⟩
  · cases h

theorem copy_some {dst dst' src : Block α} {i j n : Nat} (h : dst.copy j src i n = some dst') :
    (i + n ≤ src.cells.length ∧ j + n ≤ dst.cells.length) ∧ dst' =
      ⟨dst.id, dst.cells.take j ++ ((src.cells.drop i).take n ++ dst.cells.drop (j + n))⟩ := by
  unfold copy at h
  split at h
  · exact ⟨by assumption, (Option.some.inj h).symm⟩
  · cases h

/-! ### Accesses to a block of which a part is known -/

variable {xs ys zs us vs ws : List (Option α)} {i j n : Nat}

theorem get_mid {b : Block α} {a : α} (h : b.cells = xs ++ some a :: ys) (hi : xs.length = i) :
    b.get i = some a := by
  subst hi
  simp [get, h]

theorem set_mid {b : Block α} {c : Option α} (a : α) (h : b.cells = xs ++ c :: ys)
    (hi : xs.length = i) : b.set i a = some ⟨b.id, xs ++ some a :: ys⟩ := by
  subst hi
  simp [set, h]

/-- **The copy rule**: the middle of `dst` becomes the middle of `src`. -/
theorem copy_mid {dst src : Block α} (hd : dst.cells = xs ++ (ys ++ zs))
    (hs : src.cells = us ++ (vs ++ ws)) (hj : xs.length = j) (hi : us.length = i)
    (hn : vs.length = n) (hl : ys.length = n) :
    dst.copy j src i n = some ⟨dst.id, xs ++ (vs ++ zs)⟩ := by
  subst hj hi hn
  have h1 : us.length + vs.length ≤ src.cells.length := by
    rw [hs, List.length_append, List.length_append]
    omega
  have h2 : xs.length + vs.length ≤ dst.cells.length := by
    rw [hd, List.length_append, List.length_append]
    omega
  have h3 : dst.cells.drop (xs.length + vs.length) = zs := by
    rw [hd, ← hl, ← List.length_append, ← List.append_assoc, List.drop_left]
  unfold copy
  rw [if_pos ⟨h1, h2⟩, h3, hd, hs, List.take_left, List.drop_left, List.take_left]

/-- **A text is copied to a new block** that has room for one item more. -/
theorem copy_fresh {src : Block α} (id : Nat) (hs : src.cells = us ++ (vs ++ ws))
    (hi : us.length = i) (hn : vs.length = n) :
    (⟨id, List.replicate (n + 1) none⟩ : Block α).copy 0 src i n = some ⟨id, vs ++ [none]⟩ := by
  have hnew : (⟨id, List.replicate (n + 1) none⟩ : Block α).cells =
      [] ++ (List.replicate n none ++ [none]) := by
    rw [List.replicate_succ']
    rfl
  exact copy_mid hnew hs rfl hi hn List.length_replicate

theorem set_fresh (id : Nat) (vs : List (Option α)) (a : α) (hn : vs.length = n) :
    (⟨id, vs ++ [none]⟩ : Block α).set n a = some ⟨id, vs ++ [some a]⟩ :=
  set_mid a rfl hn

end Block

/-! ### The world -/

inductive Request
  | granted (id size : Nat)
  | refused (size : Nat)
  | released (id : Nat)
  deriving DecidableEq

/-- Whether the world grants its `n`-th request, the number of requests so far, and the record, last
entry first. -/
structure World where
  grants : Nat → Bool
  calls : Nat
  record : List Request

/-- The number of refused requests. -/
def World.refusals (w : World) : Nat :=
  w.record.countP (fun r => match r with | .refused _ => true | _ => false)

abbrev Alloc := StateT World Option

/-- A request for `size` bytes, for cells of `cell` bytes each.  Only requests for at least one and
at most `limit` bytes are granted.  The result is null when the request is refused. -/
def request {α : Type} (limit cell size : Nat) : Alloc (Option (Block α)) := fun w =>
  if w.grants w.calls = true ∧ 0 < size ∧ size ≤ limit then
    some (some ⟨w.calls, List.replicate (size / cell) none⟩,
      { w with calls := w.calls + 1, record := .granted w.calls size :: w.record })
  else some (none, { w with calls := w.calls + 1, record := .refused size :: w.record })

/-- The release of a block; nothing for the null pointer. -/
def release {α : Type} (b : Option (Block α)) : Alloc Unit := fun w =>
  match b with
  | none => some ((), w)
  | some b => some ((), { w with record := .released b.id :: w.record })

/-! ### What a program does -/

/-- The program, run in `w`, has a result that meets `Q`. -/
def Meets {α : Type} (m : Alloc α) (w : World) (Q : α → World → Prop) : Prop :=
  ∃ a w', m w = some (a, w') ∧ Q a w'

namespace Meets

variable {α β : Type} {m : Alloc α} {w : World} {Q R : α → World → Prop}

theorem mono (h : Meets m w Q) (hq : ∀ a w', Q a w' → R a w') : Meets m w R := by
  obtain ⟨a, w', hr, hp⟩ := h
  exact ⟨a, w', hr, hq a w' hp⟩

theorem pure {a : α} (h : Q a w) : Meets (pure a) w Q := ⟨a, w, rfl, h⟩

theorem bind {f : α → Alloc β} {T : β → World → Prop} (h : Meets m w Q)
    (hf : ∀ a w', Q a w' → Meets (f a) w' T) : Meets (m >>= f) w T := by
  obtain ⟨a, w', hr, hp⟩ := h
  obtain ⟨b, w'', hr', ht⟩ := hf a w' hp
  exact ⟨b, w'', by simp only [Bind.bind, StateT.bind, hr, Option.bind_some]; exact hr', ht⟩

theorem seq {f : α → Alloc β} {T : β → World → Prop}
    (h : Meets m w (fun a w' => Meets (f a) w' T)) : Meets (m >>= f) w T :=
  bind h fun _ _ hf => hf

theorem run {f : α → Alloc β} {a : α} {w' : World} {T : β → World → Prop} (h : m w = some (a, w'))
    (hf : Meets (f a) w' T) : Meets (m >>= f) w T := seq ⟨a, w', h, hf⟩

theorem lift {o : Option α} {a : α} (h : o = some a) {f : α → Alloc β} {T : β → World → Prop}
    (hf : Meets (f a) w T) : Meets (liftM o >>= f) w T := by
  rw [h]
  exact hf

/-- **The allocation rule.** -/
theorem request {limit cell size : Nat} {Q : Option (Block α) → World → Prop}
    (hgrant : ∀ id w', 0 < size → size ≤ limit → w'.refusals = w.refusals →
      Q (some ⟨id, List.replicate (size / cell) none⟩) w')
    (hrefuse : ∀ w', w'.refusals = w.refusals + 1 → Q none w') :
    Meets (request limit cell size) w Q := by
  unfold Base.request
  by_cases h : w.grants w.calls = true ∧ 0 < size ∧ size ≤ limit
  · exact ⟨_, _, if_pos h, hgrant _ _ h.2.1 h.2.2 (by simp [World.refusals])⟩
  · exact ⟨_, _, if_neg h, hrefuse _ (by simp [World.refusals])⟩

theorem release {b : Option (Block α)} {Q : Unit → World → Prop}
    (h : ∀ w', w'.refusals = w.refusals → Q () w') : Meets (release b) w Q := by
  cases b with
  | none => exact ⟨(), w, rfl, h w rfl⟩
  | some b => exact ⟨(), _, rfl, h _ (by simp [World.refusals])⟩

end Meets

/-- If the program, run in `w`, has a result, then it meets `Q`. -/
def Leads {α : Type} (m : Alloc α) (w : World) (Q : α → World → Prop) : Prop :=
  ∀ a w', m w = some (a, w') → Q a w'

namespace Leads

variable {α β : Type} {m : Alloc α} {w : World} {Q R : α → World → Prop} {f : α → Alloc β}
  {T : β → World → Prop}

theorem of_meets (h : Meets m w Q) : Leads m w Q := by
  obtain ⟨a, w', hr, hq⟩ := h
  intro a' w'' hr'
  cases hr.symm.trans hr'
  exact hq

theorem any : Leads m w (fun _ _ => True) := fun _ _ _ => trivial

theorem self : Leads m w (fun a w' => m w = some (a, w')) := fun _ _ hr => hr

theorem meets (h : Leads m w R) (hm : Meets m w Q) : Meets m w (fun a w' => Q a w' ∧ R a w') := by
  obtain ⟨a, w', hr, hq⟩ := hm
  exact ⟨a, w', hr, hq, h a w' hr⟩

theorem mono (h : Leads m w Q) (hq : ∀ a w', Q a w' → R a w') : Leads m w R :=
  fun a w' hr => hq a w' (h a w' hr)

theorem pure {a : α} (h : Q a w) : Leads (pure a) w Q := by
  intro a' w' hr
  cases hr
  exact h

theorem bind (h : Leads m w Q) (hf : ∀ a w', Q a w' → Leads (f a) w' T) : Leads (m >>= f) w T := by
  intro b w'' hr
  simp only [Bind.bind, StateT.bind] at hr
  obtain ⟨⟨a, w'⟩, hm, hb⟩ := Option.bind_eq_some_iff.mp hr
  exact hf a w' (h a w' hm) b w'' hb

theorem bind_congr {g : α → Alloc β} {C : World → Prop} (h : ∀ a w', m w = some (a, w') →
    Leads (f a) w' (fun b w'' => C w'' → g a w' = some (b, w''))) :
    Leads (m >>= f) w (fun b w'' => C w'' → (m >>= g) w = some (b, w'')) := by
  intro b w'' hr hc
  simp only [Bind.bind, StateT.bind] at hr ⊢
  obtain ⟨⟨a, w'⟩, hm, hb⟩ := Option.bind_eq_some_iff.mp hr
  rw [hm]
  exact h a w' hm b w'' hb hc

theorem lift {o : Option α} (hf : ∀ a, o = some a → Leads (f a) w T) :
    Leads (liftM o >>= f) w T := by
  cases o with
  | none =>
    intro b w' hr
    cases hr
  | some a => exact hf a rfl

theorem ite {c : Prop} [Decidable c] {m' : Alloc α} (ht : c → Leads m w Q)
    (he : ¬ c → Leads m' w Q) :
    Leads (if c then m else m') w Q := by
  by_cases hc : c
  · rw [if_pos hc]
    exact ht hc
  · rw [if_neg hc]
    exact he hc

end Leads
end Base
