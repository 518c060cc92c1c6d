import Mathlib.Tactic

/-!
# Static arrays with checked accesses

An array is the list of its cells, and a write outside it has no result.  The loops that make room
for an item and that close a gap move the cells between two places by one (`shiftUp_spec`,
`shiftDown_spec`).
-/

namespace Base

variable {α : Type*}

/-- A write inside the array. -/
def setAt (cells : List α) (i : Nat) (a : α) : Option (List α) :=
  if i < cells.length then some (cells.set i a) else none

/-- `for (i = pos + n; i > pos; i--) cells[i] = cells[i - 1];` -/
def shiftUp (pos : Nat) : Nat → List α → Option (List α)
  | 0, cells => some cells
  | n + 1, cells => do
    let a ← cells[pos + n]?
    let cells ← setAt cells (pos + n + 1) a
    shiftUp pos n cells

/-- `for (i = pos; i < pos + n; i++) cells[i] = cells[i + 1];` -/
def shiftDown : Nat → Nat → List α → Option (List α)
  | _, 0, cells => some cells
  | pos, n + 1, cells => do
    let a ← cells[pos + 1]?
    let cells ← setAt cells pos a
    shiftDown (pos + 1) n cells

variable {pre mid post : List α} {a b : α} {i n : Nat}

theorem get_mid (hi : pre.length = i) (a : α) (post : List α) :
    (pre ++ a :: post)[i]? = some a := by
  subst hi
  simp

theorem setAt_mid (hi : pre.length = i) (a b : α) (post : List α) :
    setAt (pre ++ a :: post) i b = some (pre ++ b :: post) := by
  subst hi
  simp [setAt]

/-- **Room is made**: the items from `pos` on move up by one. -/
theorem shiftUp_spec : ∀ (mid : List α) (x : α) (post : List α), pre.length = i →
    ∃ y, shiftUp i mid.length (pre ++ (mid ++ x :: post)) = some (pre ++ y :: (mid ++ post)) := by
  intro mid
  induction mid using List.reverseRecOn with
  | nil => exact fun x post _ => ⟨x, rfl⟩
  | append_singleton mid a ih =>
    intro x post hi
    have hlen : (pre ++ mid).length = i + mid.length := by rw [List.length_append, hi]
    have hlen' : (pre ++ (mid ++ [a])).length = i + mid.length + 1 := by
      simp [List.length_append, hi, Nat.add_assoc]
    obtain ⟨y, hy⟩ := ih a (a :: post) hi
    refine ⟨y, ?_⟩
    have hget : (pre ++ (mid ++ [a] ++ x :: post))[i + mid.length]? = some a := by
      have := get_mid hlen a (x :: post)
      simpa using this
    have hset : setAt (pre ++ (mid ++ [a] ++ x :: post)) (i + mid.length + 1) a =
        some (pre ++ (mid ++ a :: a :: post)) := by
      have := setAt_mid hlen' x a post
      simpa using this
    rw [List.length_append, List.length_singleton, shiftUp, hget]
    simp only [Option.bind_eq_bind, Option.bind_some, hset]
    simpa using hy

/-- **A gap is closed**: the items behind `pos` move down by one. -/
theorem shiftDown_spec : ∀ (mid : List α) (x : α) (post pre : List α) (i : Nat), pre.length = i →
    ∃ y, shiftDown i mid.length (pre ++ x :: (mid ++ post)) = some (pre ++ (mid ++ y :: post)) := by
  intro mid
  induction mid with
  | nil => exact fun x post pre i _ => ⟨x, rfl⟩
  | cons a mid ih =>
    intro x post pre i hi
    have hlen : (pre ++ [x]).length = i + 1 := by rw [List.length_append, hi, List.length_singleton]
    have hlen' : (pre ++ [a]).length = i + 1 := by
      rw [List.length_append, hi, List.length_singleton]
    obtain ⟨y, hy⟩ := ih a post (pre ++ [a]) (i + 1) hlen'
    refine ⟨y, ?_⟩
    have hget : (pre ++ x :: (a :: mid ++ post))[i + 1]? = some a := by
      have := get_mid hlen a (mid ++ post)
      simpa using this
    rw [List.length_cons, shiftDown, hget]
    simp only [Option.bind_eq_bind, Option.bind_some, setAt_mid hi]
    simpa using hy

end Base
