import Mathlib.Tactic

/-!
# Texts in a buffer that may be too short

A buffer has room for a number of items, or has no end.  Items are put into it one after another,
and those for which there is no room are lost.  `Holds` says that the buffer has as much of a text
as there is room for; whatever way the text is cut into pieces, the pieces put after one another
hold the whole (`Buffer.Holds.put`, `Buffer.Holds.putAll`).
-/

namespace Base

variable {α : Type*}

/-- The number of items that there is room for; `none` is no limit. -/
abbrev Room := Option Nat

/-- There is room for the item behind `k` items. -/
def Room.Has : Room → Nat → Prop
  | none, _ => True
  | some n, k => k < n

instance (size : Room) (k : Nat) : Decidable (size.Has k) :=
  match size with
  | none => isTrue trivial
  | some n => inferInstanceAs (Decidable (k < n))

/-- As many of `k` items as there is room for. -/
def Room.cut : Room → Nat → Nat
  | none, k => k
  | some n, k => min k n

/-- `touched` remembers the indices that were written. -/
structure Buffer (α : Type*) where
  cells : Nat → α
  written : Nat
  touched : List Nat

/-- `buffer[i] = a;` -/
def Buffer.store (b : Buffer α) (i : Nat) (a : α) : Buffer α :=
  { b with cells := Function.update b.cells i a, touched := b.touched ++ [i] }

/-- `buffer[written++] = a;` -/
def Buffer.push (b : Buffer α) (a : α) : Buffer α :=
  { b.store b.written a with written := b.written + 1 }

/-- `if (written < size) buffer[written++] = a;` -/
def Buffer.put (size : Room) (b : Buffer α) (a : α) : Buffer α :=
  if size.Has b.written then b.push a else b

/-- `while (*s && written < size) buffer[written++] = *s++;` -/
def Buffer.putAll (size : Room) : Buffer α → List α → Buffer α
  | b, [] => b
  | b, a :: s => if size.Has b.written then (b.push a).putAll size s else b

/-- As much of the text `s` as there is room for, and behind it what was there before. -/
structure Buffer.Holds (size : Room) (start : Nat → α) (b : Buffer α) (s : List α) : Prop where
  written : b.written = size.cut s.length
  cells : ∀ i < b.written, s[i]? = some (b.cells i)
  rest : ∀ i, b.written ≤ i → b.cells i = start i
  touched : ∀ i ∈ b.touched, i < b.written

section

variable {size : Room} {start : Nat → α} {b : Buffer α} {s t : List α}

theorem Room.cut_le (size : Room) (k : Nat) : size.cut k ≤ k := by
  cases size with
  | none => exact Nat.le_refl k
  | some n => exact Nat.min_le_left k n

/-- There is room for the next item when all items so far have found room. -/
theorem Room.cut_succ {k : Nat} (h : size.Has (size.cut k)) : size.cut k = k ∧
    size.cut (k + 1) = k + 1 := by
  cases size with
  | none => exact ⟨rfl, rfl⟩
  | some n =>
    have hlt : min k n < n := h
    exact ⟨by show min k n = k; omega, by show min (k + 1) n = k + 1; omega⟩

theorem Room.cut_full {k : Nat} (h : ¬ size.Has (size.cut k)) (m : Nat) :
    size.cut (k + m) = size.cut k := by
  cases size with
  | none => exact absurd trivial h
  | some n =>
    have hge : ¬ min k n < n := h
    show min (k + m) n = min k n
    omega

namespace Buffer

theorem holds_nil (size : Room) (start : Nat → α) : Holds size start ⟨start, 0, []⟩ [] where
  written := by cases size <;> simp [Room.cut]
  cells i hi := absurd hi (Nat.not_lt_zero i)
  rest _ _ := rfl
  touched i hi := absurd hi List.not_mem_nil

theorem Holds.push (h : Holds size start b s) (hroom : size.Has b.written) (a : α) :
    Holds size start (b.push a) (s ++ [a]) := by
  rw [h.written] at hroom
  obtain ⟨hlen, hnext⟩ := Room.cut_succ hroom
  have hwritten : b.written = s.length := h.written.trans hlen
  refine ⟨?_, ?_, ?_, ?_⟩
  · rw [List.length_append, List.length_singleton, hnext, ← hwritten]
    rfl
  · intro i hi
    show (s ++ [a])[i]? = some (Function.update b.cells b.written a i)
    by_cases hlast : i = b.written
    · rw [hlast, Function.update_self, hwritten, List.getElem?_concat_length]
    · have hlt : i < b.written := Nat.lt_of_le_of_ne (Nat.le_of_lt_succ hi) hlast
      rw [Function.update_of_ne hlast, List.getElem?_append_left (hwritten ▸ hlt), h.cells i hlt]
  · intro i hi
    have hlt : b.written < i := hi
    show Function.update b.cells b.written a i = start i
    rw [Function.update_of_ne (by omega), h.rest i hlt.le]
  · intro i hi
    obtain hi | hi := List.mem_append.mp hi
    · exact (h.touched i hi).trans (Nat.lt_succ_self _)
    · rw [List.mem_singleton] at hi
      exact hi ▸ Nat.lt_succ_self _

/-- **What comes behind a full buffer is lost.** -/
theorem Holds.full (h : Holds size start b s) (hfull : ¬ size.Has b.written) (t : List α) :
    Holds size start b (s ++ t) := by
  refine ⟨?_, ?_, h.rest, h.touched⟩
  · rw [h.written] at hfull
    rw [List.length_append, Room.cut_full hfull, h.written]
  · intro i hi
    have hlt : i < s.length := hi.trans_le (h.written.trans_le (Room.cut_le size _))
    rw [List.getElem?_append_left hlt, h.cells i hi]

theorem Holds.put (h : Holds size start b s) (a : α) : Holds size start (b.put size a)
    (s ++ [a]) := by
  unfold Buffer.put
  by_cases hroom : size.Has b.written
  · rw [if_pos hroom]
    exact h.push hroom a
  · rw [if_neg hroom]
    exact h.full hroom [a]

theorem Holds.putAll (h : Holds size start b s) (t : List α) : Holds size start (b.putAll size t)
    (s ++ t) := by
  induction t generalizing b s with
  | nil => exact (List.append_nil s).symm ▸ h
  | cons a t ih =>
    rw [Buffer.putAll]
    by_cases hroom : size.Has b.written
    · rw [if_pos hroom, List.append_cons]
      exact ih (h.push hroom a)
    · rw [if_neg hroom]
      exact h.full hroom (a :: t)

end Buffer

end

end Base
