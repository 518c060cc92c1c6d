import Mathlib.Tactic

/-!
# Ring buffers

`ringList slots N t n` are the `n` items of a ring of `N` slots from the slot `t` on.  An item put
behind them comes last (`ringList_put`), and the first leaves when `t` moves on (`ringList_take`).
`KeepsLast` is a ring that is only written: it keeps the last `N` items of a list that grows.
-/

namespace Base

variable {α : Type*}

/-- The items in `n` slots from `t` on, in a ring of `N` slots. -/
def ringList (slots : Nat → α) (N t n : Nat) : List α :=
  (List.range n).map (fun i => slots ((t + i) % N))

variable {slots : Nat → α} {N t n : Nat}

@[simp] theorem ringList_length : (ringList slots N t n).length = n := by simp [ringList]

theorem ringList_update (c : α) {i : Nat} (h : ∀ j < n, (t + j) % N ≠ i) :
    ringList (Function.update slots i c) N t n = ringList slots N t n := by
  apply List.map_congr_left
  intro j hj
  exact Function.update_of_ne (h j (List.mem_range.mp hj)) _ _

theorem mod_ne {j : Nat} (hj : j < n) (hn : n < N) : (t + j) % N ≠ (t + n) % N := by
  intro he
  have hdvd := (Nat.modEq_iff_dvd' (by omega : t + j ≤ t + n)).mp he
  rw [Nat.add_sub_add_left] at hdvd
  have := Nat.le_of_dvd (by omega) hdvd
  omega

/-- **An item put behind the others comes last.** -/
theorem ringList_put (slots : Nat → α) (t : Nat) (c : α) (hn : n < N) :
    ringList (Function.update slots ((t + n) % N) c) N t (n + 1) = ringList slots N t n ++ [c] := by
  have hlast : ringList (Function.update slots ((t + n) % N) c) N t (n + 1) =
      ringList (Function.update slots ((t + n) % N) c) N t n ++ [c] := by
    simp [ringList, List.range_succ]
  rw [hlast, ringList_update c (fun j hj => mod_ne hj hn)]

theorem ringList_mod : ringList slots N (t % N) n = ringList slots N t n := by
  apply List.map_congr_left
  intro j _
  rw [Nat.mod_add_mod]

/-- **The first item leaves** when the start moves on. -/
theorem ringList_take (ht : t < N) : ringList slots N t (n + 1) =
    slots t :: ringList slots N ((t + 1) % N) n := by
  have htail : (fun i => slots ((t + i) % N)) ∘ Nat.succ = fun i => slots ((t + 1 + i) % N) := by
    funext i
    rw [Function.comp_apply, Nat.succ_eq_add_one, Nat.add_right_comm, Nat.add_assoc]
  rw [ringList_mod]
  unfold ringList
  rw [List.range_succ_eq_map, List.map_cons, List.map_map, htail, Nat.add_zero, Nat.mod_eq_of_lt ht]

/-! ### The last items of a list -/

/-- Each of the last `N` items is in the slot of its index. -/
structure KeepsLast (slots : List α) (N : Nat) (l : List α) : Prop where
  length : slots.length = N
  get : ∀ i < l.length, l.length ≤ i + N → slots[i % N]? = l[i]?

theorem KeepsLast.nil (slots : List α) (h : slots.length = N) : KeepsLast slots N [] := ⟨h, by simp⟩

/-- **An item put into the next slot is the last one.** -/
theorem KeepsLast.put {slots l : List α} (h : KeepsLast slots N l) (hN : 0 < N) (x : α) :
    KeepsLast (slots.set (l.length % N) x) N (l ++ [x]) := by
  refine ⟨by rw [List.length_set, h.length], fun i hi hle => ?_⟩
  rw [List.length_append, List.length_singleton] at hi hle
  have hlt : l.length % N < slots.length := by
    rw [h.length]
    exact Nat.mod_lt _ hN
  rcases Nat.lt_or_eq_of_le (Nat.lt_succ_iff.mp hi) with hi | rfl
  · have hne : i % N ≠ l.length % N := by
      have hmod := mod_ne (t := i) (j := 0) (n := l.length - i) (N := N) (by omega) (by omega)
      rwa [Nat.add_zero, Nat.add_sub_cancel' hi.le] at hmod
    rw [List.getElem?_set_ne hne.symm, List.getElem?_append_left hi]
    exact h.get i hi (by omega)
  · rw [List.getElem?_set_self hlt, List.getElem?_concat_length]

/-- The slot of an index that has been used holds one of the items. -/
theorem KeepsLast.mem {slots l : List α} (h : KeepsLast slots N l) (hN : 0 < N) {i : Nat}
    (hi : i < l.length) :
    ∃ x ∈ l, slots[i % N]? = some x := by
  by_cases hle : l.length ≤ i + N
  · exact ⟨l[i], List.getElem_mem hi, by rw [h.get i hi hle, List.getElem?_eq_getElem hi]⟩
  · obtain ⟨x, hx, hget⟩ := h.mem hN (i := i + N) (by omega)
    exact ⟨x, hx, by rwa [Nat.add_mod_right] at hget⟩
termination_by l.length - i

end Base
