import Mathlib.Tactic

/-!
# Taking turns

The members of a list stand in a circle.  `Behind q a l` says that from `a` on one comes to the
others in the order `l`.  Who has its turn after `a` is the first one of `l` that is willing
(`Behind.turn` is the order from it on), and members may leave (`Behind.filter`).  Either way the
members before a waiting one get fewer.
-/

namespace Base

variable {α : Type*} {q l l₁ l₂ : List α} {a b : α}

/-- The others, in the order in which one comes to them from `a`. -/
def Behind (q : List α) (a : α) (l : List α) : Prop := ∃ pre post, q = pre ++ a :: post ∧
    l = post ++ pre

theorem exists_behind (h : a ∈ q) : ∃ l, Behind q a l := by
  obtain ⟨pre, post, hq⟩ := List.append_of_mem h
  exact ⟨_, pre, post, hq, rfl⟩

namespace Behind

theorem length (h : Behind q a l) : l.length + 1 = q.length := by
  obtain ⟨pre, post, rfl, rfl⟩ := h
  simp only [List.length_append, List.length_cons]
  omega

theorem mem_iff (h : Behind q a l) (x : α) : x ∈ q ↔ x = a ∨ x ∈ l := by
  obtain ⟨pre, post, rfl, rfl⟩ := h
  simp only [List.mem_append, List.mem_cons]
  tauto

theorem notMem (h : Behind q a l) (hnd : q.Nodup) : a ∉ l := by
  obtain ⟨pre, post, rfl, rfl⟩ := h
  rw [List.mem_append, or_comm, ← List.mem_append]
  exact (List.nodup_cons.mp (List.nodup_middle.mp hnd)).1

/-- **The next turn.** -/
theorem turn (h : Behind q a (l₁ ++ b :: l₂)) : Behind q b (l₂ ++ a :: l₁) := by
  obtain ⟨pre, post, rfl, hl⟩ := h
  rcases List.append_eq_append_iff.mp hl with ⟨mid, rfl, hpre⟩ | ⟨mid, rfl, hpre⟩
  · cases mid with
    | nil =>
      rw [List.nil_append] at hpre
      subst hpre
      exact ⟨[], l₂ ++ a :: l₁, by simp, by simp⟩
    | cons x mid =>
      obtain ⟨rfl, rfl⟩ := List.cons.inj hpre
      exact ⟨pre ++ a :: l₁, mid, by simp, by simp⟩
  · subst hpre
    exact ⟨mid, l₂ ++ a :: post, by simp, by simp⟩

theorem filter {p : α → Bool} (h : Behind q a l) (ha : p a = true) :
    Behind (q.filter p) a (l.filter p) := by
  obtain ⟨pre, post, rfl, rfl⟩ := h
  exact ⟨pre.filter p, post.filter p, by rw [List.filter_append, List.filter_cons_of_pos ha],
    List.filter_append ..⟩

/-- **A waiting member comes closer**: it has the next turn, or fewer stand before it after that
turn. -/
theorem closer {p : α → Bool} (h : Behind q a (l₁ ++ b :: l₂)) (hb : p b = true) {x : α}
    (hx : (l₁ ++ b :: l₂).find? p = some x) :
    x = b ∨ ∃ l₁' l₂', Behind q x (l₁' ++ b :: l₂') ∧ l₁'.length < l₁.length := by
  obtain ⟨-, before, after, hsplit, hbefore⟩ := List.find?_eq_some_iff_append.mp hx
  rw [hsplit] at h
  rcases List.append_eq_append_iff.mp hsplit with ⟨mid, rfl, hmid⟩ | ⟨mid, rfl, hmid⟩
  · cases mid with
    | nil => exact .inl (List.cons.inj hmid).1.symm
    | cons y mid =>
      -- The member would stand before the first one that is willing.
      obtain ⟨rfl, -⟩ := List.cons.inj hmid
      have hnot := hbefore b (List.mem_append_right _ List.mem_cons_self)
      rw [hb] at hnot
      cases hnot
  · cases mid with
    | nil => exact .inl (List.cons.inj hmid).1
    | cons y mid =>
      obtain ⟨rfl, rfl⟩ := List.cons.inj hmid
      refine .inr ⟨mid, l₂ ++ a :: before, ?_, ?_⟩
      · simpa using h.turn
      · simp only [List.length_append, List.length_cons]
        omega

end Behind
end Base
