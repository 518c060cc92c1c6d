import Mathlib.Data.List.TakeWhile

/-!
# The components of a path

A path is a list of letters in which one letter separates the components; separators may be
repeated, and stand in front and at the end.  `components sep p` are what is left between them.  A
scanner that takes the letters up to a separator, and goes on behind the separators that follow,
finds the components one after the other (`components_scan`), and paths that are joined are the
components of one followed by those of the other (`components_append`).
-/

namespace Base

variable {α : Type*} [DecidableEq α] {sep : α} {p q : List α}

/-- What stands between the separators. -/
def components (sep : α) (p : List α) : List (List α) :=
  (p.splitOn sep).filter (fun c => !c.isEmpty)

@[simp] theorem components_nil : components sep [] = [] := rfl

/-- **Components of joined paths.** -/
theorem components_append (p q : List α) :
    components sep (p ++ sep :: q) = components sep p ++ components sep q := by
  rw [components, List.splitOn_append_cons_self, List.filter_append]
  rfl

@[simp] theorem components_sep (q : List α) : components sep (sep :: q) = components sep q :=
  components_append [] q

theorem components_single (hp : p ≠ []) (hsep : sep ∉ p) : components sep p = [p] := by
  rw [components, List.splitOn_eq_singleton hsep]
  simp [hp]

theorem components_dropWhile (p : List α) :
    components sep (p.dropWhile (· == sep)) = components sep p := by
  induction p with
  | nil => rfl
  | cons x p ih =>
    by_cases hx : x = sep
    · rw [List.dropWhile_cons_of_pos (by simpa using hx), ih, hx, components_sep]
    · rw [List.dropWhile_cons_of_neg (by simpa using hx)]

theorem components_split (p : List α) : components sep p =
    components sep (p.takeWhile (· != sep)) ++ components sep (p.dropWhile (· != sep)) := by
  cases hd : p.dropWhile (· != sep) with
  | nil =>
    have hp : p.takeWhile (· != sep) = p := by
      have := List.takeWhile_append_dropWhile (p := (· != sep)) (l := p)
      rwa [hd, List.append_nil] at this
    rw [hp, components_nil, List.append_nil]
  | cons x q =>
    have hx : x = sep := by
      have := List.head?_dropWhile_not (· != sep) p
      simpa [hd] using this
    have hp := List.takeWhile_append_dropWhile (p := (· != sep)) (l := p)
    rw [hd, hx] at hp
    rw [hx, components_sep, ← components_append, hp]

theorem sep_notMem_takeWhile (sep : α) (p : List α) : sep ∉ p.takeWhile (· != sep) := by
  intro hmem
  have := List.mem_takeWhile_imp hmem
  simp at this

/-- **The scanner finds the components** one after the other. -/
theorem components_scan (hp : p.takeWhile (· != sep) ≠ []) : components sep p =
    p.takeWhile (· != sep) :: components sep ((p.dropWhile (· != sep)).dropWhile (· == sep)) := by
  rw [components_dropWhile, components_split p, components_single hp (sep_notMem_takeWhile sep p)]
  rfl

theorem components_intercalate : ∀ {l : List (List α)}, (∀ c ∈ l, c ≠ [] ∧ sep ∉ c) →
    components sep ([sep].intercalate l) = l := by
  intro l
  induction l with
  | nil => exact fun _ => rfl
  | cons c l ih =>
    intro hl
    have hc := hl c (by simp)
    have hrest : ∀ d ∈ l, d ≠ [] ∧ sep ∉ d := fun d hd => hl d (List.mem_cons_of_mem _ hd)
    cases l with
    | nil => rw [List.intercalate_singleton, components_single hc.1 hc.2]
    | cons d l =>
      rw [List.intercalate_cons_cons, List.append_assoc, List.singleton_append, components_append,
        components_single hc.1 hc.2, ih hrest]
      rfl

end Base
