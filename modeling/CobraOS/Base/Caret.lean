import Mathlib.Tactic

/-!
# Lines with a caret

A caret is a place in a list of lines: the lines above, the line of the caret cut in two, and the
lines below.  So it is always inside its line, and there is always a line.  `row` and `col` are its
coordinates.

Its flat text is the lines joined with a separator, cut in two at the caret.  Every edit of the
lines is the one edit of the flat text that a reader expects (`insert_flat`, `newline_flat`,
`eraseBefore_flat`, `eraseAt_flat`), and `left` and `right` are steps in the flat text (`left_flat`,
`right_flat`).
-/

namespace Base

/-- A place in a list of lines. -/
@[ext] structure Caret (α : Type*) where
  above : List (List α)
  before : List α
  after : List α
  below : List (List α)

namespace Caret

variable {α : Type*} (c : Caret α)

def lines : List (List α) := c.above ++ (c.before ++ c.after) :: c.below

def row : Nat := c.above.length

def col : Nat := c.before.length

/-! ### Edits and moves -/

def insert (a : α) : Caret α := { c with before := c.before ++ [a] }

def newline : Caret α := { c with above := c.above ++ [c.before], before := [] }

/-- `none` at the start of the text. -/
def eraseBefore : Option (Caret α) :=
  match c.before.getLast? with
  | some _ => some { c with before := c.before.dropLast }
  | none =>
    match c.above.getLast? with
    | some l => some { c with above := c.above.dropLast, before := l }
    | none => none

/-- `none` at the end of the text. -/
def eraseAt : Option (Caret α) :=
  match c.after, c.below with
  | _ :: after, _ => some { c with after := after }
  | [], l :: below => some { c with after := l, below := below }
  | [], [] => none

def left : Caret α :=
  match c.before.getLast? with
  | some a => { c with before := c.before.dropLast, after := a :: c.after }
  | none =>
    match c.above.getLast? with
    | some l => ⟨c.above.dropLast, l, [], c.after :: c.below⟩
    | none => c

def right : Caret α :=
  match c.after, c.below with
  | a :: after, _ => { c with before := c.before ++ [a], after := after }
  | [], l :: below => ⟨c.above ++ [c.before], [], l, below⟩
  | [], [] => c

/-- To line `y`, and there to column `x` or the end of the line. -/
def goTo (y x : Nat) : Caret α :=
  match c.lines.drop y with
  | l :: below => ⟨c.lines.take y, l.take x, l.drop x, below⟩
  | [] => c

variable {c}

theorem row_lt : c.row < c.lines.length := by
  simp [row, lines]

theorem lines_row : c.lines[c.row]? = some (c.before ++ c.after) := by
  simp [row, lines]

theorem lines_goTo (y x : Nat) : (c.goTo y x).lines = c.lines := by
  unfold goTo
  split
  · rename_i l below hd
    simp only [lines, List.take_append_drop]
    change c.lines.take y ++ l :: below = c.lines
    rw [← hd, List.take_append_drop]
  · rfl

theorem goTo_row {y : Nat} (x : Nat) (h : y < c.lines.length) : (c.goTo y x).row = y := by
  unfold goTo row
  rw [List.drop_eq_getElem_cons h]
  simp only [List.length_take]
  omega

theorem goTo_col {y : Nat} (x : Nat) (h : y < c.lines.length) :
    (c.goTo y x).col = min x (c.lines[y]).length := by
  unfold goTo col
  rw [List.drop_eq_getElem_cons h]
  simp only [List.length_take]

theorem lines_left : c.left.lines = c.lines := by
  obtain ⟨above, before, after, below⟩ := c
  rcases List.eq_nil_or_concat before with rfl | ⟨before, a, rfl⟩
  · rcases List.eq_nil_or_concat above with rfl | ⟨above, l, rfl⟩ <;> simp [left, lines]
  · simp [left, lines]

theorem lines_right : c.right.lines = c.lines := by
  obtain ⟨above, before, after, below⟩ := c
  cases after with
  | cons a after => simp [right, lines]
  | nil => cases below <;> simp [right, lines]

/-! ### The flat text -/

section

variable (s : α)

def flatBefore (c : Caret α) : List α := c.above.flatMap (· ++ [s]) ++ c.before

def flatAfter (c : Caret α) : List α := c.after ++ c.below.flatMap (s :: ·)

variable {s}

theorem intercalate_cons (l : List α) (ls : List (List α)) :
    [s].intercalate (l :: ls) = l ++ ls.flatMap (s :: ·) := by
  induction ls generalizing l with
  | nil => simp
  | cons l' ls ih => rw [List.intercalate_cons_cons, ih, List.flatMap_cons]; simp

theorem intercalate_append (A : List (List α)) (l : List α) (ls : List (List α)) :
    [s].intercalate (A ++ l :: ls) = A.flatMap (· ++ [s]) ++ (l ++ ls.flatMap (s :: ·)) := by
  induction A with
  | nil => rw [List.nil_append, intercalate_cons, List.flatMap_nil, List.nil_append]
  | cons a A ih =>
    rw [List.cons_append, intercalate_cons, List.flatMap_cons, List.append_assoc, ← ih]
    cases A with
    | nil => rw [List.nil_append, List.flatMap_cons, intercalate_cons]; simp
    | cons b A => rw [List.cons_append, List.flatMap_cons, intercalate_cons]; simp

/-- **The flat text is the lines joined with the separator.** -/
theorem flat_eq : [s].intercalate c.lines = c.flatBefore s ++ c.flatAfter s := by
  unfold lines flatBefore flatAfter
  rw [intercalate_append]
  simp

theorem flatBefore_length :
    (c.flatBefore s).length = ((c.lines.take c.row).map (·.length + 1)).sum + c.col := by
  unfold flatBefore lines row col
  rw [List.take_left, List.length_append, List.length_flatMap]
  simp

theorem insert_flat (a : α) :
    (c.insert a).flatBefore s = c.flatBefore s ++ [a] ∧
      (c.insert a).flatAfter s = c.flatAfter s := by
  simp [insert, flatBefore, flatAfter]

theorem newline_flat :
    c.newline.flatBefore s = c.flatBefore s ++ [s] ∧
      c.newline.flatAfter s = c.flatAfter s := by
  simp [newline, flatBefore, flatAfter]

/-- **Erasing backward** removes the last character before the caret. -/
theorem eraseBefore_flat {c' : Caret α} (h : c.eraseBefore = some c') :
    ∃ a, c.flatBefore s = c'.flatBefore s ++ [a] ∧ c'.flatAfter s = c.flatAfter s := by
  obtain ⟨above, before, after, below⟩ := c
  rcases List.eq_nil_or_concat before with rfl | ⟨before, a, rfl⟩
  · rcases List.eq_nil_or_concat above with rfl | ⟨above, l, rfl⟩
    · simp [eraseBefore] at h
    · simp only [eraseBefore, List.concat_eq_append, List.getLast?_nil, List.getLast?_concat,
        List.dropLast_concat, Option.some.injEq] at h
      subst h
      exact ⟨s, by simp [flatBefore], rfl⟩
  · simp only [eraseBefore, List.concat_eq_append, List.getLast?_concat, List.dropLast_concat,
      Option.some.injEq] at h
    subst h
    exact ⟨a, by simp [flatBefore], rfl⟩

theorem eraseBefore_none (h : c.eraseBefore = none) : c.flatBefore s = [] := by
  obtain ⟨above, before, after, below⟩ := c
  rcases List.eq_nil_or_concat before with rfl | ⟨before, a, rfl⟩
  · rcases List.eq_nil_or_concat above with rfl | ⟨above, l, rfl⟩
    · simp [flatBefore]
    · simp [eraseBefore] at h
  · simp [eraseBefore] at h

/-- **Erasing forward** removes the first character after the caret. -/
theorem eraseAt_flat {c' : Caret α} (h : c.eraseAt = some c') :
    ∃ a, c.flatAfter s = a :: c'.flatAfter s ∧ c'.flatBefore s = c.flatBefore s := by
  obtain ⟨above, before, after, below⟩ := c
  cases after with
  | cons a after =>
    obtain rfl := Option.some.inj h
    exact ⟨a, rfl, rfl⟩
  | nil =>
    cases below with
    | nil => exact absurd h (by simp [eraseAt])
    | cons l below =>
      obtain rfl := Option.some.inj h
      exact ⟨s, rfl, rfl⟩

theorem eraseAt_none (h : c.eraseAt = none) : c.flatAfter s = [] := by
  obtain ⟨above, before, after, below⟩ := c
  cases after with
  | cons a after => simp [eraseAt] at h
  | nil =>
    cases below with
    | nil => rfl
    | cons l below => simp [eraseAt] at h

theorem left_flat : (c.left.flatBefore s).length = (c.flatBefore s).length - 1 := by
  obtain ⟨above, before, after, below⟩ := c
  rcases List.eq_nil_or_concat before with rfl | ⟨before, a, rfl⟩
  · rcases List.eq_nil_or_concat above with rfl | ⟨above, l, rfl⟩ <;> simp [left, flatBefore]
  · simp [left, flatBefore]

theorem right_flat : (c.right.flatBefore s).length =
    min ((c.flatBefore s).length + 1) (c.flatBefore s ++ c.flatAfter s).length := by
  obtain ⟨above, before, after, below⟩ := c
  cases after with
  | cons a after =>
    simp only [right, flatBefore, flatAfter, List.length_append, List.length_cons]
    simp
    omega
  | nil =>
    cases below with
    | nil => simp [right, flatBefore, flatAfter]
    | cons l below =>
      simp only [right, flatBefore, flatAfter, List.length_append, List.flatMap_append,
        List.flatMap_cons, List.length_cons]
      simp
      omega

end
end Caret
end Base
