import Mathlib.Tactic
import Mathlib.Data.List.DropRight

/-!
# Texts laid out in rows

A text is laid out in rows of at most `width` items: `newline` starts a row, and a row is broken as
soon as it is full.  There is always a last row, which has room for one more item, and only it
changes when the text goes on (`rowsFrom_split`).

A page shows the last rows.  What it shows after one more item depends on what it showed before
(`rtake_layout_concat`).
-/

namespace Base

variable {α : Type*}

/-- The last `n` items of a list depend on no more than `n` items of it. -/
theorem rtake_rtake_append {n m : Nat} (l : List α) {t : List α} (h : n ≤ m + t.length) :
    (l.rtake m ++ t).rtake n = (l ++ t).rtake n := by
  unfold List.rtake
  simp only [List.length_append, List.length_drop, List.drop_append, List.drop_drop]
  congr 2 <;> omega

section

variable [DecidableEq α] (width : Nat) (newline : α)

/-- The rows of a text behind a row that is begun. -/
def rowsFrom : List α → List α → List (List α)
  | row, [] => [row]
  | row, a :: s =>
    if a = newline then row :: rowsFrom [] s
    else if row.length + 1 < width then rowsFrom (row ++ [a]) s
    else (row ++ [a]) :: rowsFrom [] s

def layout (s : List α) : List (List α) := rowsFrom width newline [] s

theorem rowsFrom_length_pos (row s : List α) : 0 < (rowsFrom width newline row s).length := by
  induction s generalizing row with
  | nil => exact Nat.one_pos
  | cons a s ih =>
    rw [rowsFrom]
    split
    · exact Nat.succ_pos _
    · split
      · exact ih _
      · exact Nat.succ_pos _

theorem rowsFrom_singleton (row : List α) (a : α) :
    (rowsFrom width newline row [a] = [row ++ [a]] ∧ row.length + 1 < width) ∨
      ∃ full, rowsFrom width newline row [a] = [full, []] := by
  rw [rowsFrom]
  by_cases hnewline : a = newline
  · rw [if_pos hnewline]
    exact Or.inr ⟨row, rfl⟩
  rw [if_neg hnewline]
  by_cases hroom : row.length + 1 < width
  · rw [if_pos hroom]
    exact Or.inl ⟨rfl, hroom⟩
  · rw [if_neg hroom]
    exact Or.inr ⟨row ++ [a], rfl⟩

variable {width}

/-- **A text goes on in its last row.** -/
theorem rowsFrom_split (hwidth : 0 < width) (s : List α) : ∀ row : List α, row.length < width →
    ∃ init last, rowsFrom width newline row s = init ++ [last] ∧ last.length < width ∧
      ∀ t, rowsFrom width newline row (s ++ t) = init ++ rowsFrom width newline last t := by
  induction s with
  | nil => exact fun row hrow => ⟨[], row, rfl, hrow, fun t => rfl⟩
  | cons a s ih =>
    intro row hrow
    by_cases hnewline : a = newline
    · obtain ⟨init, last, hs, hlast, hgo⟩ := ih [] hwidth
      refine ⟨row :: init, last, ?_, hlast, fun t => ?_⟩
      · rw [rowsFrom, if_pos hnewline, hs, List.cons_append]
      · rw [List.cons_append, rowsFrom, if_pos hnewline, hgo, List.cons_append]
    by_cases hroom : row.length + 1 < width
    · obtain ⟨init, last, hs, hlast, hgo⟩ := ih (row ++ [a]) (by rwa [List.length_append])
      refine ⟨init, last, ?_, hlast, fun t => ?_⟩
      · rw [rowsFrom, if_neg hnewline, if_pos hroom, hs]
      · rw [List.cons_append, rowsFrom, if_neg hnewline, if_pos hroom, hgo]
    · obtain ⟨init, last, hs, hlast, hgo⟩ := ih [] hwidth
      refine ⟨(row ++ [a]) :: init, last, ?_, hlast, fun t => ?_⟩
      · rw [rowsFrom, if_neg hnewline, if_neg hroom, hs, List.cons_append]
      · rw [List.cons_append, rowsFrom, if_neg hnewline, if_neg hroom, hgo, List.cons_append]

/-- **One more item on a page** that shows the last `height + 1` rows. -/
theorem rtake_layout_concat (hwidth : 0 < width) (height : Nat) (s : List α) :
    ∃ init last, (layout width newline s).rtake (height + 1) = init ++ [last] ∧
      last.length < width ∧
      init.length ≤ height ∧ ∀ a, (layout width newline (s ++ [a])).rtake (height + 1) =
        (init ++ rowsFrom width newline last [a]).rtake (height + 1) := by
  obtain ⟨init, last, hs, hlast, hgo⟩ := rowsFrom_split newline hwidth s [] hwidth
  refine ⟨init.rtake height, last, ?_, hlast, ?_, fun a => ?_⟩
  · rw [layout, hs, List.rtake_concat_succ]
  · rw [List.rtake, List.length_drop]
    omega
  · have hpos := rowsFrom_length_pos width newline last [a]
    rw [layout, hgo, rtake_rtake_append init (by omega)]

end

end Base
