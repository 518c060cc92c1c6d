import Mathlib.Tactic

/-!
# Copying inside one memory

Places are copied one after another, and each copy reads what the copies before it have left.  When
no place is read after it was written, and none is written twice, the result is the same as if
everything had been read first (`copyAll_spec`).  So ranges may overlap if the order of the copies
is right: upwards to lower places, downwards to higher ones (`pairwise_range`,
`pairwise_range_reverse`).
-/

namespace Base

variable {ι A V : Type*} [DecidableEq A]

/-- What is at `src i` is copied to `dst i`, for one item of the list after another. -/
def copyAll (dst src : ι → A) (is : List ι) (m : A → V) : A → V :=
  is.foldl (fun m i => Function.update m (dst i) (m (src i))) m

/-- **Copies as if everything had been read first.** -/
theorem copyAll_spec {dst src : ι → A} {is : List ι} (hread : is.Pairwise fun i j => dst i ≠ src j)
    (hwrite : is.Pairwise fun i j => dst i ≠ dst j) (m : A → V) :
    (∀ i ∈ is, copyAll dst src is m (dst i) = m (src i)) ∧
      ∀ a, (∀ i ∈ is, a ≠ dst i) → copyAll dst src is m a = m a := by
  induction is generalizing m with
  | nil => exact ⟨fun i hi => absurd hi List.not_mem_nil, fun a _ => rfl⟩
  | cons i is ih =>
    obtain ⟨hread, hread'⟩ := List.pairwise_cons.mp hread
    obtain ⟨hwrite, hwrite'⟩ := List.pairwise_cons.mp hwrite
    obtain ⟨hcopied, hkept⟩ := ih hread' hwrite' (Function.update m (dst i) (m (src i)))
    refine ⟨fun j hj => ?_, fun a ha => ?_⟩
    · obtain rfl | hj := List.mem_cons.mp hj
      · exact (hkept _ hwrite).trans (Function.update_self ..)
      · exact (hcopied j hj).trans (Function.update_of_ne (hread j hj).symm ..)
    · refine (hkept a fun j hj => ha j (List.mem_cons_of_mem _ hj)).trans ?_
      exact Function.update_of_ne (ha i List.mem_cons_self) ..

/-! ### Ranges -/

variable {n : Nat}

theorem pairwise_range {R : Nat → Nat → Prop} (h : ∀ i j, i < j → j < n → R i j) :
    (List.range n).Pairwise R :=
  List.pairwise_lt_range.imp_of_mem fun _ hj hlt => h _ _ hlt (List.mem_range.mp hj)

theorem pairwise_range_reverse {R : Nat → Nat → Prop} (h : ∀ i j, i < j → j < n → R j i) :
    (List.range n).reverse.Pairwise R :=
  List.pairwise_reverse.mpr (pairwise_range h)

end Base
