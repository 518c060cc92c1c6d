import CobraOS.Base.Partial
import CobraOS.Ramfs.Runs

/-!
# What paths lead to

A path that is resolved from live nodes leads to a live node or to none, and its resolution ends
(`ramfsResolve_spec`).
-/

namespace CobraOS.Ramfs

open Base

variable {fs : Fs} {r a : Nat} {kids : Nat → List Nat} {name path : Bytes}

theorem childNamed_mem {l : List Nat} (hc : childNamed fs l name = some a) : a ∈ l :=
  List.mem_of_find?_eq_some hc

theorem finddir_live (h : Tree fs r kids) (ha : Live fs a) (name : Bytes) :
    Returns (defaultFinddir fs a name) (fun x => ∀ c ∈ x, Live fs c) := by
  obtain ⟨n, hn⟩ := live_iff.mp ha
  rw [finddir_spec h hn]
  refine .some (fun c hc => ?_)
  cases hd : hasFlag n.type fsDirectory with
  | false =>
    rw [hd] at hc
    cases hc
  | true =>
    rw [hd, if_pos rfl] at hc
    exact h.tree.kids_live (childNamed_mem hc)

theorem stepInto_spec (h : Tree fs r kids) (ha : Live fs a) (token : Bytes) :
    Returns (stepInto fs a token) (fun x => ∀ c ∈ x.2, Live fs c) := by
  obtain ⟨n, hn⟩ := live_iff.mp ha
  unfold stepInto
  refine .ite (fun _ => .some ?_) (fun _ => .ite (fun _ => ?_) (fun _ => ?_))
  · intro c hc
    rwa [← Option.some.inj hc]
  · simp only [hn, Option.bind_eq_bind, Option.bind_some]
    cases hp : n.parent with
    | none => exact .some (fun c hc => by rwa [← Option.some.inj hc])
    | some p =>
      have hlive : Live fs p := (h.tree.live p a (by simp [linksOf, hn, hp])).2
      obtain ⟨m, hm⟩ := live_iff.mp hlive
      simp only [hm, Option.bind_some]
      exact .some (fun c hc => by rwa [← Option.some.inj hc])
  · exact (finddir_live h ha token).bind (fun c hc => .some hc)

theorem resolveLoop_spec (h : Tree fs r kids) : ∀ {fuel : Nat} {a : Nat}
    {p : Bytes}, p.length ≤ fuel →
    Live fs a → Returns (resolveLoop fs fuel a p) (fun x => ∀ c ∈ x.2, Live fs c) := by
  intro fuel
  induction fuel with
  | zero =>
    intro a p hp ha
    obtain rfl : p = [] := List.length_eq_zero_iff.mp (Nat.le_zero.mp hp)
    exact .some (fun c hc => by rwa [← Option.some.inj hc])
  | succ fuel ih =>
    intro a p hp ha
    cases p with
    | nil => exact .some (fun c hc => by rwa [← Option.some.inj hc])
    | cons x p =>
      have hrest : ((x :: p).dropWhile (· != slash)).length ≤ (x :: p).length :=
        (List.dropWhile_suffix _).length_le
      rw [resolveLoop]
      refine .ite (fun _ => ih ?_ ha)
        (fun htoken => .ite (fun _ => .some (fun c hc => by cases hc)) (fun _ => ?_))
      · simp only [List.length_drop]
        omega
      · refine (stepInto_spec h ha _).bind (fun y hy => ?_)
        obtain ⟨printed, next⟩ := y
        cases next with
        | none => exact .some (fun c hc => by cases hc)
        | some b =>
          refine (ih ?_ (hy b rfl)).bind (fun z hz => .some hz)
          -- a component is not empty
          have hx : (x != slash) = true := by
            by_contra hx
            exact htoken (List.takeWhile_cons_of_neg hx)
          have hdrop : (x :: p).dropWhile (· != slash) = p.dropWhile (· != slash) :=
            List.dropWhile_cons_of_pos hx
          rw [hdrop]
          have h1 := (List.dropWhile_suffix (· == slash) (l := p.dropWhile (· != slash))).length_le
          have h2 := (List.dropWhile_suffix (· != slash) (l := p)).length_le
          simp only [List.length_cons] at hp
          omega

/-- **A path leads to a live node**, if to any. -/
theorem ramfsResolve_spec (h : Tree fs r kids) (hcwd : ∀ d ∈ fs.cwd, Live fs d) (path : Bytes) :
    Returns (ramfsResolve fs path) (fun x => ∀ c ∈ x.2, Live fs c) := by
  have hroot := h.rootDir.live
  have hstart : Live fs (if path.head? = some slash then r else fs.cwd.getD r) := by
    split
    · exact hroot
    · cases hc : fs.cwd with
      | none => exact hroot
      | some d => exact hcwd d hc
  unfold ramfsResolve vfsResolvePath
  rw [h.root]
  refine .ite (fun _ => .some (fun c hc => by cases hc))
    (fun _ => .ite (fun _ => .some ?_) (fun _ => ?_))
  · intro c hc
    rwa [← Option.some.inj hc]
  · exact resolveLoop_spec h (Nat.le_refl _) hstart

end CobraOS.Ramfs
