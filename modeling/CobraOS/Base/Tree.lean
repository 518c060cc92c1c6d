import CobraOS.Base.Chain

/-!
# Trees of linked nodes

The nodes of a tree hold three pointers, to the parent, to the first child and to the next sibling.
`IsTree` says that the three agree: the children of every node are a chain, they are exactly the
nodes whose parent it is, and every live node is under the root.  A tree stays a tree when a new
node becomes the first child of a live one (`IsTree.add`), and when a node without children is taken
out (`IsTree.remove`).
-/

namespace Base

/-- The live nodes and their pointers. -/
structure Links (α : Type*) where
  live : Set α
  parent : α → Option α
  firstChild : α → Option α
  next : α → Option α

variable {α : Type*}

/-- The node is reached from `r` going down. -/
inductive Under (L : Links α) (r : α) : α → Prop
  | root : Under L r r
  | child {p c : α} : Under L r p → L.parent c = some p → Under L r c

/-- The nodes are a tree with the root `r`, and `kids` are the lists of children. -/
structure IsTree (L : Links α) (r : α) (kids : α → List α) : Prop where
  chain : ∀ a, Chain L.next (L.firstChild a) (kids a)
  mem : ∀ a c, c ∈ kids a ↔ L.parent c = some a
  root_live : r ∈ L.live
  root_parent : L.parent r = none
  live : ∀ a c, L.parent c = some a → c ∈ L.live ∧ a ∈ L.live
  under : ∀ a ∈ L.live, Under L r a

/-- `l` leads down from one node to another, each a child of the one before. -/
def Descent (kids : α → List α) : α → List α → α → Prop
  | a, [], b => a = b
  | a, c :: l, b => c ∈ kids a ∧ Descent kids c l b

namespace Descent

variable {kids : α → List α} {a b c : α}

theorem concat : ∀ {l : List α} {a : α}, Descent kids a l b → c ∈ kids b →
    Descent kids a (l ++ [c]) c := by
  intro l
  induction l with
  | nil =>
    intro a h hc
    have hab : a = b := h
    exact ⟨hab ▸ hc, rfl⟩
  | cons x l ih =>
    intro a h hc
    exact ⟨h.1, ih h.2 hc⟩

theorem split : ∀ {l : List α} {a : α}, Descent kids a l b →
    l = [] ∧ a = b ∨ ∃ l' p, l = l' ++ [b] ∧ Descent kids a l' p ∧ b ∈ kids p := by
  intro l
  induction l with
  | nil => exact fun h => Or.inl ⟨rfl, h⟩
  | cons x l ih =>
    intro a h
    right
    obtain ⟨rfl, rfl⟩ | ⟨l', p, rfl, hp, hb⟩ := ih h.2
    · exact ⟨[], a, rfl, rfl, h.1⟩
    · exact ⟨x :: l', p, rfl, ⟨h.1, hp⟩, hb⟩

end Descent

namespace IsTree

variable {L : Links α} {r a p c : α} {kids : α → List α}

theorem kids_live (h : IsTree L r kids) (hc : c ∈ kids a) : c ∈ L.live :=
  (h.live a c ((h.mem a c).mp hc)).1

theorem kids_ne (h : IsTree L r kids) (ha : a ∉ L.live) (hc : c ∈ kids p) : c ≠ a :=
  fun he => ha (he ▸ h.kids_live hc)

theorem parent_ne (h : IsTree L r kids) (hleaf : kids a = []) (hc : L.parent c = some p) :
    p ≠ a := by
  rintro rfl
  have hmem := (h.mem p c).mpr hc
  rw [hleaf] at hmem
  cases hmem

theorem eq_root (h : IsTree L r kids) (ha : a ∈ L.live) (hp : L.parent a = none) : a = r := by
  cases h.under a ha with
  | root => rfl
  | child _ hc => rw [hp] at hc; exact absurd hc (by simp)

/-- **There is exactly one way down** from the root to a live node. -/
theorem existsUnique_descent (h : IsTree L r kids) (ha : a ∈ L.live) :
    ∃! l, Descent kids r l a := by
  suffices hu : ∀ b, Under L r b → ∃! l, Descent kids r l b from hu a (h.under a ha)
  intro b hb
  induction hb with
  | root =>
    refine ⟨[], rfl, fun l hl => ?_⟩
    obtain ⟨rfl, -⟩ | ⟨l', p, rfl, -, hr⟩ := hl.split
    · rfl
    · have := (h.mem p r).mp hr
      rw [h.root_parent] at this
      cases this
  | @child p c _ hc ih =>
    obtain ⟨l, hl, huniq⟩ := ih
    refine ⟨l ++ [c], hl.concat ((h.mem p c).mpr hc), fun l₁ hl₁ => ?_⟩
    obtain ⟨-, rfl⟩ | ⟨l', q, rfl, hl', hq⟩ := hl₁.split
    · rw [h.root_parent] at hc
      cases hc
    · have hqp := (h.mem q c).mp hq
      rw [hc, Option.some.injEq] at hqp
      rw [huniq l' (hqp ▸ hl')]

end IsTree

section

variable [DecidableEq α]

/-- The new node `a` becomes the first child of `p`. -/
def Links.add (L : Links α) (p a : α) : Links α where
  live := insert a L.live
  parent := Function.update L.parent a (some p)
  firstChild := Function.update (Function.update L.firstChild p (some a)) a none
  next := Function.update L.next a (L.firstChild p)

/-- The child `c` of `p` is taken out; `prev` is the sibling before it. -/
def Links.remove (L : Links α) (p c : α) (prev : Option α) : Links α where
  live := L.live \ {c}
  parent := Function.update L.parent c none
  firstChild :=
    match prev with
    | none => Function.update L.firstChild p (L.next c)
    | some _ => L.firstChild
  next :=
    Function.update
      (match prev with
        | none => L.next
        | some q => Function.update L.next q (L.next c)) c none

variable {L : Links α} {r a p c : α} {kids : α → List α}

/-! ### A new first child -/

section

variable {x : α}

theorem Links.add_next (L : Links α) (p : α) (hx : x ≠ a) : (L.add p a).next x = L.next x :=
  Function.update_of_ne hx _ _

theorem Links.add_parent (L : Links α) (p : α) (hx : x ≠ a) : (L.add p a).parent x = L.parent x :=
  Function.update_of_ne hx _ _

theorem Links.add_parent_self (L : Links α) (p a : α) : (L.add p a).parent a = some p :=
  Function.update_self _ _ _

theorem IsTree.add_chain (h : IsTree L r kids) (hp : p ∈ L.live) (ha : a ∉ L.live) (x : α) :
    Chain (L.add p a).next ((L.add p a).firstChild x)
      (Function.update (Function.update kids p (a :: kids p)) a [] x) := by
  have hpa : p ≠ a := fun he => ha (he ▸ hp)
  have hchain : ∀ y, Chain (L.add p a).next (L.firstChild y) (kids y) := fun y =>
    (h.chain y).congr (fun c hc => L.add_next p (h.kids_ne ha hc))
  by_cases hxa : x = a
  · simp [Links.add, hxa]
  · rw [Function.update_of_ne hxa]
    by_cases hxp : x = p
    · rw [hxp, Function.update_self]
      refine ⟨by simp [Links.add, Function.update_of_ne hpa], ?_⟩
      show Chain (L.add p a).next (Function.update L.next a (L.firstChild p) a) _
      rw [Function.update_self]
      exact hchain p
    · rw [Function.update_of_ne hxp]
      show Chain _ (Function.update (Function.update L.firstChild p (some a)) a none x) _
      rw [Function.update_of_ne hxa, Function.update_of_ne hxp]
      exact hchain x

theorem IsTree.add_mem (h : IsTree L r kids) (hp : p ∈ L.live) (ha : a ∉ L.live) (x c : α) :
    c ∈ Function.update (Function.update kids p (a :: kids p)) a [] x ↔
      (L.add p a).parent c = some x := by
  have hpa : p ≠ a := fun he => ha (he ▸ hp)
  by_cases hca : c = a
  · subst hca
    rw [L.add_parent_self]
    by_cases hxa : x = c
    · simp [hxa, hpa]
    · rw [Function.update_of_ne hxa]
      by_cases hxp : x = p
      · simp [hxp]
      · rw [Function.update_of_ne hxp]
        exact iff_of_false (fun hc => h.kids_ne ha hc rfl) (fun he => hxp (Option.some.inj he).symm)
  · rw [L.add_parent p hca]
    by_cases hxa : x = a
    · -- Nobody's parent is the new node.
      have hno : L.parent c ≠ some a := fun hc => ha (h.live a c hc).2
      simp [hxa, hno]
    · rw [Function.update_of_ne hxa]
      by_cases hxp : x = p
      · rw [hxp, Function.update_self, List.mem_cons, h.mem]
        simp [hca]
      · rw [Function.update_of_ne hxp]
        exact h.mem x c

theorem IsTree.add_under (h : IsTree L r kids) (ha : a ∉ L.live) (hu : Under L r x)
    (hx : x ∈ L.live) :
    Under (L.add p a) r x := by
  induction hu with
  | root => exact .root
  | @child y c _ hc ih =>
    have hca : c ≠ a := fun he => ha (he ▸ hx)
    exact .child (ih (h.live y c hc).2) ((L.add_parent p hca).trans hc)

/-- **A new first child.** -/
theorem IsTree.add (h : IsTree L r kids) (hp : p ∈ L.live) (ha : a ∉ L.live) :
    IsTree (L.add p a) r (Function.update (Function.update kids p (a :: kids p)) a []) := by
  have hra : r ≠ a := fun he => ha (he ▸ h.root_live)
  refine ⟨h.add_chain hp ha, h.add_mem hp ha, Or.inr h.root_live,
    (L.add_parent p hra).trans h.root_parent, fun x c hc => ?_, fun x hx => ?_⟩
  · by_cases hca : c = a
    · subst hca
      rw [L.add_parent_self] at hc
      cases hc
      exact ⟨Or.inl rfl, Or.inr hp⟩
    · rw [L.add_parent p hca] at hc
      exact ⟨Or.inr (h.live x c hc).1, Or.inr (h.live x c hc).2⟩
  · rcases hx with rfl | hx
    · exact .child (h.add_under ha (h.under p hp) hp) (L.add_parent_self p x)
    · exact h.add_under ha (h.under x hx) hx

/-! ### A node without children -/

variable {y : α} {prev : Option α} {pre post : List α}

theorem Links.remove_parent (L : Links α) (p : α) (prev : Option α) (hx : x ≠ c) :
    (L.remove p c prev).parent x = L.parent x :=
  Function.update_of_ne hx _ _

theorem Links.remove_parent_self (L : Links α) (p c : α) (prev : Option α) :
    (L.remove p c prev).parent c = none :=
  Function.update_self _ _ _

/-- A node that is neither taken out nor before the one that is keeps its sibling. -/
theorem Links.remove_next (L : Links α) (p : α) (hx : x ≠ c) (hprev : x ∉ prev) :
    (L.remove p c prev).next x = L.next x := by
  unfold Links.remove
  cases prev with
  | none => exact Function.update_of_ne hx _ _
  | some q =>
    have hxq : x ≠ q := fun he => hprev (by rw [he]; rfl)
    simp only
    rw [Function.update_of_ne hx, Function.update_of_ne hxq]

theorem Links.remove_next_prev (L : Links α) (p : α) (hx : x ≠ c) (hprev : x ∈ prev) :
    (L.remove p c prev).next x = L.next c := by
  unfold Links.remove
  rw [Option.mem_def.mp hprev]
  simp only
  rw [Function.update_of_ne hx, Function.update_self]

theorem Links.remove_firstChild (L : Links α) (c : α) (prev : Option α) (hx : x ≠ p) :
    (L.remove p c prev).firstChild x = L.firstChild x := by
  unfold Links.remove
  cases prev with
  | none => exact Function.update_of_ne hx _ _
  | some q => rfl

theorem Links.remove_firstChild_self (L : Links α) (p c : α) (pre : List α) :
    (L.remove p c pre.getLast?).firstChild p = if pre = [] then L.next c else L.firstChild p := by
  unfold Links.remove
  cases hg : pre.getLast? with
  | none =>
    rw [if_pos (List.getLast?_eq_none_iff.mp hg)]
    exact Function.update_self _ _ _
  | some q =>
    rw [if_neg (fun he => by rw [he] at hg; exact absurd hg (by simp))]

theorem IsTree.remove_chain (h : IsTree L r kids) (hsplit : kids p = pre ++ c :: post) (x : α) :
    Chain (L.remove p c pre.getLast?).next ((L.remove p c pre.getLast?).firstChild x)
      (Function.update kids p (pre ++ post) x) := by
  have hchain := h.chain p
  rw [hsplit] at hchain
  have hout : c ∉ pre ++ post := (List.nodup_cons.mp (List.nodup_middle.mp hchain.nodup)).1
  have hlast : ∀ {y}, y ∈ pre.getLast? → y ∈ pre := fun hy => List.mem_of_getLast? hy
  by_cases hxp : x = p
  · subst hxp
    rw [Function.update_self, L.remove_firstChild_self]
    refine hchain.remove _ (fun y hy => ?_) (fun y hy hl => ?_)
    · exact L.remove_next_prev x (fun he => hout (List.mem_append_left _ (he ▸ hlast hy))) hy
    · exact L.remove_next x (fun he => hout (he ▸ hy)) hl
  · rw [Function.update_of_ne hxp, L.remove_firstChild c _ hxp]
    -- The list of another node shares nothing with that of `p`.
    have hapart : ∀ y ∈ kids x, y ∉ kids p := fun y hy hy' => hxp (Option.some.inj
      (((h.mem x y).mp hy).symm.trans ((h.mem p y).mp hy')))
    refine (h.chain x).congr (fun y hy => L.remove_next p ?_ (fun hl => ?_))
    · rintro rfl
      exact hapart y hy (by rw [hsplit]; simp)
    · exact hapart y hy (by rw [hsplit]; exact List.mem_append_left _ (hlast hl))

theorem IsTree.remove_mem (h : IsTree L r kids) (hsplit : kids p = pre ++ c :: post) (x y : α) :
    y ∈ Function.update kids p (pre ++ post) x ↔ (L.remove p c pre.getLast?).parent y = some x := by
  have hc : L.parent c = some p := (h.mem p c).mp (by rw [hsplit]; simp)
  have hnd := (h.chain p).nodup
  rw [hsplit] at hnd
  have hout : c ∉ pre ++ post := (List.nodup_cons.mp (List.nodup_middle.mp hnd)).1
  by_cases hyc : y = c
  · subst hyc
    rw [L.remove_parent_self]
    by_cases hxp : x = p
    · rw [hxp, Function.update_self]
      simp [hout]
    · rw [Function.update_of_ne hxp, h.mem, hc]
      simp [Ne.symm hxp]
  · rw [L.remove_parent p _ hyc]
    by_cases hxp : x = p
    · rw [hxp, Function.update_self, ← h.mem, hsplit]
      simp [hyc]
    · rw [Function.update_of_ne hxp]
      exact h.mem x y

theorem IsTree.remove_under (h : IsTree L r kids) (hleaf : kids c = []) (hu : Under L r x)
    (hx : x ≠ c) :
    Under (L.remove p c prev) r x := by
  induction hu with
  | root => exact .root
  | @child y z _ hz ih =>
    exact .child (ih (h.parent_ne hleaf hz)) ((L.remove_parent p prev hx).trans hz)

/-- **A node without children is taken out.** -/
theorem IsTree.remove (h : IsTree L r kids) {pre post : List α} (hleaf : kids c = [])
    (hsplit : kids p = pre ++ c :: post) :
    IsTree (L.remove p c pre.getLast?) r (Function.update kids p (pre ++ post)) := by
  have hrc : r ≠ c := by
    rintro rfl
    have hr := (h.mem p r).mp (by rw [hsplit]; simp)
    rw [h.root_parent] at hr
    cases hr
  refine ⟨h.remove_chain hsplit, h.remove_mem hsplit, ⟨h.root_live, hrc⟩,
    (L.remove_parent p _ hrc).trans h.root_parent, fun x y hy => ?_,
    fun x hx => h.remove_under hleaf (h.under x hx.1) hx.2⟩
  by_cases hyc : y = c
  · rw [hyc, L.remove_parent_self] at hy
    cases hy
  · rw [L.remove_parent p _ hyc] at hy
    exact ⟨⟨(h.live x y hy).1, hyc⟩, ⟨(h.live x y hy).2, h.parent_ne hleaf hy⟩⟩

end

end
end Base
