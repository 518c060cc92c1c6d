import CobraOS.Base.Partial
import CobraOS.Base.Tree
import CobraOS.Ramfs.Data

/-!
# The nodes of the file system are a tree

`Tree fs r kids` is the invariant of the file system: the pointers of its nodes are a tree with the
root `r` in which only directories have children, and every buffer of data belongs to one node.  The
functions that create and delete nodes are the two operations on trees (`ramfsCreate_spec`,
`ramfsDelete_spec`).  What a walk over a list of children or a path leads to is live
(`finddir_spec`, `ramfsResolve_spec`).
-/

namespace CobraOS.Ramfs

open Base

/-! ### Pointers and contents -/

/-- The pointers of the nodes. -/
def linksOf (fs : Fs) : Links Nat where
  live := {a | (fs.nodes a).isSome}
  parent a := (fs.nodes a).bind VfsNode.parent
  firstChild a := (fs.nodes a).bind VfsNode.children
  next := links fs

/-- A live node with the flag `bit`. -/
def Flagged (bit : Nat) (fs : Fs) (a : Nat) : Prop :=
  ∃ n, contents fs a = some n ∧ hasFlag n.type bit = true

def Live (fs : Fs) (a : Nat) : Prop := a ∈ (linksOf fs).live

variable {fs fs' : Fs} {a p r : Nat} {n : VfsNode} {kids kids' : Nat → List Nat} {bit : Nat}

theorem live_iff : Live fs a ↔ ∃ n, fs.nodes a = some n := Option.isSome_iff_exists

theorem live_contents : Live fs a ↔ (contents fs a).isSome = true := by
  rw [contents, Option.isSome_map]
  rfl

theorem Live.mk (h : fs.nodes a = some n) : Live fs a := live_iff.mpr ⟨n, h⟩

theorem Flagged.live (h : Flagged bit fs a) : Live fs a := by
  obtain ⟨n, hn, -⟩ := h
  rw [live_contents, hn]
  rfl

theorem flagged_iff (h : fs.nodes a = some n) : Flagged bit fs a ↔ hasFlag n.type bit = true := by
  simp [Flagged, contents, h, VfsNode.bare]

/-- **What a write to a node does** to pointers and contents. -/
theorem linksOf_setNode (fs : Fs) (a : Nat) (n : VfsNode) :
    linksOf (fs.setNode a n) =
      { live := insert a (linksOf fs).live
        parent := Function.update (linksOf fs).parent a n.parent
        firstChild := Function.update (linksOf fs).firstChild a n.children
        next := Function.update (linksOf fs).next a n.next } := by
  have hlive : {b | (Function.update fs.nodes a (some n) b).isSome = true} =
      insert a {b | (fs.nodes b).isSome = true} := by
    ext b
    by_cases hb : b = a
    · simp [hb]
    · simp [hb]
  have hfield : ∀ f : VfsNode → Option Nat,
      (fun b => (Function.update fs.nodes a (some n) b).bind f) =
        Function.update (fun b => (fs.nodes b).bind f) a (f n) := by
    intro f
    funext b
    by_cases hb : b = a
    · simp [hb]
    · simp [hb]
  simp only [linksOf, Fs.setNode, hlive, hfield]
  congr 1
  exact hfield VfsNode.next

theorem contents_setNode (fs : Fs) (a : Nat) (n : VfsNode) :
    contents (fs.setNode a n) = Function.update (contents fs) a (some n.bare) := by
  funext b
  by_cases hb : b = a
  · simp [contents, Fs.setNode, hb]
  · simp [contents, Fs.setNode, hb]

theorem update_field (h : fs.nodes a = some n) {β : Type} (f : VfsNode → Option β) :
    Function.update (fun b => (fs.nodes b).bind f) a (f n) = fun b => (fs.nodes b).bind f := by
  rw [Function.update_eq_self_iff, h]
  rfl

theorem linksOf_setNext (h : fs.nodes a = some n) (q : Option Nat) :
    linksOf (fs.setNode a { n with next := q }) =
      { linksOf fs with next := Function.update (linksOf fs).next a q } := by
  rw [linksOf_setNode, Set.insert_eq_of_mem (live_iff.mpr ⟨n, h⟩)]
  exact congrArg₂
    (fun x y => Links.mk (linksOf fs).live x y (Function.update (linksOf fs).next a q))
    (update_field h VfsNode.parent) (update_field h VfsNode.children)

theorem linksOf_setChildren (h : fs.nodes a = some n) (q : Option Nat) :
    linksOf (fs.setNode a { n with children := q }) =
      { linksOf fs with firstChild := Function.update (linksOf fs).firstChild a q } := by
  rw [linksOf_setNode, Set.insert_eq_of_mem (live_iff.mpr ⟨n, h⟩)]
  exact congrArg₂
    (fun x y => Links.mk (linksOf fs).live x (Function.update (linksOf fs).firstChild a q) y)
    (update_field h VfsNode.parent) (update_field h VfsNode.next)

theorem linksOf_data (h : fs.nodes a = some n) {m : VfsNode} (hp : m.parent = n.parent)
    (hc : m.children = n.children) (hn : m.next = n.next) :
    linksOf (fs.setNode a m) = linksOf fs := by
  rw [linksOf_setNode, hp, hc, hn, Set.insert_eq_of_mem (live_iff.mpr ⟨n, h⟩)]
  have hpc := congrArg₂ (fun x y => Links.mk (linksOf fs).live x y)
    (update_field h VfsNode.parent) (update_field h VfsNode.children)
  exact congr hpc (update_field h VfsNode.next)

/-- A write to the pointers of a live node leaves the contents alone. -/
theorem contents_pointers (h : fs.nodes a = some n) {m : VfsNode} (hm : m.bare = n.bare) :
    contents (fs.setNode a m) = contents fs := by
  rw [contents_setNode, hm, Function.update_eq_self_iff, contents, h]
  rfl

theorem linksOf_freeNode (fs : Fs) (a : Nat) :
    linksOf (fs.freeNode a) =
      { live := (linksOf fs).live \ {a}
        parent := Function.update (linksOf fs).parent a none
        firstChild := Function.update (linksOf fs).firstChild a none
        next := Function.update (linksOf fs).next a none } := by
  have hlive : {b | (Function.update fs.nodes a none b).isSome = true} =
      {b | (fs.nodes b).isSome = true} \ {a} := by
    ext b
    by_cases hb : b = a
    · simp [hb]
    · simp [hb]
  have hfield : ∀ f : VfsNode → Option Nat, (fun b => (Function.update fs.nodes a none b).bind f) =
      Function.update (fun b => (fs.nodes b).bind f) a none := by
    intro f
    funext b
    by_cases hb : b = a
    · simp [hb]
    · simp [hb]
  simp only [linksOf, Fs.freeNode, hlive, hfield]
  congr 1
  exact hfield VfsNode.next

theorem contents_freeNode (fs : Fs) (a : Nat) :
    contents (fs.freeNode a) = Function.update (contents fs) a none := by
  funext b
  by_cases hb : b = a
  · simp [contents, Fs.freeNode, hb]
  · simp [contents, Fs.freeNode, hb]

/-! ### The invariant -/

structure Tree (fs : Fs) (r : Nat) (kids : Nat → List Nat) : Prop where
  tree : IsTree (linksOf fs) r kids
  root : fs.root = some r
  rootDir : Flagged fsDirectory fs r
  dir : ∀ a c, c ∈ kids a → Flagged fsDirectory fs a
  addr : ∀ a, Live fs a → a < 4294967296
  owned : Owned (contents fs) fs.buffers

namespace Tree

theorem kids_short (h : Tree fs r kids) : (kids a).length < nodeFuel := by
  have := (h.tree.chain a).length_le (n := 4294967296) (fun c hc => h.addr c (h.tree.kids_live hc))
  exact Nat.lt_succ_of_le this

theorem chain (h : Tree fs r kids) (hn : fs.nodes a = some n) :
    Chain (links fs) n.children (kids a) := by
  have := h.tree.chain a
  have hf : (linksOf fs).firstChild a = n.children := by simp [linksOf, hn]
  rwa [hf] at this

theorem parent_of_ne (h : Tree fs r kids) (hn : fs.nodes a = some n) (ha : a ≠ r) :
    ∃ p, n.parent = some p ∧ Live fs p ∧ a ∈ kids p := by
  have hf : (linksOf fs).parent a = n.parent := by simp [linksOf, hn]
  cases hp : n.parent with
  | none => exact absurd (h.tree.eq_root (Live.mk hn) (hf.trans hp)) ha
  | some p => exact ⟨p, rfl, (h.tree.live p a (hf.trans hp)).2, (h.tree.mem p a).mpr (hf.trans hp)⟩

end Tree

/-! ### Walks -/

theorem walk_eq (stop : Nat → VfsNode → Bool) : ∀ {l : List Nat} {fuel : Nat} {prev p : Option Nat},
    Chain (links fs) p l → (∀ a ∈ l, Live fs a) → l.length ≤ fuel →
    walk fs stop fuel prev p =
      locate (links fs) (fun a => (fs.nodes a).any (stop a)) (fuel + 1) prev p := by
  intro l
  induction l with
  | nil =>
    intro fuel prev p h _ _
    rw [Chain.nil_iff] at h
    subst h
    cases fuel <;> rfl
  | cons a l ih =>
    intro fuel prev p h hl hf
    obtain ⟨rfl, h⟩ := h
    obtain ⟨n, hn⟩ := live_iff.mp (hl a (by simp))
    have hnext : links fs a = n.next := by simp [links, hn]
    obtain ⟨fuel, rfl⟩ : ∃ m, fuel = m + 1 := ⟨fuel - 1, by simp at hf; omega⟩
    rw [hnext] at h
    rw [walk, locate, hn]
    simp only [Option.bind_eq_bind, Option.bind_some, Option.any_some, hnext]
    rw [ih h (fun b hb => hl b (by simp [hb])) (by simpa using hf)]

variable {name : Bytes}

/-- The first child with the name. -/
def childNamed (fs : Fs) (l : List Nat) (name : Bytes) : Option Nat :=
  l.find? (fun a => (fs.nodes a).any (fun c => c.name == name))

/-- **A name leads to a child of the directory**, the first that has it. -/
theorem finddir_spec (h : Tree fs r kids) (hn : fs.nodes a = some n) :
    defaultFinddir fs a name =
      some (if hasFlag n.type fsDirectory then childNamed fs (kids a) name else none) := by
  have hwalk : walk fs (fun _ c => c.name == name) nodeFuel none n.children = _ :=
    walk_eq _ (h.chain hn) (fun c hc => h.tree.kids_live hc) (Nat.le_of_lt h.kids_short)
  rw [locate_chain _ _ (h.chain hn) (Nat.lt_succ_of_lt h.kids_short)] at hwalk
  unfold defaultFinddir
  rw [hn]
  simp only [Option.bind_eq_bind, Option.bind_some, hwalk]
  cases hasFlag n.type fsDirectory with
  | false => rfl
  | true =>
    simp [childNamed, List.find?_eq_head?_dropWhile_not]

/-! ### Creation -/

/-- `fs'` is `fs` with the node `n` at `a`, which is the first child of `p`. -/
structure Created (fs fs' : Fs) (p a : Nat) (n : VfsNode) : Prop where
  fresh : fs.nodes a = none
  addr : a < 4294967296
  links : linksOf fs' = (linksOf fs).add p a
  contents : contents fs' = Function.update (contents fs) a (some n.bare)
  buffers : fs'.buffers = fs.buffers
  files : fs'.files = fs.files
  root : fs'.root = fs.root
  cwd : fs'.cwd = fs.cwd

/-- What `kmalloc` gives is not in use. -/
structure Fresh (fs : Fs) (size a : Nat) : Prop where
  nodes : fs.nodes a = none
  files : fs.files a = none
  buffers : fs.buffers a = none
  addr : a < 4294967296
  small : size ≤ maxRequest

theorem granted_fresh {answer : Option Nat} {size : Nat} (h : fs.granted size answer = some a) :
    Fresh fs size a := by
  obtain ⟨-, h⟩ := Option.filter_eq_some_iff.mp h
  simp only [Bool.and_eq_true, decide_eq_true_eq, Option.isNone_iff_eq_none] at h
  exact ⟨h.1.1.2, h.1.2, h.2, h.1.1.1.2.2, h.1.1.1.2.1⟩

theorem addChild_spec (hp : Live fs p) (ha : fs.nodes a = none) (haddr : a < 4294967296)
    (hn : n.children = none) : ∃ fs', addChild fs p a n = some fs' ∧ Created fs fs' p a n := by
  obtain ⟨m, hm⟩ := live_iff.mp hp
  have hpa : p ≠ a := by
    rintro rfl
    rw [ha] at hm
    cases hm
  let fs₁ := fs.setNode a { n with parent := some p, next := m.children }
  have hm₁ : fs₁.nodes p = some m := (Function.update_of_ne hpa _ _).trans hm
  have hfirst : (linksOf fs).firstChild p = m.children := by simp [linksOf, hm]
  refine ⟨fs₁.setNode p { m with children := some a }, ?_, ⟨ha, haddr, ?_, ?_, rfl, rfl, rfl, rfl⟩⟩
  · unfold addChild Fs.modify
    rw [hm]
    simp only [Option.bind_eq_bind, Option.bind_some]
    rw [hm₁]
    rfl
  · rw [linksOf_setChildren hm₁, linksOf_setNode]
    simp only [Links.add, hn, hfirst]
    rw [Function.update_comm hpa]
  · rw [contents_pointers hm₁ (show VfsNode.bare { m with children := some a } = m.bare from rfl),
      contents_setNode]
    rfl

/-- **A created node is the new first child**, and a call that fails changes nothing. -/
theorem ramfsCreate_spec (h : Tree fs r kids) (hn : fs.nodes p = some n) (name : Bytes) (type : Nat)
    (answer : Option Nat) : ∃ ret fs', ramfsCreate fs (some p) name type answer = some (ret, fs') ∧
      (ret < 0 ∧ fs' = fs ∨ ret = 0 ∧ hasFlag n.type fsDirectory = true ∧
        childNamed fs (kids p) name = none ∧
        ∃ a, fs.granted nodeBytes answer = some a ∧
          Created fs fs' p a (createVfsNode name type)) := by
  unfold ramfsCreate ramfsFind
  simp only
  rw [hn]
  simp only [Option.bind_eq_bind, Option.bind_some, finddir_spec h hn]
  cases hd : hasFlag n.type fsDirectory with
  | false => exact ⟨-1, fs, rfl, Or.inl ⟨by decide, rfl⟩⟩
  | true =>
    cases hf : childNamed fs (kids p) name with
    | some c => exact ⟨-2, fs, rfl, Or.inl ⟨by decide, rfl⟩⟩
    | none =>
      cases hg : fs.granted nodeBytes answer with
      | none => exact ⟨-3, fs, by simp, Or.inl ⟨by decide, rfl⟩⟩
      | some a =>
        have hfresh := granted_fresh hg
        obtain ⟨fs', hadd, hc⟩ :=
          addChild_spec (n := createVfsNode name type) (Live.mk hn) hfresh.nodes
          hfresh.addr rfl
        refine ⟨0, fs', ?_, Or.inr ⟨rfl, rfl, rfl, a, rfl, hc⟩⟩
        simp [hadd]

/-! ### Deletion -/

/-- `fs'` is `fs` without the child `a` of `p`, which stands behind `prev`, and without its data. -/
structure Deleted (fs fs' : Fs) (p a : Nat) (prev data : Option Nat) : Prop where
  links : linksOf fs' = (linksOf fs).remove p a prev
  contents : contents fs' = Function.update (contents fs) a none
  buffers : fs'.buffers = freed fs.buffers data
  files : fs'.files = fs.files
  root : fs'.root = fs.root
  cwd : fs'.cwd = fs.cwd

/-- The pointer that led to a node leads to `next`. -/
def skip (L : Links Nat) (p : Nat) (next : Option Nat) : Option Nat → Links Nat
  | none => { L with firstChild := Function.update L.firstChild p next }
  | some q => { L with next := Function.update L.next q next }

theorem unlink_spec (hp : Live fs p) {prev : Option Nat} (hprev : ∀ q ∈ prev, Live fs q)
    (next : Option Nat) : ∃ fs', unlink fs p prev next = some fs' ∧
      linksOf fs' = skip (linksOf fs) p next prev ∧
      contents fs' = contents fs ∧ fs'.buffers = fs.buffers ∧ fs'.files = fs.files ∧
      fs'.root = fs.root ∧ fs'.cwd = fs.cwd := by
  cases prev with
  | none =>
    obtain ⟨m, hm⟩ := live_iff.mp hp
    refine ⟨fs.setNode p { m with children := next }, by simp [unlink, Fs.modify, hm], ?_, ?_, rfl,
      rfl, rfl, rfl⟩
    · exact linksOf_setChildren hm next
    · exact contents_pointers hm rfl
  | some q =>
    obtain ⟨m, hm⟩ := live_iff.mp (hprev q rfl)
    refine ⟨fs.setNode q { m with next := next }, by simp [unlink, Fs.modify, hm], ?_, ?_, rfl,
      rfl, rfl, rfl⟩
    · exact linksOf_setNext hm next
    · exact contents_pointers hm rfl

theorem freeNode_setNode (fs : Fs) (a : Nat) (n : VfsNode) :
    (fs.setNode a n).freeNode a = fs.freeNode a := by
  simp [Fs.setNode, Fs.freeNode]

theorem freeData_spec (h : Owned (contents fs) fs.buffers) (hn : fs.nodes a = some n) :
    fs.freeData n.data = some { fs with buffers := freed fs.buffers n.data } := by
  unfold Fs.freeData
  cases hd : n.data with
  | none => rfl
  | some d =>
    obtain ⟨bytes, hb, -⟩ := h.held a n.bare d (by simp [contents, hn]) hd
    exact if_pos (by rw [hb]; rfl)

/-- A childless node is taken out of the list of its parent, and what is left without it is the tree
without it. -/
theorem removeChild_spec (h : IsTree (linksOf fs) r kids) (hshort : (kids p).length < nodeFuel)
    (hn : fs.nodes a = some n) (hp : n.parent = some p) (hleaf : n.children = none) :
    ∃ fs' pre post, kids p = pre ++ a :: post ∧ removeChild fs a = some fs' ∧
      Deleted fs (fs'.freeNode a) p a pre.getLast? none := by
  have hparent : (linksOf fs).parent a = some p := by simp [linksOf, hn, hp]
  have hmem : a ∈ kids p := (h.mem p a).mpr hparent
  have hlive : ∀ c ∈ kids p, Live fs c := fun c hc => h.kids_live hc
  obtain ⟨m, hm⟩ := live_iff.mp (h.live p a hparent).2
  have hchain : Chain (links fs) m.children (kids p) := by
    have := h.chain p
    rwa [show (linksOf fs).firstChild p = m.children by simp [linksOf, hm]] at this
  obtain ⟨pre, post, hsplit, hlocate⟩ := locate_mem none hchain hmem (Nat.lt_succ_of_lt hshort)
  have hstop : (fun x => (fs.nodes x).any (fun _ => x == a)) = fun x => x == a := by
    funext x
    by_cases hx : x = a
    · simp [hx, hn]
    · cases fs.nodes x <;> simp [hx]
  have hwalk : walk fs (fun x _ => x == a) nodeFuel none m.children =
      some (pre.getLast?, some a) := by
    rw [walk_eq _ hchain hlive (Nat.le_of_lt hshort), hstop, hlocate, Option.or_none]
  have hprev : ∀ q ∈ pre.getLast?, Live fs q := fun q hq => hlive q (by
    rw [hsplit]
    exact List.mem_append_left _ (List.mem_of_getLast? hq))
  obtain ⟨fs₂, hunlink, hlinks, hcont, hbuf, hfiles, hroot, hcwd⟩ :=
    unlink_spec (h.live p a hparent).2 hprev n.next
  obtain ⟨n₂, hn₂⟩ : ∃ n₂, fs₂.nodes a = some n₂ := by
    rw [← live_iff, live_contents, hcont, ← live_contents]
    exact Live.mk hn
  refine ⟨fs₂.setNode a { n₂ with parent := none, next := none }, pre, post, hsplit, ?_, ?_, ?_,
    hbuf, hfiles, hroot, hcwd⟩
  · unfold removeChild Fs.modify
    simp only [Option.bind_eq_bind, hn, Option.bind_some, hp, hm, hwalk, hunlink, hn₂]
  · rw [freeNode_setNode, linksOf_freeNode, hlinks]
    have hfirst : (linksOf fs).firstChild a = none := by simp [linksOf, hn, hleaf]
    have hnext : (linksOf fs).next a = n.next := by simp [linksOf, links, hn]
    have hpa : a ≠ p := by
      rintro rfl
      have hk := h.chain a
      rw [hfirst, Chain.none_iff] at hk
      rw [hk] at hmem
      cases hmem
    have hself : ∀ f : Nat → Option Nat, f a = none → Function.update f a none = f :=
      fun f hf => Function.update_eq_self_iff.mpr hf.symm
    cases pre.getLast? with
    | none =>
      simp only [skip, Links.remove, hnext]
      rw [hself _ ((Function.update_of_ne hpa _ _).trans hfirst)]
    | some q =>
      simp only [skip, Links.remove, hnext]
      rw [hself _ hfirst]
  · rw [freeNode_setNode, contents_freeNode, hcont]

/-- **A deleted node is a childless one**, not the root, and a call that fails changes nothing. -/
theorem ramfsDelete_spec (h : Tree fs r kids) (hn : fs.nodes a = some n) :
    ∃ ret fs', ramfsDelete fs (some a) = some (ret, fs') ∧
      (ret < 0 ∧ fs' = fs ∧ (a = r ∨ kids a ≠ []) ∨
        ret = 0 ∧ a ≠ r ∧ kids a = [] ∧ ∃ p pre post, kids p = pre ++ a :: post ∧
          Deleted fs fs' p a pre.getLast? n.data) := by
  unfold ramfsDelete
  simp only [h.root]
  by_cases hr : a = r
  · exact ⟨-1, fs, by rw [if_pos (congrArg some hr)], Or.inl ⟨by decide, rfl, Or.inl hr⟩⟩
  rw [if_neg (fun he => hr (Option.some.inj he)), hn]
  simp only [Option.bind_eq_bind, Option.bind_some]
  have hchain := h.chain hn
  rcases Option.eq_none_or_eq_some n.children with hc | ⟨c, hc⟩
  · have hk : kids a = [] := by
      rw [hc] at hchain
      exact Chain.none_iff.mp hchain
    obtain ⟨p, hp, -, -⟩ := h.parent_of_ne hn hr
    let fs₀ : Fs := { fs with buffers := freed fs.buffers n.data }
    let fs₁ := fs₀.setNode a { n with data := none }
    have hn₀ : fs₀.nodes a = some n := hn
    have hfree : fs.freeData n.data = some fs₀ := freeData_spec h.owned hn
    have hlinks : linksOf fs₁ = linksOf fs := linksOf_data hn₀ rfl rfl rfl
    have hn₁ : fs₁.nodes a = some { n with data := none } := by simp [fs₁, Fs.setNode]
    obtain ⟨fs', pre, post, hsplit, hremove, hdel⟩ :=
      removeChild_spec (hlinks ▸ h.tree) h.kids_short hn₁ hp hc
    refine ⟨0, fs'.freeNode a, ?_, Or.inr ⟨rfl, hr, hk, p, pre, post, hsplit, ?_⟩⟩
    · rw [if_neg (by simp [hc]), hfree, Option.bind_some,
        show removeChild (fs₀.setNode a { n with data := none }) a = some fs' from hremove]
      rfl
    · refine ⟨hlinks ▸ hdel.links, ?_, hdel.buffers, hdel.files, hdel.root, hdel.cwd⟩
      rw [hdel.contents, contents_setNode, Function.update_idem]
      rfl
  · have hk : kids a ≠ [] := by
      intro he
      rw [hc, he] at hchain
      cases hchain
    have hd : hasFlag n.type fsDirectory = true := by
      obtain ⟨c', hc'⟩ := List.exists_mem_of_ne_nil _ hk
      exact (flagged_iff hn).mp (h.dir a c' hc')
    exact ⟨-2, fs, by simp [hd, hc], Or.inl ⟨by decide, rfl, Or.inr hk⟩⟩

/-! ### The invariant is kept -/

theorem Created.ne (hc : Created fs fs' p a n) {x : Nat} (hx : Live fs x) : x ≠ a := by
  rintro rfl
  obtain ⟨m, hm⟩ := live_iff.mp hx
  rw [hc.fresh] at hm
  cases hm

theorem Created.tree (h : Tree fs r kids) (hp : Flagged fsDirectory fs p)
    (hc : Created fs fs' p a n) (hd : n.data = none) (hs : n.size = 0) :
    Tree fs' r (Function.update (Function.update kids p (a :: kids p)) a []) := by
  have hfresh : ¬ Live fs a := by
    rw [live_iff, hc.fresh]
    simp
  have hkeep : ∀ {b}, Flagged fsDirectory fs b → Flagged fsDirectory fs' b := by
    rintro b ⟨m, hm, hd⟩
    have hba : b ≠ a := by
      rintro rfl
      exact hfresh (Flagged.live ⟨m, hm, hd⟩)
    exact ⟨m, by rw [hc.contents, Function.update_of_ne hba, hm], hd⟩
  refine ⟨?_, hc.root.trans h.root, hkeep h.rootDir, fun b c hmem => ?_, fun b hb => ?_, ?_⟩
  · rw [hc.links]
    exact h.tree.add hp.live hfresh
  · by_cases hba : b = a
    · simp [hba] at hmem
    · rw [Function.update_of_ne hba] at hmem
      by_cases hbp : b = p
      · exact hkeep (hbp ▸ hp)
      · rw [Function.update_of_ne hbp] at hmem
        exact hkeep (h.dir b c hmem)
  · rw [Live, hc.links] at hb
    rcases hb with rfl | hb
    · exact hc.addr
    · exact h.addr b hb
  · rw [hc.contents, hc.buffers]
    exact h.owned.add (by simp [Ramfs.contents, hc.fresh]) hd hs

theorem Deleted.tree (h : Tree fs r kids) (hn : fs.nodes a = some n) (hr : a ≠ r)
    (hleaf : kids a = []) {pre post : List Nat} (hsplit : kids p = pre ++ a :: post)
    (hd : Deleted fs fs' p a pre.getLast? n.data) :
    Tree fs' r (Function.update kids p (pre ++ post)) := by
  have hkeep : ∀ {b}, b ≠ a → Flagged fsDirectory fs b → Flagged fsDirectory fs' b := by
    rintro b hba ⟨m, hm, hb⟩
    exact ⟨m, by rw [hd.contents, Function.update_of_ne hba, hm], hb⟩
  refine ⟨?_, hd.root.trans h.root, hkeep hr.symm h.rootDir, fun b c hmem => ?_, fun b hb => ?_, ?_⟩
  · rw [hd.links]
    exact h.tree.remove hleaf hsplit
  · have hmem' : ∃ c, c ∈ kids b := by
      by_cases hbp : b = p
      · exact ⟨a, by rw [hbp, hsplit]; simp⟩
      · rw [Function.update_of_ne hbp] at hmem
        exact ⟨c, hmem⟩
    obtain ⟨c', hc'⟩ := hmem'
    refine hkeep ?_ (h.dir b c' hc')
    rintro rfl
    rw [hleaf] at hc'
    cases hc'
  · rw [Live, hd.links] at hb
    exact h.addr b hb.1
  · rw [hd.contents, hd.buffers]
    exact h.owned.remove (n := n.bare) (by simp [Ramfs.contents, hn])

end CobraOS.Ramfs
