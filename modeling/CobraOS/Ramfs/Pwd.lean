import CobraOS.Ramfs.Follow
import CobraOS.Ramfs.Shell

/-!
# Printed paths

`pwd` prints the path of a node from the root.  When the names of the nodes are ordinary and
siblings have different names, `vfs_resolve_path` leads from the root to the node along the path
that is printed, so different nodes have different paths (`pwd_resolves`).
-/

namespace CobraOS.Ramfs

open Base

variable {fs fs' : Fs} {r a b p : Nat} {n : VfsNode} {kids : Nat → List Nat} {l : List Nat}

/-- `print_path`: the formats that it gives to `viprint`, one after the other. -/
def printPath (fs : Fs) : Nat → Option Nat → Option (List Bytes)
  | _, none => some [text "/"]
  | 0, some _ => none
  | fuel + 1, some a => do
    let n ← fs.nodes a
    match n.parent with
    | none => some [text "/"]
    | some parent => do
      let printed ← printPath fs fuel (some parent)
      let p ← fs.nodes parent
      some (printed ++ (if p.parent.isSome then [text "/"] else []) ++ [n.name])

def cmdPwd (sh : Shell) : Option (List Print) :=
  match sh.shellCwd with
  | none => some [say "/\n"]
  | some d => do
    let printed ← printPath sh.fs nodeFuel (some d)
    some (printed.map .viprint ++ [say "\n"])

/-- The path of a node that is printed, in one piece. -/
def pathOf (fs : Fs) (a : Nat) : Option Bytes := (printPath fs nodeFuel (some a)).map List.flatten

/-- What `vfs_resolve_path` returns. -/
def resolved (fs : Fs) (root : Option Nat) (path : Bytes) (cwd : Option Nat) :
    Option (Option Nat) :=
  (vfsResolvePath fs root path cwd).map Prod.snd

/-! ### The names on the way down -/

def nameOf (fs : Fs) (a : Nat) : Bytes := ((fs.nodes a).map VfsNode.name).getD []

theorem nameOf_eq (hn : fs.nodes a = some n) : nameOf fs a = n.name := by
  rw [nameOf, hn]
  rfl

theorem nameOf_contents (a : Nat) : nameOf fs a = ((contents fs a).map VfsNode.name).getD [] := by
  rw [nameOf, contents, Option.map_map]
  rfl

theorem childNamed_eq {l : List Nat} (hl : ∀ c ∈ l, Live fs c) (name : Bytes) :
    childNamed fs l name = l.find? (fun c => nameOf fs c == name) := by
  induction l with
  | nil => rfl
  | cons c l ih =>
    obtain ⟨n, hn⟩ := live_iff.mp (hl c (List.mem_cons_self ..))
    have hrest : childNamed fs l name = _ := ih (fun d hd => hl d (List.mem_cons_of_mem _ hd))
    rw [childNamed] at hrest ⊢
    rw [List.find?_cons, List.find?_cons, hrest, hn, Option.any_some, nameOf_eq hn]

theorem Created.name_eq (hc : Created fs fs' p a n) (b : Nat) :
    nameOf fs' b = if b = a then n.name else nameOf fs b := by
  rw [nameOf_contents, hc.contents, nameOf_contents]
  by_cases hb : b = a
  · rw [if_pos hb, hb, Function.update_self]
    rfl
  · rw [if_neg hb, Function.update_of_ne hb]

/-- Siblings have different names. -/
def Distinct (fs : Fs) (kids : Nat → List Nat) : Prop :=
  ∀ p, ∀ c ∈ kids p, ∀ d ∈ kids p, nameOf fs c = nameOf fs d → c = d

/-- Every node but the root has an ordinary name, and siblings have different names. -/
structure WellNamed (fs : Fs) (r : Nat) (kids : Nat → List Nat) : Prop where
  ordinary : ∀ a, Live fs a → a ≠ r → Ordinary (nameOf fs a)
  distinct : Distinct fs kids

theorem childNamed_child (h : Tree fs r kids) (hw : WellNamed fs r kids) (ha : a ∈ kids p) :
    childNamed fs (kids p) (nameOf fs a) = some a := by
  rw [childNamed_eq (fun c hc => h.tree.kids_live hc)]
  cases hf : (kids p).find? (fun c => nameOf fs c == nameOf fs a) with
  | none => exact absurd (beq_self_eq_true _) (List.find?_eq_none.mp hf a ha)
  | some c =>
    have hname : (nameOf fs c == nameOf fs a) = true :=
      List.find?_some (p := fun c => nameOf fs c == nameOf fs a) hf
    rw [hw.distinct p c (List.mem_of_find?_eq_some hf) a ha (beq_iff_eq.mp hname)]

theorem child_ordinary (h : Tree fs r kids) (hw : WellNamed fs r kids) (ha : a ∈ kids p) :
    Ordinary (nameOf fs a) := by
  refine hw.ordinary a (h.tree.kids_live ha) (fun he => ?_)
  have hparent := (h.tree.mem p a).mp ha
  rw [he, h.tree.root_parent] at hparent
  cases hparent

theorem descent_ordinary (h : Tree fs r kids) (hw : WellNamed fs r kids) :
    ∀ {l : List Nat} {a : Nat},
    Descent kids a l b → ∀ c ∈ l, Ordinary (nameOf fs c) := by
  intro l
  induction l with
  | nil => exact fun _ c hc => by cases hc
  | cons x l ih =>
    intro a hd c hc
    obtain rfl | hc := List.mem_cons.mp hc
    · exact child_ordinary h hw hd.1
    · exact ih hd.2 c hc

/-- **The names on the way down lead to the node.** -/
theorem follow_descent (h : Tree fs r kids) (hw : WellNamed fs r kids) : ∀ {l : List Nat} {a : Nat},
    Descent kids a l b → follow fs a (l.map (nameOf fs)) = some (some b) := by
  intro l
  induction l with
  | nil =>
    intro a hd
    have hab : a = b := hd
    rw [hab]
    rfl
  | cons c l ih =>
    intro a hd
    have hc : c ∈ kids a := hd.1
    have hname := child_ordinary h hw hc
    have hstep := stepInto_child h (h.dir a c hc) hname.dot hname.dots
    rw [childNamed_child h hw hc] at hstep
    rw [List.map_cons, follow_cons hname.short hstep]
    exact ih hd.2

/-! ### The printed path -/

theorem descent_chain (h : Tree fs r kids) : ∀ {l : List Nat} {a : Nat}, Descent kids r l a →
    ∃ up, up.length = l.length + 1 ∧ Chain (linksOf fs).parent (some a) up ∧
      ∀ c ∈ up, Live fs c := by
  intro l
  induction l using List.reverseRecOn with
  | nil =>
    intro a hd
    have hra : r = a := hd
    subst hra
    exact ⟨[r], rfl, ⟨rfl, h.tree.root_parent⟩,
      fun c hc => List.mem_singleton.mp hc ▸ h.rootDir.live⟩
  | append_singleton l c ih =>
    intro a hd
    obtain ⟨hnil, -⟩ | ⟨l', p, hl, hd', ha⟩ := hd.split
    · simp at hnil
    · obtain ⟨rfl, -⟩ := List.append_inj' hl rfl
      obtain ⟨up, hlen, hup, hlive⟩ := ih hd'
      refine ⟨a :: up, by simp [hlen], ⟨rfl, ?_⟩, fun x hx => ?_⟩
      · rw [(h.tree.mem p a).mp ha]
        exact hup
      · obtain rfl | hx := List.mem_cons.mp hx
        · exact h.tree.kids_live ha
        · exact hlive x hx

theorem descent_short (h : Tree fs r kids) (hd : Descent kids r l a) : l.length < nodeFuel := by
  obtain ⟨up, hlen, hup, hlive⟩ := descent_chain h hd
  have hbound := hup.length_le (n := 4294967296) (fun c hc => h.addr c (hlive c hc))
  rw [hlen] at hbound
  exact Nat.lt_succ_of_le (Nat.le_of_succ_le hbound)

theorem descent_nil_iff (h : Tree fs r kids) (hd : Descent kids r l a) (hn : fs.nodes a = some n) :
    l = [] ↔ n.parent = none := by
  have hparent : (linksOf fs).parent a = n.parent := by simp [linksOf, hn]
  constructor
  · intro hl
    rw [hl] at hd
    have hra : r = a := hd
    rw [← hparent, ← hra]
    exact h.tree.root_parent
  · intro hp
    obtain rfl := h.tree.eq_root (Live.mk hn) (hparent.trans hp)
    exact (h.tree.existsUnique_descent (Live.mk hn)).unique hd rfl

theorem intersperse_concat (sep name : Bytes) (names : List Bytes) :
    (names ++ [name]).intersperse sep =
    names.intersperse sep ++ (if names = [] then [] else [sep]) ++ [name] := by
  induction names with
  | nil => rfl
  | cons x names ih =>
    cases names with
    | nil => rfl
    | cons y names =>
      rw [List.cons_append, List.cons_append, List.intersperse_cons_cons, ← List.cons_append, ih,
        List.intersperse_cons_cons]
      simp

/-- **The path that is printed** are the names on the way down. -/
theorem printPath_descent (h : Tree fs r kids) : ∀ {l : List Nat} {fuel a : Nat}, l.length < fuel →
    Descent kids r l a → printPath fs fuel (some a) =
      some ([slash] :: (l.map (nameOf fs)).intersperse [slash]) := by
  intro l
  induction l using List.reverseRecOn with
  | nil =>
    intro fuel a hl hd
    have hra : r = a := hd
    subst hra
    obtain ⟨n, hn⟩ := live_iff.mp h.rootDir.live
    have hp : n.parent = none := by
      have := h.tree.root_parent
      simpa [linksOf, hn] using this
    obtain ⟨fuel, rfl⟩ : ∃ m, fuel = m + 1 := ⟨fuel - 1, by omega⟩
    rw [printPath, hn]
    simp only [Option.bind_eq_bind, Option.bind_some, hp]
    rfl
  | append_singleton l c ih =>
    intro fuel a hl hd
    obtain ⟨hnil, -⟩ | ⟨l', p, hl', hd', ha⟩ := hd.split
    · simp at hnil
    · obtain ⟨rfl, hca⟩ := List.append_inj' hl' rfl
      obtain rfl : c = a := by simpa using hca
      obtain ⟨fuel, rfl⟩ : ∃ m, fuel = m + 1 := ⟨fuel - 1, by omega⟩
      have hlen : l.length < fuel := by simpa using hl
      have hprint := ih hlen hd'
      obtain ⟨n, hn⟩ := live_iff.mp (h.tree.kids_live ha)
      obtain ⟨m, hm⟩ := live_iff.mp (h.dir p c ha).live
      have hparent : n.parent = some p := by
        have := (h.tree.mem p c).mp ha
        simpa [linksOf, hn] using this
      have hroot := descent_nil_iff h hd' hm
      have hsep : (if m.parent.isSome then [text "/"] else []) =
          if l = [] then [] else [[slash]] := by
        by_cases hl : l = []
        · rw [if_pos hl, hroot.mp hl]
          rfl
        · obtain ⟨q, hq⟩ := Option.ne_none_iff_exists'.mp (fun he => hl (hroot.mpr he))
          rw [if_neg hl, hq]
          rfl
      rw [printPath, hn]
      simp only [Option.bind_eq_bind, Option.bind_some, hparent, hprint, hm, hsep]
      rw [List.map_append, List.map_singleton, intersperse_concat, nameOf_eq hn]
      simp only [List.map_eq_nil_iff, List.cons_append]

/-! ### Round trip -/

/-- **`vfs_resolve_path` leads to the node whose path it is given**, wherever the shell is. -/
theorem pathOf_resolved (h : Tree fs r kids) (hw : WellNamed fs r kids) (ha : Live fs a) :
    ∃ path, pathOf fs a = some path ∧ ∀ cwd, resolved fs fs.root path cwd = some (some a) := by
  obtain ⟨l, hd, -⟩ := h.tree.existsUnique_descent ha
  have hpath : pathOf fs a = some (slash :: [slash].intercalate (l.map (nameOf fs))) := by
    rw [pathOf, printPath_descent h (descent_short h hd) hd]
    rfl
  refine ⟨_, hpath, fun cwd => ?_⟩
  have hnames : ∀ name ∈ l.map (nameOf fs), name ≠ [] ∧ slash ∉ name := by
    intro name hname
    obtain ⟨c, hc, rfl⟩ := List.mem_map.mp hname
    have := descent_ordinary h hw hd c hc
    exact ⟨this.ne_nil, this.slash⟩
  rw [resolved, h.root, resolve_eq (List.cons_ne_nil _ _), components_sep,
    components_intercalate hnames, List.head?_cons, if_pos rfl]
  exact follow_descent h hw hd

/-- **The path that is printed and the resolution of paths are inverse**, and different nodes have
different paths. -/
theorem pwd_resolves (h : Tree fs r kids) (hw : WellNamed fs r kids) :
    (∀ a, Live fs a → ∃ path, pathOf fs a = some path ∧
      ∀ cwd, resolved fs fs.root path cwd = some (some a)) ∧
    ∀ a b, Live fs a → Live fs b → pathOf fs a = pathOf fs b → a = b := by
  refine ⟨fun a ha => pathOf_resolved h hw ha, fun a b ha hb hab => ?_⟩
  obtain ⟨path, hpath, hres⟩ := pathOf_resolved h hw ha
  obtain ⟨path', hpath', hres'⟩ := pathOf_resolved h hw hb
  obtain rfl : path = path' := by rw [hpath, hpath'] at hab; exact Option.some.inj hab
  have := (hres none).symm.trans (hres' none)
  simpa using this

/-- A root with one directory. -/
theorem pwd_resolves_directory :
    ∃ fs, (ramfsCreate (ramfsInit empty (some 4096)) (some 4096) (text "d")
      fsDirectory (some 8192)).map Prod.snd = some fs ∧
    pathOf fs 8192 = some (text "/d") ∧ resolved fs fs.root (text "/d") none =
      some (some 8192) := by
  have h₀ := init_tree (a := 4096) (by decide)
  obtain ⟨n, hn⟩ := live_iff.mp h₀.rootDir.live
  obtain ⟨ret, fs, hr, hcase⟩ := ramfsCreate_spec h₀ hn (text "d") fsDirectory (some 8192)
  have hret : (ramfsCreate (ramfsInit empty (some 4096)) (some 4096) (text "d") fsDirectory
      (some 8192)).map Prod.fst = some 0 := rfl
  rw [hr] at hret
  obtain rfl : ret = 0 := Option.some.inj hret
  obtain ⟨-, -, -, a, hg, hc⟩ := hcase.resolve_left (fun hneg => by cases hneg.1)
  have ha : a = 8192 := (Option.filter_eq_some_iff.mp hg).1 |> Option.some.inj |> Eq.symm
  subst ha
  have ht := hc.tree h₀ h₀.rootDir rfl rfl
  have hname : nameOf fs 8192 = text "d" := by
    rw [hc.name_eq, if_pos rfl]
    rfl
  have honly : ∀ q, ∀ c ∈ Function.update (Function.update (fun _ => []) 4096 [8192]) 8192 [] q,
      c = 8192 := by
    intro q c hcq
    by_cases hq : q = 8192
    · simp [hq] at hcq
    · rw [Function.update_of_ne hq] at hcq
      by_cases hq' : q = 4096
      · simpa [hq'] using hcq
      · simp [hq'] at hcq
  have hlive : ∀ x, Live fs x → x = 8192 ∨ x = 4096 := by
    intro x hx
    rw [Live, hc.links, init_eq (by decide)] at hx
    simpa [linksOf, empty, Links.add, Fs.setNode, Function.update_apply] using hx
  have hw : WellNamed fs 4096
      (Function.update (Function.update (fun _ => []) 4096 [8192]) 8192 []) := by
    refine ⟨fun x hx hr => ?_, fun q c hcq d hdq _ => (honly q c hcq).trans (honly q d hdq).symm⟩
    obtain rfl := (hlive x hx).resolve_right hr
    rw [hname]
    exact ⟨by decide, by decide, by decide, by decide, by decide⟩
  have hpath : pathOf fs 8192 = some (text "/d") := by
    have : (ramfsCreate (ramfsInit empty (some 4096)) (some 4096) (text "d") fsDirectory
        (some 8192)).bind
        (fun x => pathOf x.2 8192) = some (text "/d") := rfl
    rwa [hr] at this
  have h8192 : Live fs 8192 := by
    rw [Live, hc.links]
    exact Or.inl rfl
  obtain ⟨path, hp, hres⟩ := (pwd_resolves ht hw).1 8192 h8192
  rw [hpath, Option.some.injEq] at hp
  exact ⟨fs, by rw [hr]; rfl, hpath, hp ▸ hres none⟩

end CobraOS.Ramfs
