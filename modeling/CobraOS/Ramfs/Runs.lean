import CobraOS.Ramfs.Handles

/-!
# Runs of calls

`Effect` says what one call does to the tree, to the live nodes and to the handles; every call has
one (`call_effect`).  So the nodes are a tree in every state that calls reach (`directory_tree`),
and as long as no open file is deleted every handle is a position in a list of bytes
(`handles_refine`).
-/

namespace CobraOS.Ramfs

open Base

variable {fs fs' fs'' : Fs} {a p r : Nat} {n : VfsNode} {kids : Nat → List Nat} {gone : Option Nat}

/-! ### What a call does -/

/-- The nodes are still a tree, all nodes but `gone` are what they were, and a handle leads to the
node to which it led or has been opened on a file. -/
structure Effect (fs fs' : Fs) (r : Nat) (gone : Option Nat) : Prop where
  tree : ∃ kids, Tree fs' r kids
  kind : ∀ x, Live fs x → gone ≠ some x → kindAt fs' x = kindAt fs x
  handle : ∀ f file, fs'.files f = some file →
    (∃ old, fs.files f = some old ∧ old.node = file.node) ∨ Flagged fsFile fs' file.node
  cwd : fs'.cwd = fs.cwd

theorem kind_live {x : Nat} (h : kindAt fs' x = kindAt fs x) : Live fs' x ↔ Live fs x := by
  have := congrArg Option.isSome h
  simp only [kindAt, Option.isSome_map] at this
  rw [live_contents, live_contents, this]

namespace Effect

theorem refl (h : Tree fs r kids) : Effect fs fs r gone :=
  ⟨⟨kids, h⟩, fun _ _ _ => rfl, fun _ file hf => Or.inl ⟨file, hf, rfl⟩, rfl⟩

theorem live (h : Effect fs fs' r gone) {x : Nat} (hx : Live fs x) (hg : gone ≠ some x) :
    Live fs' x :=
  (kind_live (h.kind x hx hg)).mpr hx

theorem flagged (h : Effect fs fs' r gone) {x bit : Nat} (hx : Flagged bit fs x)
    (hg : gone ≠ some x) :
    Flagged bit fs' x := flagged_of_kind (h.kind x hx.live hg) hx

theorem trans (h : Effect fs fs' r none) (h' : Effect fs' fs'' r none) : Effect fs fs'' r none := by
  have hne : ∀ {x : Nat}, (none : Option Nat) ≠ some x := by
    intro x hx
    cases hx
  refine ⟨h'.tree, fun x hx _ => ?_, fun f file hf => ?_, h'.cwd.trans h.cwd⟩
  · exact (h'.kind x (h.live hx hne) hne).trans (h.kind x hx hne)
  · obtain ⟨mid, hmid, hnode⟩ | hflag := h'.handle f file hf
    · obtain ⟨old, hold, hnode'⟩ | hflag := h.handle f mid hmid
      · exact Or.inl ⟨old, hold, hnode'.trans hnode⟩
      · exact Or.inr (h'.flagged (hnode ▸ hflag) hne)
    · exact Or.inr hflag

end Effect

theorem Created.kind (hc : Created fs fs' p a n) {x : Nat} (hx : Live fs x) :
    kindAt fs' x = kindAt fs x := by
  rw [kindAt, kindAt, hc.contents, Function.update_of_ne (hc.ne hx)]

theorem Created.effect (h : Tree fs r kids) (hp : Flagged fsDirectory fs p)
    (hc : Created fs fs' p a n) (hd : n.data = none) (hs : n.size = 0) : Effect fs fs' r none :=
  ⟨⟨_, hc.tree h hp hd hs⟩, fun _ hx _ => hc.kind hx,
    fun _ file hf => Or.inl ⟨file, hc.files ▸ hf, rfl⟩, hc.cwd⟩

theorem Deleted.effect (h : Tree fs r kids) (hn : fs.nodes a = some n) (hr : a ≠ r)
    (hleaf : kids a = []) {pre post : List Nat} (hsplit : kids p = pre ++ a :: post)
    (hd : Deleted fs fs' p a pre.getLast? n.data) : Effect fs fs' r (some a) := by
  refine ⟨⟨_, hd.tree h hn hr hleaf hsplit⟩, fun x _ hx => ?_,
    fun f file hf => Or.inl ⟨file, hd.files ▸ hf, rfl⟩, hd.cwd⟩
  have hxa : x ≠ a := fun he => hx (congrArg some he.symm)
  rw [kindAt, kindAt, hd.contents, Function.update_of_ne hxa]

theorem Written.effect {bytes : Bytes} (h : Tree fs r kids) (hw : Written fs fs' a bytes) :
    Effect fs fs' r none :=
  ⟨⟨kids, hw.tree h⟩, fun x _ _ => hw.kind x,
    fun _ file hf => Or.inl ⟨file, hw.files ▸ hf, rfl⟩, hw.cwd⟩

theorem setFile_effect (h : Tree fs r kids) {f : Nat} {file : Option VfsFile}
    (hfile : ∀ new, file = some new → (∃ old, fs.files f = some old ∧ old.node = new.node) ∨
      Flagged fsFile fs new.node) : Effect fs (fs.setFile f file) r none := by
  refine ⟨⟨kids, ⟨h.tree, h.root, h.rootDir, h.dir, h.addr, h.owned⟩⟩, fun _ _ _ => rfl,
    fun g new hg => ?_, rfl⟩
  by_cases hgf : g = f
  · have hnew : file = some new := by
      have hset : (fs.setFile f file).files g = file := by
        rw [hgf]; exact Function.update_self _ _ _
      exact hset.symm.trans hg
    rw [hgf]
    exact hfile new hnew
  · exact Or.inl ⟨new, (Function.update_of_ne hgf _ _).symm.trans hg, rfl⟩

theorem advance_effect (h : Tree fs r kids) {f : Nat} {file : VfsFile} (hf : fs.files f = some file)
    (k : Int) : Effect fs (advance fs f file k) r none := by
  unfold advance
  split
  · refine setFile_effect h (fun new hnew => Or.inl ⟨file, hf, ?_⟩)
    rw [← Option.some.inj hnew]
  · exact Effect.refl h

/-! ### The calls -/

theorem ramfsCreate_node {name : Bytes} {type : Nat} {answer : Option Nat} {x : Int × Fs}
    (hr : ramfsCreate fs (some p) name type answer = some x) : ∃ n, fs.nodes p = some n := by
  unfold ramfsCreate at hr
  obtain ⟨n, hn, -⟩ := Option.bind_eq_some_iff.mp hr
  exact ⟨n, hn⟩

theorem ramfsCreate_effect (h : Tree fs r kids) {name : Bytes} {type : Nat} {answer : Option Nat}
    {ret : Int} (hr : ramfsCreate fs (some p) name type answer = some (ret, fs')) :
    Effect fs fs' r none := by
  obtain ⟨n, hn⟩ := ramfsCreate_node hr
  obtain ⟨ret', fs₁, hret, hcase⟩ := ramfsCreate_spec h hn name type answer
  rw [hr, Option.some.injEq, Prod.mk.injEq] at hret
  obtain ⟨rfl, rfl⟩ := hret
  obtain ⟨-, rfl⟩ | ⟨-, hd, -, a, -, hc⟩ := hcase
  · exact Effect.refl h
  · exact hc.effect h ((flagged_iff hn).mpr hd) rfl rfl

theorem ramfsDelete_effect (h : Tree fs r kids) {ret : Int}
    (hr : ramfsDelete fs (some a) = some (ret, fs')) : Effect fs fs' r (some a) := by
  by_cases hroot : a = r
  · unfold ramfsDelete at hr
    simp only [h.root, hroot, if_true, Option.some.injEq, Prod.mk.injEq] at hr
    rw [← hr.2]
    exact Effect.refl h
  · have hlive : ∃ n, fs.nodes a = some n := by
      unfold ramfsDelete at hr
      simp only [h.root] at hr
      rw [if_neg (fun he => hroot (Option.some.inj he))] at hr
      obtain ⟨n, hn, -⟩ := Option.bind_eq_some_iff.mp hr
      exact ⟨n, hn⟩
    obtain ⟨n, hn⟩ := hlive
    obtain ⟨ret', fs₁, hret, hcase⟩ := ramfsDelete_spec h hn
    rw [hr, Option.some.injEq, Prod.mk.injEq] at hret
    obtain ⟨rfl, rfl⟩ := hret
    obtain ⟨-, rfl, -⟩ | ⟨-, hne, hleaf, p, pre, post, hsplit, hd⟩ := hcase
    · exact Effect.refl h
    · exact hd.effect h hn hne hleaf hsplit

theorem ramfsOpen_effect (h : Tree fs r kids) {flags : Nat} {answer file : Option Nat}
    (hr : ramfsOpen fs (some a) flags answer = some (file, fs')) : Effect fs fs' r none := by
  unfold ramfsOpen at hr
  obtain ⟨n, hn, hr'⟩ := Option.bind_eq_some_iff.mp hr
  cases hf : hasFlag n.type fsFile with
  | false =>
    simp only [hf, Bool.not_false, if_true, Option.some.injEq, Prod.mk.injEq] at hr'
    rw [← hr'.2]
    exact Effect.refl h
  | true =>
    simp only [hf, Bool.not_true, Bool.false_eq_true, if_false] at hr'
    cases hg : fs.granted fileBytes answer with
    | none =>
      simp only [hg, Option.some.injEq, Prod.mk.injEq] at hr'
      rw [← hr'.2]
      exact Effect.refl h
    | some f =>
      simp only [hg, Option.some.injEq, Prod.mk.injEq] at hr'
      rw [← hr'.2]
      refine setFile_effect h (fun new hnew => Or.inr ?_)
      rw [← Option.some.inj hnew]
      exact (flagged_iff hn).mpr hf

theorem ramfsRead_effect (h : Tree fs r kids) {f size : Nat} {ret : Int × Bytes × Fs}
    (hr : ramfsRead fs (some f) size = some ret) : Effect fs ret.2.2 r none := by
  unfold ramfsRead at hr
  obtain ⟨file, hf, hr'⟩ := Option.bind_eq_some_iff.mp hr
  cases hread : hasFlag file.flags oRead with
  | false =>
    simp only [hread, Bool.not_false, if_true, Option.some.injEq] at hr'
    rw [← hr']
    exact Effect.refl h
  | true =>
    simp only [hread, Bool.not_true, Bool.false_eq_true, if_false] at hr'
    obtain ⟨x, -, hx⟩ := Option.bind_eq_some_iff.mp hr'
    rw [← Option.some.inj hx]
    exact advance_effect h hf _

theorem ramfsWrite_effect (h : Tree fs r kids) {f : Nat} {buffer : Bytes} {answer : Option Nat}
    {ret : Int} (hr : ramfsWrite fs (some f) buffer answer = some (ret, fs')) :
    Effect fs fs' r none := by
  unfold ramfsWrite at hr
  obtain ⟨file, hf, hr'⟩ := Option.bind_eq_some_iff.mp hr
  cases hwrite : hasFlag file.flags oWrite with
  | false =>
    simp only [hwrite, Bool.not_false, if_true, Option.some.injEq, Prod.mk.injEq] at hr'
    rw [← hr'.2]
    exact Effect.refl h
  | true =>
    simp only [hwrite, Bool.not_true, Bool.false_eq_true, if_false] at hr'
    obtain ⟨⟨k, fs₁⟩, hw, hx⟩ := Option.bind_eq_some_iff.mp hr'
    simp only [Option.some.injEq, Prod.mk.injEq] at hx
    rw [← hx.2]
    obtain rfl | ⟨bytes, hw₁⟩ := defaultWrite_written h.owned hw
    · exact advance_effect h hf k
    · exact (hw₁.effect h).trans (advance_effect (hw₁.tree h) (hw₁.files ▸ hf) k)

/-- The node that a call may free. -/
def Call.deletes : Call → Option Nat
  | .delete node => some node
  | _ => none

/-- **What one call does.** -/
theorem call_effect (h : Tree fs r kids) {c : Call} (hc : call fs c = some fs') :
    Effect fs fs' r c.deletes := by
  cases c with
  | create parent name type answer =>
    obtain ⟨⟨ret, fs₁⟩, hr, rfl⟩ := Option.map_eq_some_iff.mp hc
    exact ramfsCreate_effect h hr
  | delete node =>
    obtain ⟨⟨ret, fs₁⟩, hr, rfl⟩ := Option.map_eq_some_iff.mp hc
    exact ramfsDelete_effect h hr
  | «open» node flags answer =>
    obtain ⟨⟨ret, fs₁⟩, hr, rfl⟩ := Option.map_eq_some_iff.mp hc
    exact ramfsOpen_effect h hr
  | read f size =>
    obtain ⟨ret, hr, rfl⟩ := Option.map_eq_some_iff.mp hc
    exact ramfsRead_effect h hr
  | write f buffer answer =>
    obtain ⟨⟨ret, fs₁⟩, hr, rfl⟩ := Option.map_eq_some_iff.mp hc
    exact ramfsWrite_effect h hr
  | close f =>
    obtain ⟨file, -, hset⟩ :=
      Option.bind_eq_some_iff.mp (show ramfsClose fs (some f) = some fs' from hc)
    rw [← Option.some.inj hset]
    exact setFile_effect h (fun new hnew => by cases hnew)

/-! ### Every run -/

theorem init_eq {a : Nat} (ha : a < 4294967296) : ramfsInit empty (some a) =
    { empty.setNode a (createVfsNode (text "/") fsDirectory) with root := some a } := by
  have hg : empty.granted nodeBytes (some a) = some a :=
    Option.filter_eq_some_iff.mpr ⟨rfl, by simp [empty, nodeBytes, maxRequest, ha]⟩
  unfold ramfsInit
  rw [hg]
  rfl

theorem init_tree {a : Nat} (ha : a < 4294967296) :
    Tree (ramfsInit empty (some a)) a (fun _ => []) := by
  rw [init_eq ha]
  let root := createVfsNode (text "/") fsDirectory
  have hlinks : linksOf { empty.setNode a root with root := some a } =
      ⟨{a}, fun _ => none, fun _ => none, fun _ => none⟩ := by
    refine (linksOf_setNode empty a root).trans ?_
    have hlive : (linksOf empty).live = ∅ := by
      ext x
      simp [linksOf, empty]
    have hnone : ∀ f : Nat → Option Nat, (∀ x, f x = none) →
        Function.update f a none = fun _ => none := by
      intro f hf
      funext x
      by_cases hx : x = a
      · rw [hx, Function.update_self]
      · rw [Function.update_of_ne hx, hf x]
    have h1 := hnone (linksOf empty).parent (fun _ => rfl)
    have h2 := hnone (linksOf empty).firstChild (fun _ => rfl)
    have h3 := hnone (linksOf empty).next (fun _ => rfl)
    rw [hlive, insert_empty_eq]
    exact congr (congrArg₂ (Links.mk {a}) h1 h2) h3
  have hcont : contents { empty.setNode a root with root := some a } =
      Function.update (fun _ => none) a (some root.bare) := contents_setNode empty a root
  have hroot : Flagged fsDirectory { empty.setNode a root with root := some a } a :=
    ⟨root.bare, by rw [hcont, Function.update_self], by decide⟩
  refine ⟨?_, rfl, hroot, fun x c hc => (by cases hc), fun x hx => ?_, ?_⟩
  · rw [hlinks]
    exact ⟨fun x => rfl, fun x c => by simp, rfl, rfl, fun x c hc => (by cases hc),
      fun x hx => (show x = a from hx) ▸ .root⟩
  · rw [Live, hlinks] at hx
    exact (show x = a from hx) ▸ ha
  · rw [hcont]
    exact Owned.empty.add rfl rfl rfl

theorem tree_reach (h : calls.Reach fs) : ∃ r kids, Tree fs r kids := by
  refine h.induct (P := fun fs => ∃ r kids, Tree fs r kids) (fun fs hi => ?_)
    (fun fs c fs' hfs hstep => ?_)
  · obtain ⟨a, ha, rfl⟩ := hi
    exact ⟨a, _, init_tree ha⟩
  · obtain ⟨r, kids, ht⟩ := hfs
    obtain ⟨kids', ht'⟩ := (call_effect ht hstep.2).tree
    exact ⟨r, kids', ht'⟩

/-! ### The tree -/

/-- The node `n` at `a` is gone with its data, and nothing else has changed. -/
structure Freed (fs fs' : Fs) (a : Nat) (n : VfsNode) : Prop where
  node : fs'.nodes a = none
  data : ∀ d, fs'.buffers d = if n.data = some d then none else fs.buffers d
  others : ∀ x, x ≠ a → kindAt fs' x = kindAt fs x ∧ dataOf fs' x = dataOf fs x
  files : fs'.files = fs.files

/-- There is a new node at `a`, which is the first child of `p`, and nothing else has changed. -/
structure Linked (fs fs' : Fs) (p a : Nat) (name : Bytes) (type : Nat)
    (below : List Nat) : Prop where
  fresh : fs.nodes a = none
  node : contents fs' a = some (createVfsNode name type)
  parent : (fs'.nodes a).bind VfsNode.parent = some p
  list : ∀ n, fs'.nodes p = some n → Chain (links fs') n.children (a :: below)
  others : ∀ x, x ≠ a → kindAt fs' x = kindAt fs x ∧ dataOf fs' x = dataOf fs x
  files : fs'.files = fs.files

/-- The nodes are a tree of directories, with `kids` as the lists of children; a call that fails
changes nothing, one that creates links one node, and one that deletes frees one node without
children. -/
structure Directories (fs : Fs) (r : Nat) (kids : Nat → List Nat) : Prop where
  root : fs.root = some r ∧ Live fs r
  lists : ∀ p n, fs.nodes p = some n → Chain (links fs) n.children (kids p) ∧ (kids p).Nodup
  parents : ∀ p c n, fs.nodes c = some n → (c ∈ kids p ↔ n.parent = some p)
  live : ∀ p c, c ∈ kids p → Live fs c ∧ Live fs p
  directories : ∀ p n, fs.nodes p = some n → kids p ≠ [] → hasFlag n.type fsDirectory = true
  reached : ∀ a, Live fs a → ∃! l, Descent kids r l a
  create : ∀ p name type answer, Live fs p → ∃ ret fs',
    ramfsCreate fs (some p) name type answer = some (ret, fs') ∧
      (ret = 0 ∧ (∃ a, Linked fs fs' p a name type (kids p)) ∨ ret < 0 ∧ fs' = fs)
  delete : ∀ a n, fs.nodes a = some n → ∃ ret fs', ramfsDelete fs (some a) = some (ret, fs') ∧
    (ret = 0 ∧ a ≠ r ∧ kids a = [] ∧ Freed fs fs' a n ∨ ret < 0 ∧ fs' = fs)

theorem linked_of_created {name : Bytes} {type : Nat} (h : Tree fs r kids)
    (hp : Flagged fsDirectory fs p) (hc : Created fs fs' p a (createVfsNode name type)) :
    Linked fs fs' p a name type (kids p) := by
  have ht := hc.tree h hp rfl rfl
  have hpa : p ≠ a := hc.ne hp.live
  have hother : ∀ x, x ≠ a → contents fs' x = contents fs x := by
    intro x hx
    rw [hc.contents, Function.update_of_ne hx]
  refine ⟨hc.fresh, ?_, ?_, fun n hn => ?_, fun x hx => ⟨?_, ?_⟩, hc.files⟩
  · rw [hc.contents, Function.update_self]
    rfl
  · have hparent : (linksOf fs').parent a = some p := by
      rw [hc.links]
      exact Function.update_self _ _ _
    exact hparent
  · have hchain := ht.chain hn
    rwa [Function.update_of_ne hpa, Function.update_self] at hchain
  · rw [kindAt, kindAt, hother x hx]
  · rw [dataOf, dataOf, bytesAt, bytesAt, hother x hx, hc.buffers]

theorem freed_of_deleted (h : Tree fs r kids) (hn : fs.nodes a = some n) {prev : Option Nat}
    (hd : Deleted fs fs' p a prev n.data) : Freed fs fs' a n := by
  have hother : ∀ x, x ≠ a → contents fs' x = contents fs x := by
    intro x hx
    rw [hd.contents, Function.update_of_ne hx]
  have hbuf : ∀ d, fs'.buffers d = if n.data = some d then none else fs.buffers d := by
    intro d
    rw [hd.buffers]
    by_cases hnd : n.data = some d
    · rw [if_pos hnd, hnd, Owned.freed_self]
    · rw [if_neg hnd, Owned.freed_of_ne hnd]
  refine ⟨?_, hbuf, fun x hx => ⟨by rw [kindAt, kindAt, hother x hx], ?_⟩, hd.files⟩
  · have := congrFun hd.contents a
    rw [Function.update_self] at this
    exact Option.map_eq_none_iff.mp this
  · refine h.owned.bytes_other (n := n.bare) (contents_eq hn) hother (fun e _ hne => ?_) hx
    have hne : n.data ≠ some e := hne
    rw [hbuf e, if_neg hne]

/-- **The directory tree stays a tree**, and calls to create and delete do what they say or
nothing. -/
theorem directory_tree (h : calls.Reach fs) : ∃ r kids, Directories fs r kids := by
  obtain ⟨r, kids, ht⟩ := tree_reach h
  refine ⟨r, kids, ⟨ht.root, ht.rootDir.live⟩, fun p n hn => ⟨ht.chain hn, (ht.chain hn).nodup⟩,
    fun p c n hn => ?_, fun p c hc => ht.tree.live p c ((ht.tree.mem p c).mp hc),
      fun p n hn hk => ?_,
    fun a ha => ht.tree.existsUnique_descent ha, fun p name type answer hp => ?_, fun a n hn => ?_⟩
  · rw [ht.tree.mem, show (linksOf fs).parent c = n.parent by simp [linksOf, hn]]
  · obtain ⟨c, hc⟩ := List.exists_mem_of_ne_nil _ hk
    exact (flagged_iff hn).mp (ht.dir p c hc)
  · obtain ⟨n, hn⟩ := live_iff.mp hp
    obtain ⟨ret, fs', hr, hcase⟩ := ramfsCreate_spec ht hn name type answer
    refine ⟨ret, fs', hr, hcase.symm.imp (fun hmade => ?_) id⟩
    obtain ⟨hzero, hd, -, a, -, hc⟩ := hmade
    exact ⟨hzero, a, linked_of_created ht ((flagged_iff hn).mpr hd) hc⟩
  · obtain ⟨ret, fs', hr, ⟨hneg, heq, -⟩ | ⟨hzero, hne, hleaf, p, pre, post, -, hd⟩⟩ :=
      ramfsDelete_spec ht hn
    · exact ⟨ret, fs', hr, Or.inr ⟨hneg, heq⟩⟩
    · exact ⟨ret, fs', hr, Or.inl ⟨hzero, hne, hleaf, freed_of_deleted ht hn hd⟩⟩

/-- A directory with a file in it: the directory is not deleted, and then the file is. -/
theorem directory_tree_deleted : ∃ fs₁ fs₂ fs₃ r₂ kids₂ r₃ kids₃,
    ramfsCreate (ramfsInit empty (some 4096)) (some 4096)
      [100] fsDirectory (some 8192) = some (0, fs₁) ∧
    ramfsCreate fs₁ (some 8192) [97] fsFile (some 12288) = some (0, fs₂) ∧ Live fs₂ 12288 ∧
    Directories fs₂ r₂ kids₂ ∧ ramfsDelete fs₂ (some 8192) = some (-2, fs₂) ∧
    ramfsDelete fs₂ (some 12288) = some (0, fs₃) ∧ ¬ Live fs₃ 12288 ∧ Directories fs₃ r₃ kids₃ := by
  obtain ⟨fs₁, fs₂, fs₃, h₁, hl₁, h₂, hl₂, hl, hfull, h₃, hgone⟩ : ∃ fs₁ fs₂ fs₃,
      ramfsCreate (ramfsInit empty (some 4096)) (some 4096) [100] fsDirectory (some 8192) =
        some (0, fs₁) ∧
      ((ramfsInit empty (some 4096)).nodes 4096).isSome = true ∧
      ramfsCreate fs₁ (some 8192) [97] fsFile (some 12288) = some (0, fs₂) ∧
      (fs₁.nodes 8192).isSome = true ∧ (fs₂.nodes 12288).isSome = true ∧
      ramfsDelete fs₂ (some 8192) = some (-2, fs₂) ∧
      ramfsDelete fs₂ (some 12288) = some (0, fs₃) ∧ (fs₃.nodes 12288).isSome = false :=
    ⟨_, _, _, rfl, rfl, rfl, rfl, rfl, rfl, rfl, rfl⟩
  have hr₀ : calls.Reach (ramfsInit empty (some 4096)) := .init ⟨4096, by decide, rfl⟩
  have hr₁ : calls.Reach fs₁ := hr₀.step (e := .create 4096 [100] fsDirectory (some 8192))
    ⟨hl₁, by rw [call, h₁]; rfl⟩
  have hr₂ : calls.Reach fs₂ := hr₁.step (e := .create 8192 [97] fsFile (some 12288))
    ⟨hl₂, by rw [call, h₂]; rfl⟩
  have hr₃ : calls.Reach fs₃ := hr₂.step (e := .delete 12288) ⟨hl, by rw [call, h₃]; rfl⟩
  obtain ⟨r₂, kids₂, hd₂⟩ := directory_tree hr₂
  obtain ⟨r₃, kids₃, hd₃⟩ := directory_tree hr₃
  have hdead : ¬ Live fs₃ 12288 := fun hlive => by
    rw [show (fs₃.nodes 12288).isSome = true from hlive] at hgone
    cases hgone
  exact ⟨fs₁, fs₂, fs₃, r₂, kids₂, r₃, kids₃, h₁, h₂, hl, hd₂, hfull, h₃, hdead, hd₃⟩

/-! ### The handles -/

/-- No node is deleted while it is open. -/
def KeepsOpen (fs : Fs) (c : Call) : Prop :=
  ∀ a, c.deletes = some a → ∀ f file, fs.files f = some file → file.node ≠ a

/-- The runs in which no open file is deleted. -/
def kept : System Fs Call := calls.restrict KeepsOpen

/-- The handle `f` is a position in the bytes of its file. -/
structure Refines (fs : Fs) (f : Nat) (file : VfsFile) : Prop where
  write : ∀ buffer answer, buffer.length < 2147483648 → file.position + buffer.length < 4294967296 →
    ∃ ret fs', ramfsWrite fs (some f) buffer answer = some (ret, fs') ∧
      (ret = buffer.length ∧ view fs' = (view fs).write f file buffer ∨
        ret = -1 ∧ fs' = fs ∧ (hasFlag file.flags oWrite = false ∨
          fs.granted (file.position + buffer.length) answer = none))
  read : ∀ size, size < 2147483648 → hasFlag file.flags oRead = true →
    let n := min size ((dataOf fs file.node).length - file.position)
    ∃ fs', ramfsRead fs (some f) size =
        some ((n : Int), ((dataOf fs file.node).drop file.position).take size, fs') ∧
      view fs' = (view fs).advance f file n
  all : ∀ sizes : Nat → Nat, (∀ i, 0 < sizes i ∧ sizes i < 2147483648) →
    hasFlag file.flags oRead = true → file.position = 0 →
      ∀ fuel, (dataOf fs file.node).length < fuel →
    ∃ fs', readChunks sizes fuel 0 fs f = some (fs', dataOf fs file.node)

theorem handles_live (h : kept.Reach fs) : ∀ f file, fs.files f = some file →
    Flagged fsFile fs file.node := by
  suffices hboth : (∃ r kids, Tree fs r kids) ∧
      ∀ f file, fs.files f = some file → Flagged fsFile fs file.node from hboth.2
  refine h.induct (P := fun fs => (∃ r kids, Tree fs r kids) ∧
    ∀ f file, fs.files f = some file → Flagged fsFile fs file.node) (fun fs hi => ?_)
    (fun fs c fs' hfs hstep => ?_)
  · obtain ⟨a, ha, rfl⟩ := hi
    refine ⟨⟨a, _, init_tree ha⟩, fun f file hf => ?_⟩
    rw [init_eq ha] at hf
    cases hf
  · obtain ⟨⟨r, kids, ht⟩, hflag⟩ := hfs
    have heff := call_effect ht hstep.2.2
    obtain ⟨kids', ht'⟩ := heff.tree
    refine ⟨⟨r, kids', ht'⟩, fun f file hf => ?_⟩
    obtain ⟨old, hold, hnode⟩ | hnew := heff.handle f file hf
    · rw [← hnode]
      exact heff.flagged (hflag f old hold) (fun hd => hstep.1 _ hd f old hold rfl)
    · exact hnew

/-- **Every handle is a position in a list of bytes.** -/
theorem handles_refine (h : kept.Reach fs) {f : Nat} {file : VfsFile}
    (hf : fs.files f = some file) :
    Refines fs f file := by
  obtain ⟨r, kids, ht⟩ := tree_reach h.of_restrict
  have hn := handles_live h f file hf
  refine ⟨fun buffer answer hb hr => ramfsWrite_spec ht.owned hf hn hb hr answer,
    fun size hs hread => ?_, fun sizes hsizes hread hzero fuel hfuel => ?_⟩
  · obtain ⟨fs', hr, -, hview⟩ := ramfsRead_spec ht.owned hf hn hs hread
    exact ⟨fs', hr, hview⟩
  · obtain ⟨fs', hr, -⟩ := readChunks_spec hsizes (i := 0) file ht.owned hf hn hread
      (lt_of_le_of_lt (Nat.sub_le _ _) hfuel)
    rw [hzero, List.drop_zero] at hr
    exact ⟨fs', hr⟩

theorem keepsOpen_of_none (fs : Fs) {c : Call} (hc : c.deletes = none) : KeepsOpen fs c := by
  intro a ha
  rw [hc] at ha
  cases ha

theorem handles_refine_opened : ∃ fs, kept.Reach fs ∧ fs.files 12288 = some ⟨8192, 3, 0⟩ ∧
    Refines fs 12288 ⟨8192, 3, 0⟩ := by
  obtain ⟨fs₁, fs₂, h₁, hl₁, h₂, hl₂, hf⟩ : ∃ fs₁ fs₂,
      call (ramfsInit empty (some 4096)) (.create 4096 [97] fsFile (some 8192)) = some fs₁ ∧
      ((ramfsInit empty (some 4096)).nodes 4096).isSome = true ∧
      call fs₁ (.open 8192 3 (some 12288)) = some fs₂ ∧ (fs₁.nodes 8192).isSome = true ∧
      fs₂.files 12288 = some ⟨8192, 3, 0⟩ := ⟨_, _, rfl, rfl, rfl, rfl, rfl⟩
  have hr₀ : kept.Reach (ramfsInit empty (some 4096)) := .init ⟨4096, by decide, rfl⟩
  have hr₁ : kept.Reach fs₁ := hr₀.step (e := .create 4096 [97] fsFile (some 8192))
    ⟨keepsOpen_of_none _ rfl, hl₁, h₁⟩
  have hr₂ : kept.Reach fs₂ := hr₁.step (e := .open 8192 3 (some 12288))
    ⟨keepsOpen_of_none _ rfl, hl₂, h₂⟩
  exact ⟨fs₂, hr₂, hf, handles_refine hr₂ hf⟩

end CobraOS.Ramfs
