import CobraOS.Ramfs.Pwd

/-!
# The names of siblings

A node is created when no sibling has the name that is asked for, and it gets the first 255 bytes of
the name.  As long as no longer name is asked for, siblings have different names and what has been
created is found (`siblings_differ`).  A longer name is not found when it has been created, and can
be created again (`long_name_twice`).
-/

namespace CobraOS.Ramfs

open Base

variable {fs fs' : Fs} {r a p : Nat} {n : VfsNode} {kids : Nat → List Nat} {name : Bytes}
    {type : Nat} {answer : Option Nat}

/-- Calls that create and delete, with names that are not too long. -/
def Call.Short : Call → Prop
  | .create _ name _ _ => name.length ≤ vfsNameMax
  | .delete _ => True
  | _ => False

/-- The runs of such calls. -/
def shortNames : System Fs Call := calls.restrict (fun _ c => c.Short)

/-! ### Creation -/

/-- The children after a creation are those before it and the new one. -/
theorem mem_created {q c : Nat}
    (hc : c ∈ Function.update (Function.update kids p (a :: kids p)) a [] q) :
    c ∈ kids q ∨ q = p ∧ c = a := by
  by_cases hqa : q = a
  · rw [hqa, Function.update_self] at hc
    cases hc
  · rw [Function.update_of_ne hqa] at hc
    by_cases hqp : q = p
    · rw [hqp, Function.update_self] at hc
      obtain rfl | hc := List.mem_cons.mp hc
      · exact Or.inr ⟨hqp, rfl⟩
      · exact Or.inl (hqp ▸ hc)
    · rw [Function.update_of_ne hqp] at hc
      exact Or.inl hc

theorem Created.not_kid (h : Tree fs r kids) (hc : Created fs fs' p a n) {q : Nat} :
    a ∉ kids q := by
  exact fun ha => hc.ne (h.tree.kids_live ha) rfl

theorem childNamed_none (hnone : childNamed fs (kids p) name = none) {c : Nat} (hlive : Live fs c)
    (hc : c ∈ kids p) : nameOf fs c ≠ name := by
  obtain ⟨m, hm⟩ := live_iff.mp hlive
  have := List.find?_eq_none.mp hnone c hc
  rw [hm] at this
  rw [nameOf_eq hm]
  simpa using this

theorem Created.distinct (h : Tree fs r kids) (hd : Distinct fs kids) (hc : Created fs fs' p a n)
    (hnone : childNamed fs (kids p) n.name = none) :
    Distinct fs' (Function.update (Function.update kids p (a :: kids p)) a []) := by
  have hold : ∀ {q x}, x ∈ kids q → nameOf fs' x = nameOf fs x := by
    intro q x hx
    rw [hc.name_eq, if_neg (fun he => hc.not_kid h (he ▸ hx))]
  have hnew : nameOf fs' a = n.name := by rw [hc.name_eq, if_pos rfl]
  have hother : ∀ {x}, x ∈ kids p → nameOf fs' x ≠ nameOf fs' a := by
    intro x hx
    rw [hold hx, hnew]
    exact childNamed_none hnone (h.tree.kids_live hx) hx
  intro q c hcq d hdq hname
  obtain hc' | ⟨rfl, rfl⟩ := mem_created hcq
  · obtain hd' | ⟨rfl, rfl⟩ := mem_created hdq
    · exact hd q c hc' d hd' (by rw [← hold hc', ← hold hd', hname])
    · exact absurd hname (hother hc')
  · obtain hd' | ⟨-, rfl⟩ := mem_created hdq
    · exact absurd hname.symm (hother hd')
    · rfl

theorem ramfsCreate_created (h : Tree fs r kids)
    (hr : ramfsCreate fs (some p) name type answer = some (0, fs')) : Flagged fsDirectory fs p ∧
      childNamed fs (kids p) name = none ∧ ∃ a, Created fs fs' p a (createVfsNode name type) := by
  obtain ⟨m, hm⟩ := ramfsCreate_node hr
  obtain ⟨ret, fs₁, hret, hcase⟩ := ramfsCreate_spec h hm name type answer
  rw [hr, Option.some.injEq, Prod.mk.injEq] at hret
  obtain ⟨rfl, rfl⟩ := hret
  obtain ⟨-, hdir, hnone, a, -, hc⟩ := hcase.resolve_left (fun hneg => absurd hneg.1 (by decide))
  exact ⟨(flagged_iff hm).mpr hdir, hnone, a, hc⟩

theorem Created.node (hc : Created fs fs' p a n) : ∃ m, fs'.nodes a = some m ∧ m.parent = some p ∧
    m.name = n.name ∧ m.type = n.type := by
  obtain ⟨m, hm⟩ : ∃ m, fs'.nodes a = some m := by
    rw [← live_iff, Live, hc.links]
    exact Or.inl rfl
  have hbare : m.bare = n.bare := by
    have := congrFun hc.contents a
    rw [Function.update_self, contents_eq hm] at this
    exact Option.some.inj this
  have hparent : m.parent = some p := by
    have := congrFun (congrArg Links.parent hc.links) a
    simpa [linksOf, hm, Links.add] using this
  have hname : m.bare.name = n.bare.name := congrArg VfsNode.name hbare
  have htype : m.bare.type = n.bare.type := congrArg VfsNode.type hbare
  exact ⟨m, hm, hparent, hname, htype⟩

theorem ramfsFind_spec (h : Tree fs r kids) (hp : Flagged fsDirectory fs p) (name : Bytes) :
    ramfsFind fs (some p) name = some (childNamed fs (kids p) name) := by
  obtain ⟨n, hn⟩ := live_iff.mp hp.live
  rw [ramfsFind, finddir_spec h hn, if_pos ((flagged_iff hn).mp hp)]

/-- **What has been created is found** under its name. -/
theorem Created.found (h : Tree fs r kids) (hp : Flagged fsDirectory fs p)
    (hc : Created fs fs' p a n) (hd : n.data = none) (hs : n.size = 0) :
    ramfsFind fs' (some p) n.name = some (some a) := by
  have ht := hc.tree h hp hd hs
  have hkids : Function.update (Function.update kids p (a :: kids p)) a [] p = a :: kids p := by
    rw [Function.update_of_ne (hc.ne hp.live), Function.update_self]
  have hdir := ht.dir p a (by rw [hkids]; exact List.mem_cons_self ..)
  have hlive : ∀ c ∈ a :: kids p, Live fs' c := by
    rw [← hkids]
    exact fun c hc => ht.tree.kids_live hc
  have hname : nameOf fs' a = n.name := by rw [hc.name_eq, if_pos rfl]
  rw [ramfsFind_spec ht hdir, hkids, childNamed_eq hlive,
    List.find?_cons_of_pos (by rw [hname, beq_self_eq_true])]

/-! ### Deletion -/

theorem mem_deleted (h : Tree fs r kids) {pre post : List Nat} (hsplit : kids p = pre ++ a :: post)
    {q c : Nat} (hc : c ∈ Function.update kids p (pre ++ post) q) : c ∈ kids q ∧ c ≠ a := by
  have hnodup := (h.tree.chain p).nodup
  rw [hsplit, List.nodup_middle, List.nodup_cons] at hnodup
  by_cases hq : q = p
  · rw [hq, Function.update_self] at hc
    refine ⟨?_, fun he => hnodup.1 (he ▸ hc)⟩
    rw [hq, hsplit]
    exact List.mem_append.mpr ((List.mem_append.mp hc).imp_right (List.mem_cons_of_mem _))
  · rw [Function.update_of_ne hq] at hc
    refine ⟨hc, fun he => hq ?_⟩
    have hp := (h.tree.mem p a).mp (by rw [hsplit]; simp)
    have hq' := (h.tree.mem q a).mp (he ▸ hc)
    rw [hp, Option.some.injEq] at hq'
    exact hq'.symm

theorem Deleted.distinct (h : Tree fs r kids) (hd : Distinct fs kids) {prev data : Option Nat}
    (hdel : Deleted fs fs' p a prev data) {pre post : List Nat}
    (hsplit : kids p = pre ++ a :: post) :
    Distinct fs' (Function.update kids p (pre ++ post)) := by
  have hold : ∀ {x}, x ≠ a → nameOf fs' x = nameOf fs x := by
    intro x hx
    rw [nameOf_contents, nameOf_contents, hdel.contents, Function.update_of_ne hx]
  intro q c hc d hd' hname
  obtain ⟨hcq, hca⟩ := mem_deleted h hsplit hc
  obtain ⟨hdq, hda⟩ := mem_deleted h hsplit hd'
  exact hd q c hcq d hdq (by rw [← hold hca, ← hold hda, hname])

/-! ### Every run -/

/-- The nodes are a tree in which siblings have different names. -/
def Named (fs : Fs) : Prop := ∃ r kids, Tree fs r kids ∧ Distinct fs kids

theorem ramfsCreate_named (h : Tree fs r kids) (hd : Distinct fs kids)
    (hlen : name.length ≤ vfsNameMax)
    (hr : ramfsCreate fs (some p) name type answer = some (0, fs')) : Named fs' ∧
      ∃ a n, fs.nodes a = none ∧ fs'.nodes a = some n ∧ n.parent = some p ∧ n.name = name ∧
        n.type = type ∧
        ramfsFind fs' (some p) name = some (some a) := by
  obtain ⟨hp, hnone, a, hc⟩ := ramfsCreate_created h hr
  have hname : (createVfsNode name type).name = name := List.take_of_length_le hlen
  have hfound := hc.found h hp rfl rfl
  obtain ⟨n, hn, hparent, hnn, htype⟩ := hc.node
  rw [hname] at hfound hnn
  exact ⟨⟨r, _, hc.tree h hp rfl rfl, hc.distinct h hd (by rwa [hname])⟩,
    a, n, hc.fresh, hn, hparent, hnn, htype, hfound⟩

theorem Named.step (h : Named fs) {c : Call} (hs : shortNames.step fs c fs') : Named fs' := by
  obtain ⟨r, kids, ht, hd⟩ := h
  obtain ⟨hshort, hallowed, hc⟩ := hs
  cases c with
  | create parent name type answer =>
    obtain ⟨⟨ret, fs₁⟩, hr, rfl⟩ := Option.map_eq_some_iff.mp hc
    obtain ⟨m, hm⟩ := live_iff.mp hallowed
    obtain ⟨ret', fs₂, hret, ⟨-, rfl⟩ | ⟨rfl, -⟩⟩ := ramfsCreate_spec ht hm name type answer
    · rw [hr, Option.some.injEq, Prod.mk.injEq] at hret
      obtain ⟨-, rfl⟩ := hret
      exact ⟨r, kids, ht, hd⟩
    · rw [hr, Option.some.injEq, Prod.mk.injEq] at hret
      obtain ⟨rfl, rfl⟩ := hret
      exact (ramfsCreate_named ht hd hshort hr).1
  | delete node =>
    obtain ⟨⟨ret, fs₁⟩, hr, rfl⟩ := Option.map_eq_some_iff.mp hc
    obtain ⟨n, hn⟩ := live_iff.mp hallowed
    obtain ⟨ret', fs₂, hret, hcase⟩ := ramfsDelete_spec ht hn
    rw [hr, Option.some.injEq, Prod.mk.injEq] at hret
    obtain ⟨rfl, rfl⟩ := hret
    obtain ⟨-, rfl, -⟩ | ⟨-, hne, hleaf, p, pre, post, hsplit, hdel⟩ := hcase
    · exact ⟨r, kids, ht, hd⟩
    · exact ⟨r, _, hdel.tree ht hn hne hleaf hsplit, hdel.distinct ht hd hsplit⟩
  | _ => exact hshort.elim

/-- **Siblings have different names, and what is created is found**, as long as no name is too
long. -/
theorem siblings_differ (h : shortNames.Reach fs) :
    (∀ p c d n m, fs.nodes c = some n → fs.nodes d = some m → n.parent = some p →
      m.parent = some p →
      n.name = m.name → c = d) ∧
    ∀ p name type answer fs', name.length ≤ vfsNameMax →
      ramfsCreate fs (some p) name type answer = some (0, fs') →
      ∃ a n, fs.nodes a = none ∧ fs'.nodes a = some n ∧ n.parent = some p ∧ n.name = name ∧
        n.type = type ∧
        ramfsFind fs' (some p) name = some (some a) := by
  have hnamed : Named fs := by
    refine h.induct (P := Named) (fun fs hi => ?_) (fun fs c fs' hn hs => hn.step hs)
    obtain ⟨a, ha, rfl⟩ := hi
    exact ⟨a, _, init_tree ha, fun p c hc => by cases hc⟩
  obtain ⟨r, kids, ht, hd⟩ := hnamed
  refine ⟨fun p c d n m hn hm hnp hmp hname => ?_, fun p name type answer fs' hlen hr => ?_⟩
  · have hkid : ∀ {x k}, fs.nodes x = some k → k.parent = some p → x ∈ kids p := by
      intro x k hx hk
      rw [ht.tree.mem p x]
      simpa [linksOf, hx] using hk
    exact hd p c (hkid hn hnp) d (hkid hm hmp) (by rw [nameOf_eq hn, nameOf_eq hm, hname])
  · exact (ramfsCreate_named ht hd hlen hr).2

/-- A directory is created and found. -/
theorem siblings_differ_root : ∃ fs, ramfsCreate (ramfsInit empty (some 4096)) (some 4096)
    (text "d")
      fsDirectory (some 8192) = some (0, fs) ∧ ∃ a n, fs.nodes a = some n ∧ n.name = text "d" ∧
        ramfsFind fs (some 4096) (text "d") = some (some a) := by
  obtain ⟨fs, hr⟩ :
    ∃ fs, ramfsCreate (ramfsInit empty (some 4096)) (some 4096) (text "d") fsDirectory
      (some 8192) = some (0, fs) := ⟨_, rfl⟩
  obtain ⟨a, n, -, hn, -, hname, -, hfound⟩ :=
    (siblings_differ (.init ⟨4096, by decide, rfl⟩)).2 4096 (text "d") fsDirectory (some 8192)
      fs (by decide) hr
  exact ⟨fs, hr, a, n, hn, hname, hfound⟩

set_option maxRecDepth 4000 in
/-- **A name of 256 bytes** is not found when it has been created, and can be created again. -/
theorem long_name_twice : ∃ fs₁ fs₂, let name := List.replicate 256 (97 : UInt8)
    ramfsCreate (ramfsInit empty (some 4096)) (some 4096) name fsFile (some 8192) = some (0, fs₁) ∧
    ramfsFind fs₁ (some 4096) name = some none ∧
    ramfsCreate fs₁ (some 4096) name fsFile (some 12288) = some (0, fs₂) ∧
    (fs₂.nodes 8192).bind VfsNode.parent = some 4096 ∧
    (fs₂.nodes 12288).bind VfsNode.parent = some 4096 ∧
    nameOf fs₂ 8192 = nameOf fs₂ 12288 := ⟨_, _, rfl, rfl, rfl, rfl, rfl, rfl⟩

end CobraOS.Ramfs
