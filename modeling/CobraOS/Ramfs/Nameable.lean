import CobraOS.Ramfs.Dangling
import CobraOS.Ramfs.Siblings

/-!
# What `mkdir` and `touch` create

The commands split a path at its last slash, and `vfs_resolve_path` follows its components.  The two
agree: a node that is created is found under the path with which it has been created, and every
other path leads where it led, unless the last component is `.` or `..`, or too long
(`nameable_iff`).
-/

namespace CobraOS.Ramfs

open Base

variable {fs fs' : Fs} {r a b p : Nat} {n : VfsNode} {kids : Nat → List Nat}
    {name path token : Bytes} {type : Nat} {answer : Option Nat} {sh : Shell} {args : Bytes}

/-! ### What stands behind the last slash -/

theorem splitLast_none (h : splitLast path = none) : slash ∉ path := by
  intro hmem
  rw [splitLast, if_pos hmem] at h
  cases h

theorem splitLast_some {dir : Bytes} (h : splitLast path = some (dir, name)) :
    path = dir ++ slash :: name ∧ slash ∉ name := by
  by_cases hmem : slash ∈ path
  · rw [splitLast, if_pos hmem, Option.some.injEq, Prod.mk.injEq] at h
    obtain ⟨rfl, rfl⟩ := h
    have hsplit := List.takeWhile_append_dropWhile (p := (· != slash)) (l := path.reverse)
    cases hd : path.reverse.dropWhile (· != slash) with
    | nil =>
      rw [hd, List.append_nil] at hsplit
      have := sep_notMem_takeWhile slash path.reverse
      rw [hsplit] at this
      exact absurd (List.mem_reverse.mpr hmem) this
    | cons x rest =>
      have hx : x = slash := by
        have := List.head?_dropWhile_not (· != slash) path.reverse
        simpa [hd] using this
      rw [hd, hx] at hsplit
      refine ⟨?_, fun hs => sep_notMem_takeWhile slash path.reverse (List.mem_reverse.mp hs)⟩
      have := congrArg List.reverse hsplit
      simpa using this.symm
  · rw [splitLast, if_neg hmem] at h
    cases h

/-- The last component, which is empty when a slash stands at the end. -/
def lastName (path : Bytes) : Bytes :=
  match splitLast path with
  | none => path
  | some (_, name) => name

/-- Where the resolution of a path starts. -/
def startOf (fs : Fs) (r : Nat) (path : Bytes) : Nat :=
  if path.head? = some slash then r else fs.cwd.getD r

theorem resolved_eq (hroot : fs.root = some r) (hpath : path ≠ []) :
    resolved fs fs.root path fs.cwd = follow fs (startOf fs r path) (components slash path) := by
  rw [resolved, hroot]
  exact resolve_eq hpath fs.cwd

/-- **The directory in which a command creates something** is where all components but the last
lead. -/
theorem targetOf_follow (h : Tree sh.fs r kids) (hcwd : sh.shellCwd = sh.fs.cwd) (hargs : args ≠ [])
    {printed : List Print} (ht : targetOf sh args = some (printed, some (some p, name)))
    (hname : name ≠ []) :
    name = lastName args ∧ ∃ l, components slash args = l ++ [name] ∧
      follow sh.fs (startOf sh.fs r args) l = some (some p) := by
  unfold targetOf at ht
  unfold lastName
  cases hs : splitLast args with
  | none =>
    simp only [hs, Option.some.injEq, Prod.mk.injEq] at ht
    obtain ⟨-, hp, rfl⟩ := ht
    have hslash := splitLast_none hs
    refine ⟨rfl, [], components_single hargs hslash, ?_⟩
    have hhead : args.head? ≠ some slash := fun he => hslash (List.mem_of_mem_head? he)
    rw [startOf, if_neg hhead, ← hcwd, hp]
    rfl
  | some x =>
    obtain ⟨dir, last⟩ := x
    obtain ⟨hsplit, hslash⟩ := splitLast_some hs
    rw [hs] at ht
    cases dir with
    | nil =>
      simp only [Option.some.injEq, Prod.mk.injEq] at ht
      obtain ⟨-, hp, rfl⟩ := ht
      rw [h.root, Option.some.injEq] at hp
      refine ⟨rfl, [],
        by rw [hsplit, List.nil_append, components_sep, components_single hname hslash]; rfl, ?_⟩
      rw [startOf, hsplit, List.nil_append, List.head?_cons, if_pos rfl, hp]
      rfl
    | cons c dir =>
      by_cases hlong : 256 ≤ (c :: dir).length
      · simp only [if_pos hlong, Option.some.injEq, Prod.mk.injEq] at ht
        cases ht.2
      · simp only [if_neg hlong] at ht
        obtain ⟨⟨printed', parent⟩, hres, hx⟩ := Option.bind_eq_some_iff.mp ht
        simp only [Option.some.injEq, Prod.mk.injEq] at hx
        obtain ⟨-, rfl, rfl⟩ := hx
        refine ⟨rfl, components slash (c :: dir), ?_, ?_⟩
        · rw [hsplit, components_append, components_single hname hslash]
        · have hdir : resolved sh.fs sh.fs.root (c :: dir) sh.fs.cwd = some (some p) := by
            rw [resolved, show vfsResolvePath sh.fs sh.fs.root (c :: dir) sh.fs.cwd = _ from hres]
            rfl
          rw [resolved_eq h.root (List.cons_ne_nil _ _)] at hdir
          rw [startOf, hsplit]
          exact hdir

/-! ### Paths after a creation -/

/-- Components that lead to a node lead to the same node. -/
def Extends (fs fs' : Fs) : Prop := ∀ a token x b, stepInto fs a token = some (x, some b) →
  ∃ y, stepInto fs' a token = some (y, some b)

theorem Extends.follow_mono (h : Extends fs fs') : ∀ {l : List Bytes} {a : Nat},
    follow fs a l = some (some b) → follow fs' a l = some (some b) := by
  intro l
  induction l with
  | nil => exact fun h => h
  | cons token l ih =>
    intro a hf
    rw [follow] at hf ⊢
    split at hf
    · cases hf
    · rename_i hlen
      obtain ⟨⟨x, next⟩, hs, hnext⟩ := Option.bind_eq_some_iff.mp hf
      cases next with
      | none => cases hnext
      | some c =>
        obtain ⟨y, hy⟩ := h a token x c hs
        rw [if_neg hlen, hy]
        exact ih hnext

theorem resolved_nil (fs : Fs) (root cwd : Option Nat) : resolved fs root [] cwd = some none := by
  cases root <;> rfl

theorem Extends.resolved_mono (h : Extends fs fs') (hr : fs.root = some r)
    (hroot : fs'.root = fs.root) (hcwd : fs'.cwd = fs.cwd)
    (hres : resolved fs fs.root path fs.cwd = some (some b)) :
    resolved fs' fs'.root path fs'.cwd = some (some b) := by
  by_cases hpath : path = []
  · rw [hpath, resolved_nil] at hres
    cases hres
  · rw [resolved_eq hr hpath] at hres
    rw [resolved_eq (hroot.trans hr) hpath, startOf, hcwd]
    exact h.follow_mono hres

theorem stepInto_dots (h : Tree fs r kids) (ha : Live fs a) :
    ∃ x, stepInto fs a (text "..") = some (x, some (((linksOf fs).parent a).getD a)) := by
  obtain ⟨n, hn⟩ := live_iff.mp ha
  have hparent : (linksOf fs).parent a = n.parent := by simp [linksOf, hn]
  rw [hparent, stepInto, if_neg (by decide), if_pos rfl, hn]
  cases hp : n.parent with
  | none => exact ⟨_, by simp only [Option.bind_eq_bind, Option.bind_some, hp]; rfl⟩
  | some p =>
    obtain ⟨m, hm⟩ := live_iff.mp (h.tree.live p a (hparent.trans hp)).2
    exact ⟨_, by simp only [Option.bind_eq_bind, Option.bind_some, hp, hm]; rfl⟩

/-- A component that is not special leads from a directory to the child with the name. -/
theorem stepInto_some (h : Tree fs r kids) (hdot : token ≠ text ".") (hdots : token ≠ text "..")
    {x : List Print} (hs : stepInto fs a token = some (x, some b)) :
    Flagged fsDirectory fs a ∧ childNamed fs (kids a) token = some b := by
  rw [stepInto, if_neg hdot, if_neg hdots] at hs
  obtain ⟨child, hfind, hx⟩ := Option.bind_eq_some_iff.mp hs
  obtain ⟨n, hn, -⟩ :=
    Option.bind_eq_some_iff.mp (show defaultFinddir fs a token = some child from hfind)
  rw [finddir_spec h hn, Option.some.injEq] at hfind
  cases hd : hasFlag n.type fsDirectory with
  | false =>
    rw [hd, if_neg (by decide)] at hfind
    rw [← hfind] at hx
    cases hx
  | true =>
    rw [hd, if_pos rfl] at hfind
    refine ⟨(flagged_iff hn).mpr hd, ?_⟩
    rw [hfind]
    exact (Prod.mk.inj (Option.some.inj hx)).2

/-- What steps need: live nodes keep their parents, and directories their children with their
names. -/
theorem extends_of {kids' : Nat → List Nat} (h : Tree fs r kids) (h' : Tree fs' r kids')
    (hparent : ∀ b, Live fs b → Live fs' b ∧ (linksOf fs').parent b = (linksOf fs).parent b)
    (hchild : ∀ b token c, Flagged fsDirectory fs b → childNamed fs (kids b) token = some c →
      Flagged fsDirectory fs' b ∧ childNamed fs' (kids' b) token = some c) : Extends fs fs' := by
  intro b token x c hstep
  by_cases hdot : token = text "."
  · subst hdot
    exact ⟨x, hstep⟩
  by_cases hdots : token = text ".."
  · subst hdots
    have hb : Live fs b := by
      rw [stepInto, if_neg (by decide), if_pos rfl] at hstep
      obtain ⟨m, hm, -⟩ := Option.bind_eq_some_iff.mp hstep
      exact Live.mk hm
    obtain ⟨hb', heq⟩ := hparent b hb
    obtain ⟨y, hy⟩ := stepInto_dots h hb
    obtain ⟨z, hz⟩ := stepInto_dots h' hb'
    rw [hstep, Option.some.injEq, Prod.mk.injEq] at hy
    exact ⟨z, by rw [hz, hy.2, heq]⟩
  obtain ⟨hdir, hnamed⟩ := stepInto_some h hdot hdots hstep
  obtain ⟨hdir', hnamed'⟩ := hchild b token c hdir hnamed
  exact ⟨[], by rw [stepInto_child h' hdir' hdot hdots, hnamed']⟩

theorem childNamed_congr {l : List Nat} (hl : ∀ c ∈ l, Live fs c) (hl' : ∀ c ∈ l, Live fs' c)
    (hname : ∀ c ∈ l, nameOf fs' c = nameOf fs c) (token : Bytes) :
    childNamed fs' l token = childNamed fs l token := by
  rw [childNamed_eq hl, childNamed_eq hl']
  refine List.find?_congr fun c hc => ?_
  rw [hname c hc]

theorem Created.childNamed_other (h : Tree fs r kids) (hp : Flagged fsDirectory fs p)
    (hc : Created fs fs' p a n) (hd : n.data = none) (hs : n.size = 0) (hb : Live fs b)
    (hbp : b ≠ p) (token : Bytes) :
    childNamed fs' (Function.update (Function.update kids p (a :: kids p)) a [] b) token =
      childNamed fs (kids b) token := by
  have heff := hc.effect h hp hd hs
  have hkids : ∀ c ∈ kids b, Live fs c := fun c hc => h.tree.kids_live hc
  rw [Function.update_of_ne (hc.ne hb), Function.update_of_ne hbp]
  refine childNamed_congr hkids (fun c hcb => heff.live (hkids c hcb) (fun he => by cases he))
    (fun c hcb => ?_) token
  rw [hc.name_eq, if_neg (hc.ne (hkids c hcb))]

/-- **A creation changes no path that led to a node**, when no sibling has the name. -/
theorem Created.extends (h : Tree fs r kids) (hp : Flagged fsDirectory fs p)
    (hc : Created fs fs' p a n) (hd : n.data = none) (hs : n.size = 0)
    (hnone : childNamed fs (kids p) n.name = none) :
    Extends fs fs' := by
  have ht := hc.tree h hp hd hs
  have heff := hc.effect h hp hd hs
  refine extends_of h ht (fun b hb => ⟨heff.live hb (fun he => by cases he), ?_⟩) fun b token c hdir
    hchild =>
    ⟨heff.flagged hdir (fun he => by cases he), ?_⟩
  · rw [hc.links]
    exact Function.update_of_ne (hc.ne hb) _ _
  by_cases hbp : b = p
  · subst hbp
    have hkids : ∀ y ∈ kids b, Live fs y := fun y hy => h.tree.kids_live hy
    have hother : nameOf fs' a ≠ token := by
      rw [hc.name_eq, if_pos rfl]
      rintro rfl
      rw [hchild] at hnone
      cases hnone
    have hlive : ∀ y ∈ a :: kids b, Live fs' y := fun y hy =>
      ht.tree.kids_live
        (by rw [Function.update_of_ne (hc.ne hdir.live), Function.update_self]; exact hy)
    rw [Function.update_of_ne (hc.ne hdir.live), Function.update_self, childNamed_eq hlive,
      List.find?_cons_of_neg (by simpa using hother), ← hchild, childNamed_eq hkids]
    refine List.find?_congr fun y hy => ?_
    rw [hc.name_eq, if_neg (hc.ne (hkids y hy))]
  · rw [hc.childNamed_other h hp hd hs hdir.live hbp, hchild]

/-! ### What has been created -/

/-- The command has `ramfs_create` create a node in `fs'`, with the result `0`. -/
def Creates (type : Nat) (sh : Shell) (args : Bytes) (answer : Option Nat) (fs' : Fs) : Prop :=
  args ≠ [] ∧ ∃ printed p name n, targetOf sh args = some (printed, some (some p, name)) ∧
    sh.fs.nodes p = some n ∧ hasFlag n.type fsDirectory = true ∧ name ≠ [] ∧
    ramfsCreate sh.fs (some p) name type answer = some (0, fs')

theorem Creates.command (hc : Creates type sh args answer fs') (texts : CreateTexts) : ∃ printed,
    createCommand texts type sh args answer =
      some ({ sh with fs := fs' }, printed ++ [.viprint (texts.result 0)]) := by
  obtain ⟨hargs, printed, p, name, n, ht, hn, hdir, hname, hr⟩ := hc
  refine ⟨printed, ?_⟩
  rw [createCommand, if_neg hargs, ht]
  simp [hn, hdir, hname, hr]

/-- Nothing was at the path, the new node of the type is there now, and the paths of other nodes are
what they were. -/
structure Nameable (fs fs' : Fs) (type : Nat) (path : Bytes) : Prop where
  before : resolved fs fs.root path fs.cwd = some none
  after : ∃ a n, fs.nodes a = none ∧ fs'.nodes a = some n ∧ n.type = type ∧
    resolved fs' fs'.root path fs'.cwd = some (some a)
  others : ∀ q b, resolved fs fs.root q fs.cwd = some (some b) → resolved fs' fs'.root q fs'.cwd =
    some (some b)

theorem follow_short : ∀ {l : List Bytes} {a : Nat}, follow fs a l = some (some b) →
    ∀ c ∈ l, c.length ≤ vfsNameMax := by
  intro l
  induction l with
  | nil => exact fun _ c hc => by cases hc
  | cons token l ih =>
    intro a hf
    rw [follow] at hf
    split at hf
    · cases hf
    · rename_i hlen
      obtain ⟨⟨x, next⟩, hs, hnext⟩ := Option.bind_eq_some_iff.mp hf
      cases next with
      | none => cases hnext
      | some d =>
        intro c hc
        obtain rfl | hc := List.mem_cons.mp hc
        · exact Nat.not_lt.mp hlen
        · exact ih hnext c hc

theorem follow_single (hlen : name.length ≤ vfsNameMax) {x : List Print} {next : Option Nat}
    (hs : stepInto fs a name = some (x, next)) : follow fs a [name] = some next := by
  rw [follow, if_neg (Nat.not_lt.mpr hlen), hs]
  cases next <;> rfl

theorem not_special (h : Tree fs r kids) (hp : Live fs p) (hlen : name.length ≤ vfsNameMax)
    (hnone : follow fs p [name] = some none) : name ≠ text "." ∧ name ≠ text ".." := by
  have hstep : ∀ x b, stepInto fs p name ≠ some (x, some b) := by
    intro x b hs
    rw [follow_single hlen hs] at hnone
    cases hnone
  refine ⟨fun hdot => hstep [] p (by rw [stepInto, if_pos hdot]), fun hdots => ?_⟩
  obtain ⟨x, hx⟩ := stepInto_dots h hp
  rw [← hdots] at hx
  exact hstep x _ hx

theorem Created.leads (h : Tree fs r kids) (hp : Flagged fsDirectory fs p)
    (hc : Created fs fs' p a (createVfsNode name type)) (hlen : name.length ≤ vfsNameMax)
    (hdot : name ≠ text ".") (hdots : name ≠ text "..") : follow fs' p [name] = some (some a) := by
  have hkept : (createVfsNode name type).name = name := List.take_of_length_le hlen
  have hfound := hc.found h hp rfl rfl
  rw [hkept] at hfound
  refine follow_single hlen (x := []) ?_
  rw [stepInto, if_neg hdot, if_neg hdots, show defaultFinddir fs' p name =
    some (some a) from hfound]
  rfl

/-- **What `mkdir` and `touch` create is found under its path** if and only if the last component is
neither `.` nor `..` and not too long. -/
theorem nameable_iff (h : Tree sh.fs r kids) (hcwd : sh.shellCwd = sh.fs.cwd)
    (hc : Creates type sh args answer fs') (texts : CreateTexts) :
    (∃ printed, createCommand texts type sh args answer =
      some ({ sh with fs := fs' }, printed ++ [.viprint (texts.result 0)])) ∧
    (Nameable sh.fs fs' type args ↔
      lastName args ≠ text "." ∧ lastName args ≠ text ".." ∧
        (lastName args).length ≤ vfsNameMax) := by
  refine ⟨hc.command texts, ?_⟩
  obtain ⟨hargs, printed, p, name, n, ht, hn, hdir, hname, hr⟩ := hc
  obtain ⟨rfl, l, hl, hfollow⟩ := targetOf_follow h hcwd hargs ht hname
  obtain ⟨hp, hnone, a, hcr⟩ := ramfsCreate_created h hr
  have hbefore : resolved sh.fs sh.fs.root args sh.fs.cwd = follow sh.fs p [lastName args] := by
    rw [resolved_eq h.root hargs, hl, follow_append _ hfollow]
  have hafter : resolved fs' fs'.root args fs'.cwd =
      follow fs' (startOf sh.fs r args) (l ++ [lastName args]) := by
    rw [resolved_eq (hcr.root.trans h.root) hargs, hl, startOf, startOf, hcr.cwd]
  constructor
  · intro hg
    have hshort : (lastName args).length ≤ vfsNameMax := by
      obtain ⟨b, m, -, -, -, hres⟩ := hg.after
      rw [hafter] at hres
      exact follow_short hres _ (List.mem_append_right _ (List.mem_singleton_self _))
    obtain ⟨hdot, hdots⟩ := not_special h hp.live hshort (hbefore.symm.trans hg.before)
    exact ⟨hdot, hdots, hshort⟩
  · rintro ⟨hdot, hdots, hshort⟩
    have hkept : (createVfsNode (lastName args) type).name = lastName args :=
      List.take_of_length_le hshort
    have hext := hcr.extends h hp rfl rfl (by rwa [hkept])
    obtain ⟨m, hm, -, -, htype⟩ := hcr.node
    refine ⟨?_, ⟨a, m, hcr.fresh, hm, htype, ?_⟩,
      fun q b => hext.resolved_mono h.root hcr.root hcr.cwd⟩
    · rw [hbefore, follow_single hshort (stepInto_child h hp hdot hdots), hnone]
    · rw [hafter, follow_append _ (hext.follow_mono hfollow)]
      exact hcr.leads h hp hshort hdot hdots

/-- A directory is created in the root. -/
theorem creates_in_root (name : Bytes)
    (hr : ∃ fs', ramfsCreate (boot 4096).fs (some 4096) name fsDirectory
    (some 8192) = some (0, fs')) (hname : name ≠ []) (hslash : slash ∉ name) :
    ∃ fs', Creates fsDirectory (boot 4096) name (some 8192) fs' := by
  obtain ⟨fs', hr⟩ := hr
  have ht : targetOf (boot 4096) name = some ([], some (some 4096, name)) := by
    rw [targetOf, splitLast, if_neg hslash]
    rfl
  exact ⟨fs', hname, [], 4096, name, createVfsNode (text "/") fsDirectory, ht, rfl, rfl, hname, hr⟩

/-- `mkdir d` in the root. -/
theorem nameable_iff_directory : ∃ fs', Creates fsDirectory (boot 4096) (text "d") (some 8192) fs' ∧
    Nameable (boot 4096).fs fs' fsDirectory (text "d") := by
  obtain ⟨fs', hc⟩ := creates_in_root (text "d") ⟨_, rfl⟩ (by decide) (by decide)
  have hg := boot_good (a := 4096) (by decide)
  obtain ⟨kids, ht⟩ := hg.tree
  have hname : lastName (text "d") = text "d" := rfl
  refine ⟨fs', hc, (nameable_iff ht (hg.shell.trans hg.cwd.symm) hc mkdirTexts).2.mpr ?_⟩
  rw [hname]
  exact ⟨by decide, by decide, by decide⟩

/-- **`mkdir .`** creates a directory that no path leads to. -/
theorem mkdir_dot : ∃ fs', Creates fsDirectory (boot 4096) (text ".") (some 8192) fs' ∧
    ¬ Nameable (boot 4096).fs fs' fsDirectory (text ".") := by
  obtain ⟨fs', hc⟩ := creates_in_root (text ".") ⟨_, rfl⟩ (by decide) (by decide)
  refine ⟨fs', hc, fun h => ?_⟩
  have hres : resolved (boot 4096).fs (boot 4096).fs.root (text ".") (boot 4096).fs.cwd =
      some (some 4096) := rfl
  have hbefore := h.before
  rw [hres] at hbefore
  cases hbefore

end CobraOS.Ramfs
