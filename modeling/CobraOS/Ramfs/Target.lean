import CobraOS.Ramfs.Nameable

/-!
# Where `fs_write_file` writes

`fs_write_file` resolves its path.  When that fails it splits the path by its own rules: at the last
slash, with the root as the directory when there is none, and with the name cut at 255 bytes.  So
the file that it creates is not always where the path leads.  `fileToWrite_finds` says which node it
finds or creates, `fsWriteFile_at_node` what it then does to it, and `read_back_iff` when
`fs_read_file` finds what has been written.
-/

namespace CobraOS.Ramfs

open Base

variable {fs fs₁ fs' : Fs} {r a p : Nat} {n : VfsNode} {kids : Nat → List Nat}
    {path dir name buf : Bytes} {answer data : Option Nat}

/-! ### The node -/

/-- The path leads nowhere, and the file `a` is created with the name in the directory `p`. -/
structure MakesFile (fs : Fs) (path : Bytes) (answer : Option Nat) (p : Nat) (name : Bytes)
    (a : Nat) : Prop where
  missing : resolved fs fs.root path fs.cwd = some none
  target : ∃ dir, writeTarget path = some (dir, name) ∧ resolved fs fs.root dir fs.cwd =
    some (some p)
  dir : Flagged fsDirectory fs p
  free : ramfsFind fs (some p) name = some none
  node : fs.granted nodeBytes answer = some a

theorem MakesFile.place {q b : Nat} {other : Bytes} {parent : Option Nat}
    (h : MakesFile fs path answer q other b) (ht : writeTarget path = some (dir, name))
    (hdir : resolved fs fs.root dir fs.cwd = some parent) : other = name ∧ parent = some q := by
  obtain ⟨dir', ht', hq⟩ := h.target
  obtain ⟨rfl, rfl⟩ := Prod.mk.inj (Option.some.inj (ht.symm.trans ht'))
  exact ⟨rfl, Option.some.inj (hdir.symm.trans hq)⟩

theorem MakesFile.unique {q b : Nat} {other : Bytes} (h : MakesFile fs path answer p name a)
    (h' : MakesFile fs path answer q other b) : q = p ∧ other = name ∧ b = a := by
  obtain ⟨dir, ht, hp⟩ := h.target
  obtain ⟨rfl, hq⟩ := h'.place ht hp
  obtain rfl := Option.some.inj hq
  exact ⟨rfl, rfl, Option.some.inj (h'.node.symm.trans h.node)⟩

/-- What `fs_write_file` has after its first part: a node that was there, one that it has created,
or none. -/
inductive Finds (fs : Fs) (path : Bytes) (answer : Option Nat) : Option Nat → Fs → Prop
  | there {a : Nat} : resolved fs fs.root path fs.cwd = some (some a) → Live fs a →
      Finds fs path answer (some a) fs
  | made {p a : Nat} {name : Bytes} {fs' : Fs} : MakesFile fs path answer p name a →
      Created fs fs' p a (createVfsNode name fsFile) → Finds fs path answer (some a) fs'
  | nowhere : resolved fs fs.root path fs.cwd = some none →
      (∀ p name a, ¬ MakesFile fs path answer p name a) →
      Finds fs path answer none fs

theorem writeTarget_short (h : writeTarget path = some (dir, name)) :
    name.take vfsNameMax = name := by
  have htwice : ∀ l : Bytes, (l.take vfsNameMax).take vfsNameMax = l.take vfsNameMax := by
    intro l
    rw [List.take_take, Nat.min_self]
  unfold writeTarget at h
  split at h
  · obtain ⟨-, rfl⟩ := Prod.mk.inj (Option.some.inj h)
    exact htwice _
  · obtain ⟨-, rfl⟩ := Prod.mk.inj (Option.some.inj h)
    exact htwice _
  · split at h
    · cases h
    · obtain ⟨-, rfl⟩ := Prod.mk.inj (Option.some.inj h)
      exact htwice _

theorem resolved_resolve {printed : List Print} {node : Option Nat}
    (h : ramfsResolve fs path = some (printed, node)) :
    resolved fs fs.root path fs.cwd = some node := by
  rw [resolved, show vfsResolvePath fs fs.root path fs.cwd = _ from h]
  rfl

theorem ramfsCreate_done (h : Tree fs r kids) (hp : Flagged fsDirectory fs p)
    (hfree : childNamed fs (kids p) name = none) (hg : fs.granted nodeBytes answer = some a) :
    ∃ fs', ramfsCreate fs (some p) name fsFile answer = some (0, fs') := by
  obtain ⟨n, hn⟩ := live_iff.mp hp.live
  have hfresh := granted_fresh hg
  obtain ⟨fs', hadd, -⟩ :=
    addChild_spec (n := createVfsNode name fsFile) hp.live hfresh.nodes hfresh.addr rfl
  refine ⟨fs', ?_⟩
  unfold ramfsCreate
  simp only [hn, Option.bind_eq_bind, Option.bind_some, (flagged_iff hn).mp hp, Bool.not_true,
    Bool.false_eq_true, if_false, ramfsFind_spec h hp, hfree, hg, hadd, Option.isSome_none]

theorem ramfsCreate_makes (h : Tree fs r kids)
    (hmissing : resolved fs fs.root path fs.cwd = some none)
    (ht : writeTarget path = some (dir, name))
    (hdir : resolved fs fs.root dir fs.cwd = some (some p)) (hp : Flagged fsDirectory fs p)
    (answer : Option Nat) :
    ∃ ret fs₁, ramfsCreate fs (some p) name fsFile answer = some (ret, fs₁) ∧
      (ret ≠ 0 ∧ fs₁ = fs ∧ (∀ q other b, ¬ MakesFile fs path answer q other b) ∨
        ret = 0 ∧ ∃ a, MakesFile fs path answer p name a ∧
          Created fs fs₁ p a (createVfsNode name fsFile)) := by
  obtain ⟨m, hm⟩ := live_iff.mp hp.live
  obtain ⟨ret, fs₁, hr, hcase⟩ := ramfsCreate_spec h hm name fsFile answer
  refine ⟨ret, fs₁, hr, ?_⟩
  obtain ⟨hneg, rfl⟩ | ⟨rfl, -, hfree, a, hg, hc⟩ := hcase
  · refine Or.inl ⟨by omega, rfl, fun q other b hmakes => ?_⟩
    obtain ⟨rfl, hq⟩ := hmakes.place ht hdir
    obtain rfl := Option.some.inj hq
    have hfree := hmakes.free
    rw [ramfsFind_spec h hp, Option.some.injEq] at hfree
    obtain ⟨fs', hdone⟩ := ramfsCreate_done h hp hfree hmakes.node
    rw [hr, Option.some.injEq, Prod.mk.injEq] at hdone
    omega
  · refine Or.inr ⟨rfl, a, ⟨hmissing, ⟨dir, ht, hdir⟩, hp, ?_, hg⟩, hc⟩
    rw [ramfsFind_spec h hp, hfree]

/-- **The node to which `fs_write_file` writes.** -/
theorem fileToWrite_finds (h : Tree fs r kids) (hcwd : ∀ d ∈ fs.cwd, Live fs d) (path : Bytes)
    (answer : Option Nat) : ∃ node fs₁, fileToWrite fs path answer = some (node, fs₁) ∧
      Finds fs path answer node fs₁ := by
  obtain ⟨⟨printed, node⟩, hpath, hlive⟩ := ramfsResolve_spec h hcwd path
  unfold fileToWrite
  rw [hpath]
  simp only [Option.bind_eq_bind, Option.bind_some]
  have hres := resolved_resolve hpath
  cases node with
  | some a => exact ⟨some a, fs, rfl, .there hres (hlive a rfl)⟩
  | none =>
    have hnone : (∀ p name a, ¬ MakesFile fs path answer p name a) →
        ∃ node fs₁, some (none, fs) = some (node, fs₁) ∧ Finds fs path answer node fs₁ :=
      fun hno => ⟨none, fs, rfl, .nowhere hres hno⟩
    cases ht : writeTarget path with
    | none =>
      refine hnone fun p name a hm => ?_
      obtain ⟨dir, hdir, -⟩ := hm.target
      rw [ht] at hdir
      cases hdir
    | some t =>
      obtain ⟨dir, name⟩ := t
      obtain ⟨⟨printed', parent⟩, hdir, hlive'⟩ := ramfsResolve_spec h hcwd dir
      have hres' := resolved_resolve hdir
      simp only [hdir, Option.bind_some]
      cases parent with
      | none => exact hnone fun q other b hm => absurd (hm.place ht hres').2 (by simp)
      | some p =>
        obtain ⟨m, hm⟩ := live_iff.mp (hlive' p rfl)
        simp only [hm, Option.bind_some]
        cases hflag : hasFlag m.type fsDirectory with
        | false =>
          simp only [Bool.not_false, if_true]
          refine hnone fun q other b hmakes => ?_
          have hdirectory := hmakes.dir
          rw [← Option.some.inj (hmakes.place ht hres').2, flagged_iff hm, hflag] at hdirectory
          cases hdirectory
        | true =>
          have hp : Flagged fsDirectory fs p := (flagged_iff hm).mpr hflag
          simp only [Bool.not_true, Bool.false_eq_true, if_false]
          obtain ⟨ret, fs₁, hr, ⟨hret, rfl, hno⟩ | ⟨rfl, a, hmakes, hc⟩⟩ :=
            ramfsCreate_makes h hres ht hres' hp answer
          · simp only [hr, Option.bind_some, if_pos hret]
            exact hnone hno
          · simp only [hr, Option.bind_some, ne_eq, not_true_eq_false, if_false]
            have hkept : (createVfsNode name fsFile).name = name := writeTarget_short ht
            have hfound := hc.found h hp rfl rfl
            rw [hkept] at hfound
            rw [hfound]
            exact ⟨some a, fs₁, rfl, .made hmakes hc⟩

/-! ### The write -/

/-- The file system after the old data of the node has been freed. -/
def cleared (fs : Fs) (a : Nat) (n : VfsNode) : Fs :=
  Fs.setNode { fs with buffers := freed fs.buffers n.data } a { n with data := none, size := 0 }

theorem granted_congr (hnodes : ∀ x, (fs'.nodes x).isNone = (fs.nodes x).isNone)
    (hfiles : fs'.files = fs.files) (hbuffers : fs'.buffers = fs.buffers) :
    fs'.granted = fs.granted := by
  funext size answer
  unfold Fs.granted
  simp only [hnodes, hfiles, hbuffers]

theorem granted_cleared (hn : fs.nodes a = some n) :
    (cleared fs a n).granted = Fs.granted { fs with buffers := freed fs.buffers n.data } := by
  refine granted_congr (fun x => ?_) rfl rfl
  by_cases hx : x = a
  · rw [hx, hn, cleared, Fs.setNode]
    simp
  · exact congrArg Option.isNone (Function.update_of_ne hx _ _)

theorem cleared_same (h : Owned (contents fs) fs.buffers) (hn : fs.nodes a = some n)
    (hd : n.data = none) :
    cleared fs a n = fs := by
  have hz : n.size = 0 := h.null a n.bare (contents_eq hn) hd
  have hsame : ({ n with data := none, size := 0 } : VfsNode) = n := by
    cases n
    dsimp only at hd hz
    rw [hd, hz]
  rw [cleared, hsame, hd, Fs.setNode]
  show { fs with nodes := Function.update fs.nodes a (some n) } = fs
  rw [← hn, Function.update_eq_self]

/-- **What `fs_write_file` does to the node**: nothing when it is no file; the bytes are its data
afterwards when memory for them is granted; and otherwise the old data are lost. -/
theorem fsWriteFile_at_node (buf : Bytes) (data : Option Nat) (h : Owned (contents fs₁) fs₁.buffers)
    (hwhere : fileToWrite fs path answer = some (some a, fs₁)) (hn : fs₁.nodes a = some n) :
    ∃ ret fs', fsWriteFile fs path buf answer data = some (ret, fs') ∧
      (hasFlag n.type fsFile = false ∧ ret = -1 ∧ fs' = fs₁ ∨
        hasFlag n.type fsFile = true ∧
          (buf = [] ∨ ((cleared fs₁ a n).granted buf.length data).isSome) ∧ ret = 0 ∧
            Written fs₁ fs' a buf ∨
        hasFlag n.type fsFile = true ∧ buf ≠ [] ∧
          (cleared fs₁ a n).granted buf.length data = none ∧ ret = -1 ∧
          fs' = cleared fs₁ a n) := by
  unfold fsWriteFile
  rw [hwhere]
  simp only [hn, Option.bind_eq_bind, Option.bind_some]
  cases hflag : hasFlag n.type fsFile with
  | false => exact ⟨-1, fs₁, rfl, Or.inl ⟨rfl, rfl, rfl⟩⟩
  | true =>
    have hclear : (if n.data.isSome = true then { n with data := none, size := 0 } else n) =
        { n with data := none, size := 0 } := by
      cases hd : n.data with
      | some d => rfl
      | none =>
        have hz : n.size = 0 := h.null a n.bare (contents_eq hn) hd
        cases n
        dsimp only at hd hz
        rw [hd, hz]
        rfl
    simp only [Bool.not_true, Bool.false_eq_true, if_false, freeData_spec h hn,
      Option.bind_some, hclear]
    have hw : Written fs₁ (cleared fs₁ a n) a [] := clear_written h hn rfl
    by_cases hb : buf = []
    · refine ⟨0, cleared fs₁ a n, by rw [if_pos hb, cleared],
        Or.inr (Or.inl ⟨trivial, Or.inl hb, rfl, ?_⟩)⟩
      rwa [hb]
    rw [if_neg hb]
    have hfold :
        Fs.setNode { fs₁ with buffers := freed fs₁.buffers n.data } a
          { n with data := none, size := 0 } =
        cleared fs₁ a n := rfl
    simp only [hfold]
    cases hg : (cleared fs₁ a n).granted buf.length data with
    | none => exact ⟨-1, _, rfl, Or.inr (Or.inr ⟨trivial, hb, rfl, rfl, rfl⟩)⟩
    | some d =>
      have hn₂ : (cleared fs₁ a n).nodes a = some { n with data := none, size := 0 } :=
        Function.update_self _ _ _
      have hgive := give_written hw.owned hn₂ rfl (granted_fresh hg)
      refine ⟨0, _, rfl, Or.inr (Or.inl ⟨trivial, Or.inr rfl, rfl, ?_⟩)⟩
      exact hw.trans hgive

/-! ### Reading it back -/

theorem fsReadFile_found (h : Tree fs r kids)
    (hres : resolved fs fs.root path fs.cwd = some (some a)) (hf : Flagged fsFile fs a) :
    ∃ printed, fsReadFile fs path true = some (printed, some (dataOf fs a)) := by
  obtain ⟨⟨printed, node⟩, hpath, rfl⟩ := Option.map_eq_some_iff.mp hres
  obtain ⟨n, hn⟩ := live_iff.mp hf.live
  unfold fsReadFile
  rw [show ramfsResolve fs path = _ from hpath]
  simp only [Option.bind_eq_bind, Option.bind_some, hn, (flagged_iff hn).mp hf, Bool.not_true,
    Bool.false_eq_true,
    if_false, readData_spec h.owned hn (Nat.le_of_eq (Nat.zero_add _)), List.drop_zero]
  rw [← dataOf_length h.owned hn, List.take_length]
  exact ⟨_, rfl⟩

theorem Written.extends (h : Tree fs r kids) (hw : Written fs fs' a buf) : Extends fs fs' := by
  have ht := hw.tree h
  refine extends_of h ht (fun b hb => ⟨hw.live.mpr hb, by rw [hw.links]⟩) fun b token c hdir
    hchild =>
    ⟨flagged_of_kind (hw.kind b) hdir, ?_⟩
  have hkids : ∀ x ∈ kids b, Live fs x := fun x hx => h.tree.kids_live hx
  rw [childNamed_congr hkids (fun x hx => hw.live.mpr (hkids x hx)) (fun x _ => ?_), hchild]
  have hname : ∀ g : Fs, nameOf g x = ((kindAt g x).map Prod.fst).getD [] := by
    intro g
    rw [nameOf_contents, kindAt]
    cases contents g x <;> rfl
  rw [hname, hname, hw.kind]

/-- **The file is created in the directory to which all components but the last lead**, and has the
start of the last one as its name. -/
theorem writeTarget_follow (hroot : fs.root = some r) (hplace : slash ∈ path ∨ fs.cwd.getD r = r)
    (ht : writeTarget path = some (dir, name))
    (hdir : resolved fs fs.root dir fs.cwd = some (some p)) :
    name = (lastName path).take vfsNameMax ∧
      ∃ l, components slash path = l ++ components slash (lastName path) ∧
      follow fs (startOf fs r path) l = some (some p) := by
  have hslash : resolved fs fs.root [slash] fs.cwd = some (some p) →
      follow fs r [] = some (some p) := by
    intro hres
    rw [resolved_eq hroot (by simp)] at hres
    exact hres
  unfold writeTarget at ht
  unfold lastName
  cases hs : splitLast path with
  | none =>
    rw [hs] at ht
    obtain ⟨rfl, rfl⟩ := Prod.mk.inj (Option.some.inj ht)
    have hnone := splitLast_none hs
    have hhead : path.head? ≠ some slash := fun he => hnone (List.mem_of_mem_head? he)
    refine ⟨rfl, [], rfl, ?_⟩
    rw [startOf, if_neg hhead, hplace.resolve_left hnone]
    exact hslash hdir
  | some x =>
    obtain ⟨d, last⟩ := x
    obtain ⟨rfl, -⟩ := splitLast_some hs
    rw [hs] at ht
    cases d with
    | nil =>
      obtain ⟨rfl, rfl⟩ := Prod.mk.inj (Option.some.inj ht)
      exact ⟨rfl, [], by rw [List.nil_append, components_sep]; rfl, hslash hdir⟩
    | cons c d =>
      dsimp only at ht
      split at ht
      · cases ht
      · obtain ⟨rfl, rfl⟩ := Prod.mk.inj (Option.some.inj ht)
        rw [resolved_eq hroot (List.cons_ne_nil _ _)] at hdir
        exact ⟨rfl, components slash (c :: d), components_append _ _, hdir⟩

theorem lastName_sep (path : Bytes) : slash ∉ lastName path := by
  unfold lastName
  cases hs : splitLast path with
  | none => exact splitLast_none hs
  | some x => exact (splitLast_some hs).2

theorem MakesFile.leads (h : Tree fs r kids) (hm : MakesFile fs path answer p name a)
    (hc : Created fs fs₁ p a (createVfsNode name fsFile)) (hpath : path ≠ [])
    (hplace : slash ∈ path ∨ fs.cwd.getD r = r) (hshort : (lastName path).length ≤ vfsNameMax) :
    resolved fs₁ fs₁.root path fs₁.cwd = some (some a) := by
  obtain ⟨dir, ht, hdir⟩ := hm.target
  obtain ⟨rfl, l, hl, hfollow⟩ := writeTarget_follow h.root hplace ht hdir
  rw [List.take_of_length_le hshort] at hm hc
  have hmissing := hm.missing
  rw [resolved_eq h.root hpath, hl, follow_append _ hfollow] at hmissing
  have hne : lastName path ≠ [] := by
    intro he
    rw [he] at hmissing
    cases hmissing
  rw [components_single hne (lastName_sep path)] at hmissing hl
  obtain ⟨hdot, hdots⟩ := not_special h hm.dir.live hshort hmissing
  have hfree := hm.free
  rw [ramfsFind_spec h hm.dir, Option.some.injEq] at hfree
  have hkept : (createVfsNode (lastName path) fsFile).name = lastName path :=
    List.take_of_length_le hshort
  have hext := hc.extends h hm.dir rfl rfl (by rwa [hkept])
  rw [resolved_eq (hc.root.trans h.root) hpath, hl, startOf, hc.cwd]
  exact (follow_append _ (hext.follow_mono hfollow)).trans (hc.leads h hm.dir hshort hdot hdots)

/-- The bytes are in the file, so a path that leads to it reads them. -/
theorem Written.read (hwritten : Written fs₁ fs' a buf) (h : Tree fs₁ r kids)
    (hf : Flagged fsFile fs₁ a) (hres : resolved fs₁ fs₁.root path fs₁.cwd = some (some a)) :
    ∃ printed, fsReadFile fs' path true = some (printed, some buf) := by
  have hres' := (hwritten.extends h).resolved_mono h.root hwritten.root hwritten.cwd hres
  obtain ⟨printed, hx⟩ :=
    fsReadFile_found (hwritten.tree h) hres' (flagged_of_kind (hwritten.kind a) hf)
  exact ⟨printed, by rw [hx, hwritten.data]⟩

end CobraOS.Ramfs
