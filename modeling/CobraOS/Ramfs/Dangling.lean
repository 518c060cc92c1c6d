import CobraOS.Ramfs.Paths
import CobraOS.Ramfs.Shell

/-!
# Dangling pointers

Three kinds of pointers to nodes are kept outside the tree: `shell_cwd`, `ramfs_cwd` and the nodes
of open files.  `ramfs_delete` looks at none of them, so a directory can be removed from within
(`removed_from_within`) and a file while it is open.  In every run that spares them they stay live
(`no_dangling`), and nothing that the shell does then fails to return (`command_returns`).
-/

namespace CobraOS.Ramfs

open Base

variable {fs fs' : Fs} {sh : Shell} {r d : Nat} {kids : Nat → List Nat} {gone : Option Nat}

/-! ### What is kept outside the tree -/

/-- The two current directories are one live directory under the root, and the node of every open
file is live. -/
structure Sound (sh : Shell) : Prop where
  cwd : ∃ d, sh.shellCwd = some d ∧ sh.fs.cwd = some d ∧ Flagged fsDirectory sh.fs d ∧
    ∃ r kids, sh.fs.root = some r ∧
      (∀ p n, sh.fs.nodes p = some n → Chain (links sh.fs) n.children (kids p)) ∧
      ∃ l, Descent kids r l d
  handles : ∀ f file, sh.fs.files f = some file → Live sh.fs file.node

/-- The invariant: the nodes are a tree with the root `r`, and `d` is the current directory. -/
structure Good (sh : Shell) (r d : Nat) : Prop where
  tree : ∃ kids, Tree sh.fs r kids
  shell : sh.shellCwd = some d
  cwd : sh.fs.cwd = some d
  dir : Flagged fsDirectory sh.fs d
  handles : ∀ f file, sh.fs.files f = some file → Live sh.fs file.node

theorem Good.sound (h : Good sh r d) : Sound sh := by
  obtain ⟨kids, ht⟩ := h.tree
  obtain ⟨l, hl, -⟩ := ht.tree.existsUnique_descent h.dir.live
  exact ⟨⟨d, h.shell, h.cwd, h.dir, r, kids, ht.root, fun p n hn => ht.chain hn, l, hl⟩, h.handles⟩

theorem Good.effect (h : Good sh r d) (he : Effect sh.fs fs' r gone) (hd : gone ≠ some d)
    (hf : ∀ f file, sh.fs.files f = some file → gone ≠ some file.node) :
    Good { sh with fs := fs' } r d := by
  refine ⟨he.tree, h.shell, he.cwd.trans h.cwd, he.flagged h.dir hd, fun f file hfile => ?_⟩
  obtain ⟨old, hold, hnode⟩ | hnew := he.handle f file hfile
  · rw [← hnode]
    exact he.live (h.handles f old hold) (hf f old hold)
  · exact hnew.live

theorem Good.effect_none (h : Good sh r d) (he : Effect sh.fs fs' r none) :
    Good { sh with fs := fs' } r d :=
  h.effect he (fun hd => by cases hd) (fun _ _ _ hd => by cases hd)

/-! ### Commands that create -/

/-- A command returns, and frees nothing. -/
def Commands (sh : Shell) (r : Nat) (x : Option (Shell × List Print)) : Prop :=
  Returns x (fun y => Effect sh.fs y.1.fs r none ∧ y.1.shellCwd = sh.shellCwd)

theorem commands_same (h : Tree sh.fs r kids) (printed : List Print) :
    Commands sh r (some (sh, printed)) := .some ⟨Effect.refl h, rfl⟩

theorem commands_fs {printed : List Print} (h : Effect sh.fs fs' r none) :
    Commands sh r (some ({ sh with fs := fs' }, printed)) := .some ⟨h, rfl⟩

theorem targetOf_spec (h : Tree sh.fs r kids) (hshell : ∀ d ∈ sh.shellCwd, Live sh.fs d)
    (hcwd : ∀ d ∈ sh.fs.cwd, Live sh.fs d) (args : Bytes) :
    Returns (targetOf sh args) (fun x => ∀ p name, x.2 = some (some p, name) → Live sh.fs p) := by
  unfold targetOf
  cases splitLast args with
  | none =>
    refine .some (fun p name he => hshell p ?_)
    exact (Prod.mk.inj (Option.some.inj he)).1
  | some x =>
    obtain ⟨dir, name⟩ := x
    cases dir with
    | nil =>
      refine .some (fun p name he => ?_)
      have hp : sh.fs.root = some p := (Prod.mk.inj (Option.some.inj he)).1
      rw [h.root, Option.some.injEq] at hp
      exact hp ▸ h.rootDir.live
    | cons c dir =>
      refine .ite (fun _ => .some (fun p name he => by cases he)) (fun _ => ?_)
      refine (ramfsResolve_spec h hcwd _).bind (fun y hy => .some (fun p name he => hy p ?_))
      exact (Prod.mk.inj (Option.some.inj he)).1

theorem createCommand_spec (h : Tree sh.fs r kids) (hshell : ∀ d ∈ sh.shellCwd, Live sh.fs d)
    (hcwd : ∀ d ∈ sh.fs.cwd, Live sh.fs d) (texts : CreateTexts) (type : Nat) (args : Bytes)
    (answer : Option Nat) : Commands sh r (createCommand texts type sh args answer) := by
  unfold createCommand
  refine .ite (fun _ => commands_same h _) (fun _ => ?_)
  refine (targetOf_spec h hshell hcwd args).bind (fun x hx => ?_)
  obtain ⟨printed, target⟩ := x
  cases target with
  | none => exact commands_same h _
  | some t =>
    obtain ⟨parent, name⟩ := t
    cases parent with
    | none => exact commands_same h _
    | some p =>
      obtain ⟨n, hn⟩ := live_iff.mp (hx p name rfl)
      simp only [hn, Option.bind_eq_bind, Option.bind_some]
      refine .ite (fun _ => commands_same h _)
        (fun _ => .ite (fun _ => commands_same h _) (fun _ => ?_))
      obtain ⟨ret, fs', hr, -⟩ := ramfsCreate_spec h hn name type answer
      rw [hr]
      exact commands_fs (ramfsCreate_effect h hr)

/-! ### Commands that read -/

theorem listChildren_spec : ∀ {l : List Nat} {fuel : Nat} {p : Option Nat}, Chain (links fs) p l →
    (∀ a ∈ l, Live fs a) → l.length ≤ fuel → Returns (listChildren fs fuel p) (fun _ => True) := by
  intro l
  induction l with
  | nil =>
    intro fuel p h _ _
    rw [Chain.nil_iff] at h
    subst h
    cases fuel <;> exact .some trivial
  | cons a l ih =>
    intro fuel p h hl hf
    obtain ⟨rfl, h⟩ := h
    obtain ⟨n, hn⟩ := live_iff.mp (hl a (by simp))
    rw [show links fs a = n.next by simp [links, hn]] at h
    obtain ⟨fuel, rfl⟩ : ∃ m, fuel = m + 1 := ⟨fuel - 1, by simp at hf; omega⟩
    rw [listChildren, hn]
    exact (ih h (fun b hb => hl b (by simp [hb])) (by simpa using hf)).bind
      (fun _ _ => .some trivial)

theorem cmdLs_spec (h : Tree sh.fs r kids) (hshell : ∀ d ∈ sh.shellCwd, Live sh.fs d)
    (hcwd : ∀ d ∈ sh.fs.cwd, Live sh.fs d) (args : Bytes) : Commands sh r (cmdLs sh args) := by
  unfold cmdLs
  have hdir : Returns (listed sh args) (fun x => ∀ d ∈ x.2, Live sh.fs d) :=
    .ite (fun _ => .some hshell) (fun _ => ramfsResolve_spec h hcwd args)
  refine hdir.bind (fun x hx => ?_)
  obtain ⟨printed, dir⟩ := x
  cases dir with
  | none => exact commands_same h _
  | some d =>
    obtain ⟨n, hn⟩ := live_iff.mp (hx d rfl)
    simp only [hn, Option.bind_eq_bind, Option.bind_some]
    refine .ite (fun _ => commands_same h _)
      (fun _ => .ite (fun _ => commands_same h _) (fun _ => ?_))
    exact (listChildren_spec (h.chain hn) (fun c hc => h.tree.kids_live hc)
      (Nat.le_of_lt h.kids_short)).bind
      (fun _ _ => commands_same h _)

theorem catLoop_eq (f : Nat) : ∀ (fuel i : Nat) (fs : Fs),
    catLoop fuel fs f = readChunks (fun _ => 256) fuel i fs f := by
  intro fuel
  induction fuel with
  | zero => exact fun _ _ => rfl
  | succ fuel ih =>
    intro i fs
    rw [catLoop, readChunks]
    simp only [ih (i + 1)]

theorem catLoop_effect {f : Nat} : ∀ {fuel : Nat} {fs : Fs} {kids : Nat → List Nat}
    {x : Fs × Bytes},
    Tree fs r kids → catLoop fuel fs f = some x → Effect fs x.1 r none := by
  intro fuel
  induction fuel with
  | zero => intro fs kids x _ hx; cases hx
  | succ fuel ih =>
    intro fs kids x h hx
    rw [catLoop] at hx
    obtain ⟨⟨n, bytes, fs₁⟩, hread, hx₁⟩ := Option.bind_eq_some_iff.mp hx
    have heff : Effect fs fs₁ r none := ramfsRead_effect h hread
    obtain ⟨kids₁, h₁⟩ := heff.tree
    by_cases hn : 0 < n
    · simp only [if_pos hn] at hx₁
      obtain ⟨⟨fs₂, rest⟩, hloop, hx₂⟩ := Option.bind_eq_some_iff.mp hx₁
      rw [← Option.some.inj hx₂]
      exact heff.trans (ih (x := (fs₂, rest)) h₁ hloop)
    · simp only [if_neg hn, Option.some.injEq] at hx₁
      rw [← hx₁]
      exact heff

theorem ramfsOpen_read {fs : Fs} {a : Nat} {n : VfsNode} (hn : fs.nodes a = some n)
    (hflag : hasFlag n.type fsFile = true)
    (answer : Option Nat) : ramfsOpen fs (some a) oRead answer =
      some ((fs.granted fileBytes answer).elim (none, fs) fun f =>
        (some f, fs.setFile f (some ⟨a, oRead, 0⟩))) := by
  have happend : hasFlag oRead oAppend = false := by decide
  cases hg : fs.granted fileBytes answer with
  | none => simp [ramfsOpen, hn, hg]
  | some f => simp [ramfsOpen, hn, hflag, hg, happend]

/-- **The loop of `cat` reads the file.** -/
theorem catLoop_spec {fs : Fs} {a f : Nat} (h : Tree fs r kids) (hfile : Flagged fsFile fs a)
    (hf : fs.files f = some ⟨a, oRead, 0⟩) :
    ∃ fs' file, catLoop nodeFuel fs f = some (fs', dataOf fs a) ∧ fs'.files f = some file := by
  obtain ⟨n, hn⟩ := live_iff.mp hfile.live
  have hlen : (dataOf fs a).length - 0 < nodeFuel := by
    rw [dataOf_length h.owned hn]
    have hsmall : n.size ≤ 4194288 := h.owned.small a n.bare (contents_eq hn)
    unfold nodeFuel
    omega
  have hchunks : ∀ i : Nat, 0 < 256 ∧ 256 < 2147483648 := fun _ => by decide
  obtain ⟨fs', hloop, hview⟩ := readChunks_spec hchunks (i := 0) _ h.owned hf hfile
    (show hasFlag oRead oRead = true by decide) hlen
  rw [← catLoop_eq] at hloop
  have hopen := congrArg (fun v => View.files v f) hview
  exact ⟨fs', _, hloop, hopen.trans (Function.update_self _ _ _)⟩

theorem ramfsClose_eq {fs : Fs} {f : Nat} {file : VfsFile} (hf : fs.files f = some file) :
    ramfsClose fs (some f) = some (fs.setFile f none) := by
  rw [ramfsClose, hf]
  rfl

theorem cmdCat_spec (h : Tree sh.fs r kids) (hcwd : ∀ d ∈ sh.fs.cwd, Live sh.fs d) (args : Bytes)
    (answer : Option Nat) : Commands sh r (cmdCat sh args answer) := by
  unfold cmdCat
  refine .ite (fun _ => commands_same h _) (fun _ => ?_)
  refine (ramfsResolve_spec h hcwd args).bind (fun x hx => ?_)
  obtain ⟨printed, node⟩ := x
  cases node with
  | none => exact commands_same h _
  | some a =>
    obtain ⟨n, hn⟩ := live_iff.mp (hx a rfl)
    simp only [hn, Option.bind_eq_bind, Option.bind_some]
    refine .ite (fun _ => commands_same h _) (fun hflag => ?_)
    have hflag : hasFlag n.type fsFile = true := by simpa using hflag
    have hopen := ramfsOpen_read hn hflag answer
    have heff := ramfsOpen_effect h hopen
    rw [hopen, Option.bind_some]
    cases hg : sh.fs.granted fileBytes answer with
    | none => exact commands_same h _
    | some f =>
      rw [hg] at heff
      obtain ⟨kids₁, h₁⟩ := heff.tree
      have hlive := heff.flagged ((flagged_iff hn).mpr hflag) (fun hg => by cases hg)
      obtain ⟨fs₂, file, hloop, hfile⟩ := catLoop_spec h₁ hlive (Function.update_self _ _ _)
      simp only [Option.elim_some] at hloop heff ⊢
      simp only [hloop, Option.bind_some, ramfsClose_eq hfile]
      have heff₂ := heff.trans (catLoop_effect h₁ hloop)
      obtain ⟨kids₂, h₂⟩ := heff₂.tree
      exact commands_fs (heff₂.trans (setFile_effect h₂ (fun new hnew => by cases hnew)))

/-! ### The editor -/

/-- What commands need of the file system. -/
structure Rooted (fs : Fs) (r : Nat) : Prop where
  tree : ∃ kids, Tree fs r kids
  cwd : ∀ d ∈ fs.cwd, Live fs d

theorem Rooted.effect (h : Rooted fs r) (he : Effect fs fs' r none) : Rooted fs' r :=
  ⟨he.tree, fun d hd => he.live (h.cwd d (he.cwd ▸ hd)) (fun hg => by cases hg)⟩

theorem fsReadFile_spec (h : Rooted fs r) (path : Bytes) (ok : Bool) :
    Returns (fsReadFile fs path ok) (fun _ => True) := by
  obtain ⟨kids, ht⟩ := h.tree
  unfold fsReadFile
  refine (ramfsResolve_spec ht h.cwd path).bind (fun x hx => ?_)
  obtain ⟨printed, node⟩ := x
  cases node with
  | none => exact .some trivial
  | some a =>
    obtain ⟨n, hn⟩ := live_iff.mp (hx a rfl)
    simp only [hn, Option.bind_eq_bind, Option.bind_some]
    refine .ite (fun _ => .some trivial) (fun _ => .ite (fun _ => .some trivial) (fun _ => ?_))
    rw [readData_spec ht.owned hn (Nat.le_of_eq (Nat.zero_add _))]
    exact .some trivial

theorem fileToWrite_spec (h : Rooted fs r) (path : Bytes) (answer : Option Nat) :
    Returns (fileToWrite fs path answer)
      (fun y => Effect fs y.2 r none ∧ ∀ a ∈ y.1, Live y.2 a) := by
  obtain ⟨kids, ht⟩ := h.tree
  have hsame : Returns (some (none, fs)) (fun y : Option Nat × Fs =>
      Effect fs y.2 r none ∧ ∀ a ∈ y.1, Live y.2 a) :=
    .some ⟨Effect.refl ht, fun a ha => by cases ha⟩
  unfold fileToWrite
  refine (ramfsResolve_spec ht h.cwd path).bind (fun x hx => ?_)
  obtain ⟨_, node⟩ := x
  cases node with
  | some a => exact .some ⟨Effect.refl ht, fun b hb => hx b hb⟩
  | none =>
    cases writeTarget path with
    | none => exact hsame
    | some t =>
      obtain ⟨dir, name⟩ := t
      refine (ramfsResolve_spec ht h.cwd dir).bind (fun y hy => ?_)
      obtain ⟨_, parent⟩ := y
      cases parent with
      | none => exact hsame
      | some p =>
        have hp := hy p rfl
        obtain ⟨n, hn⟩ := live_iff.mp hp
        simp only [hn, Option.bind_eq_bind, Option.bind_some]
        refine .ite (fun _ => hsame) (fun _ => ?_)
        obtain ⟨ret, fs', hr, -⟩ := ramfsCreate_spec ht hn name fsFile answer
        have heff := ramfsCreate_effect ht hr
        obtain ⟨kids', ht'⟩ := heff.tree
        rw [hr]
        simp only [Option.bind_some]
        refine .ite (fun _ => .some ⟨heff, fun a ha => by cases ha⟩) (fun _ => ?_)
        have hlive : Live fs' p := heff.live hp (fun hg => by cases hg)
        exact (finddir_live ht' hlive name).bind (fun c hc => .some ⟨heff, hc⟩)

/-- What a successful `fs_write_file` leaves in the file that it finds or creates. -/
def WritesFile (fs fs' : Fs) (path buf : Bytes) (answer : Option Nat) : Prop :=
  ∃ node fs₁, fileToWrite fs path answer = some (some node, fs₁) ∧ Written fs₁ fs' node buf

theorem fsWriteFile_spec (h : Rooted fs r) (path buf : Bytes) (answer data : Option Nat) :
    Returns (fsWriteFile fs path buf answer data) (fun y => Effect fs y.2 r none ∧
      (y.1 = 0 → WritesFile fs y.2 path buf answer)) := by
  unfold fsWriteFile
  obtain ⟨⟨node, fs₁⟩, hwhere, heff, hlive⟩ := fileToWrite_spec h path answer
  dsimp only at heff hlive
  rw [hwhere]
  have hfail : Effect fs fs₁ r none ∧ ((-1 : Int) = 0 → WritesFile fs fs₁ path buf answer) :=
    ⟨heff, fun hf => absurd hf (by decide)⟩
  cases node with
  | none => exact .some hfail
  | some a =>
    obtain ⟨kids₁, h₁⟩ := heff.tree
    obtain ⟨n, hn⟩ := live_iff.mp (hlive a rfl)
    simp only [hn, Option.bind_eq_bind, Option.bind_some]
    refine .ite (fun _ => .some hfail) (fun _ => ?_)
    -- whether or not there was data, there is none now
    have hclear : (if n.data.isSome = true then { n with data := none, size := 0 } else n) =
        { n with data := none, size := 0 } := by
      cases hd : n.data with
      | some d => rfl
      | none =>
        have hz : n.size = 0 := h₁.owned.null a n.bare (contents_eq hn) hd
        cases n
        dsimp only at hd hz
        rw [hd, hz]
        rfl
    rw [hclear, freeData_spec h₁.owned hn]
    simp only [Option.bind_some]
    have hw := clear_written h₁.owned hn rfl
    have heff₂ := heff.trans (hw.effect h₁)
    refine .ite (fun hb => ?_) (fun _ => ?_)
    · rw [hb]
      exact .some ⟨heff₂, fun _ => ⟨a, fs₁, hwhere, hw⟩⟩
    cases hg : Fs.granted _ buf.length data with
    | none => exact .some ⟨heff₂, fun hf => absurd (show (-1 : Int) = 0 from hf) (by decide)⟩
    | some d =>
      have hn₂ : (Fs.setNode { fs₁ with buffers := freed fs₁.buffers n.data } a
          { n with data := none, size := 0 }).nodes a = some { n with data := none, size := 0 } :=
        Function.update_self _ _ _
      have hgive := give_written hw.owned hn₂ rfl (granted_fresh hg)
      exact .some ⟨heff₂.trans (hgive.effect (hw.tree h₁)),
        fun _ => ⟨a, fs₁, hwhere, hw.trans hgive⟩⟩

theorem editorLoad_spec (h : Rooted fs r) (path : Bytes) (read parse name : Bool) :
    Returns (editorLoad fs path read parse name) (fun _ => True) := by
  refine (fsReadFile_spec h path read).bind fun x _ => ?_
  obtain ⟨printed, bytes⟩ := x
  cases bytes with
  | none => exact .some trivial
  | some _ => exact .ite (fun _ => .some trivial) (fun _ => .some trivial)

theorem editorCall_spec (h : Rooted fs r) (filename : Option Bytes) (c : EditorCall) :
    Returns (editorCall fs filename c) (fun y => Effect fs y.1 r none) := by
  obtain ⟨kids, ht⟩ := h.tree
  cases c with
  | load path read parse name =>
    refine (editorLoad_spec h path read parse name).bind fun x _ => ?_
    obtain ⟨printed, loaded⟩ := x
    cases loaded with
    | none => exact .some (Effect.refl ht)
    | some _ => exact .some (Effect.refl ht)
  | save text buf answer data =>
    cases filename with
    | none => exact .some (Effect.refl ht)
    | some path =>
      refine .ite (fun _ => ?_) (fun _ => .some (Effect.refl ht))
      exact (fsWriteFile_spec h path text answer data).bind (fun x hx => .some hx.1)

theorem editorCalls_spec : ∀ {cs : List EditorCall} {fs : Fs} {filename : Option Bytes},
    Rooted fs r →
    Returns (editorCalls fs filename cs) (fun fs' => Effect fs fs' r none) := by
  intro cs
  induction cs with
  | nil =>
    intro fs filename h
    obtain ⟨kids, ht⟩ := h.tree
    exact .some (Effect.refl ht)
  | cons c cs ih =>
    intro fs filename h
    refine (editorCall_spec h filename c).bind (fun x hx => ?_)
    exact (ih (h.effect hx)).mono (fun fs' hfs' => hx.trans hfs')

theorem cmdSn_spec (h : Rooted sh.fs r) (args : Bytes) (read parse name : Bool)
    (cs : List EditorCall) :
    Commands sh r (cmdSn sh args read parse name cs) := by
  obtain ⟨kids, ht⟩ := h.tree
  unfold cmdSn
  refine .ite (fun _ => commands_same ht _) (fun _ => ?_)
  refine (editorLoad_spec h _ read parse name).bind fun x _ => ?_
  obtain ⟨printed, loaded⟩ := x
  cases loaded with
  | none => exact commands_same ht _
  | some _ => exact (editorCalls_spec h).bind fun fs' hfs' => commands_fs hfs'

/-! ### Deletion, and the current directory -/

/-- `ramfs_delete` deletes the node: it is not the root and has no children. -/
def Deletable (fs : Fs) (a : Nat) : Prop :=
  fs.root ≠ some a ∧ ∃ n, fs.nodes a = some n ∧
    (hasFlag n.type fsDirectory && n.children.isSome) = false

/-- The node is not the current directory, nor that of an open file. -/
def Spared (fs : Fs) (a : Nat) : Prop :=
  fs.cwd ≠ some a ∧ ∀ f file, fs.files f = some file → file.node ≠ a

theorem deletable_iff (h : Tree fs r kids) {a : Nat} {n : VfsNode} (hn : fs.nodes a = some n) :
    Deletable fs a ↔ a ≠ r ∧ kids a = [] := by
  have hchain := h.chain hn
  constructor
  · rintro ⟨hroot, m, hm, hleaf⟩
    rw [hn, Option.some.injEq] at hm
    subst hm
    refine ⟨fun ha => hroot (ha ▸ h.root), ?_⟩
    by_contra hk
    obtain ⟨c, hc⟩ := List.exists_mem_of_ne_nil _ hk
    rw [(flagged_iff hn).mp (h.dir a c hc), Bool.true_and] at hleaf
    rw [Option.isSome_eq_false_iff, Option.isNone_iff_eq_none] at hleaf
    rw [hleaf, Chain.none_iff] at hchain
    exact hk hchain
  · rintro ⟨ha, hleaf⟩
    refine ⟨fun hr => ha (Option.some.inj (hr.symm.trans h.root)), n, hn, ?_⟩
    rw [hleaf, Chain.nil_iff] at hchain
    simp [hchain]

theorem Good.delete (h : Good sh r d) {a : Nat} (ha : Live sh.fs a)
    (hspare : Deletable sh.fs a → Spared sh.fs a) :
    Returns (ramfsDelete sh.fs (some a)) (fun x => Good { sh with fs := x.2 } r d) := by
  obtain ⟨kids, ht⟩ := h.tree
  obtain ⟨n, hn⟩ := live_iff.mp ha
  obtain ⟨ret, fs', hr, ⟨-, rfl, -⟩ | ⟨-, hne, hleaf, -⟩⟩ := ramfsDelete_spec ht hn
  · exact ⟨_, hr, h⟩
  · obtain ⟨hcwd, hfiles⟩ := hspare ((deletable_iff ht hn).mpr ⟨hne, hleaf⟩)
    refine ⟨_, hr, h.effect (ramfsDelete_effect ht hr) (fun hd => hcwd ?_) (fun f file hf hd => ?_)⟩
    · rw [h.cwd, Option.some.inj hd]
    · exact hfiles f file hf (Option.some.inj hd).symm

/-- The node that a command or a call gives to `ramfs_delete`. -/
def deleted (sh : Shell) : Op → Option Nat
  | .rm args => (ramfsResolve sh.fs args).bind Prod.snd
  | .call c => c.deletes
  | _ => none

/-- What is deleted is neither the current directory nor open. -/
def Spares (sh : Shell) (op : Op) : Prop :=
  ∀ a, deleted sh op = some a → Deletable sh.fs a → Spared sh.fs a

/-- What is read or written through a handle ends below `2 ^ 32`. -/
def InRange (sh : Shell) : Op → Prop
  | .call (.read f size) => ∀ file, sh.fs.files f = some file →
      file.position + size < 4294967296
  | .call (.write f buffer _) => ∀ file, sh.fs.files f = some file →
      file.position + buffer.length < 4294967296
  | _ => True

theorem cwd_live (h : Good sh r d) : ∀ c ∈ sh.fs.cwd, Live sh.fs c := by
  intro c hc
  rw [h.cwd, Option.mem_def, Option.some.injEq] at hc
  exact hc ▸ h.dir.live

theorem shell_live (h : Good sh r d) : ∀ c ∈ sh.shellCwd, Live sh.fs c := by
  intro c hc
  rw [h.shell, Option.mem_def, Option.some.injEq] at hc
  exact hc ▸ h.dir.live

theorem Good.rm (h : Good sh r d) (args : Bytes) (hspare : Spares sh (.rm args)) :
    Returns (cmdRm sh args) (fun x => Good x.1 r d) := by
  obtain ⟨kids, ht⟩ := h.tree
  unfold cmdRm
  refine .ite (fun _ => .some h) (fun _ => ?_)
  obtain ⟨⟨printed, node⟩, hr, hlive⟩ := ramfsResolve_spec ht (cwd_live h) args
  rw [hr]
  cases node with
  | none => exact .some h
  | some a =>
    have hd : deleted sh (.rm args) = some a := by simp [deleted, hr]
    exact (h.delete (hlive a rfl) (hspare a hd)).bind (fun x hx => .some hx)

theorem Good.cd (h : Good sh r d) (args : Bytes) :
    Returns (cmdCd sh args) (fun x => ∃ d', Good x.1 r d') := by
  obtain ⟨kids, ht⟩ := h.tree
  have hnew : Returns (newCwd sh args) (fun x => ∀ c ∈ x.2, Live sh.fs c) := by
    refine .ite (fun _ => .some (fun c hc => ?_)) (fun _ => ramfsResolve_spec ht (cwd_live h) args)
    rw [ht.root, Option.mem_def, Option.some.injEq] at hc
    exact hc ▸ ht.rootDir.live
  unfold cmdCd
  refine hnew.bind (fun x hx => ?_)
  obtain ⟨printed, node⟩ := x
  cases node with
  | none => exact .some ⟨d, h⟩
  | some c =>
    obtain ⟨n, hn⟩ := live_iff.mp (hx c rfl)
    simp only [hn, Option.bind_eq_bind, Option.bind_some]
    refine .ite (fun _ => .some ⟨d, h⟩) (fun hdir => .some ⟨c, ?_⟩)
    have hflag : Flagged fsDirectory sh.fs c := (flagged_iff hn).mpr (by simpa using hdir)
    exact ⟨⟨kids, ⟨ht.tree, ht.root, ht.rootDir, ht.dir, ht.addr, ht.owned⟩⟩, rfl, rfl,
      hflag, h.handles⟩

/-! ### One step -/

theorem Good.commands (h : Good sh r d) {x : Option (Shell × List Print)} (hx : Commands sh r x) :
    Returns (command x) (fun sh' => ∃ d', Good sh' r d') := by
  obtain ⟨⟨sh', printed⟩, rfl, heff, hshell⟩ := hx
  refine ⟨sh', rfl, d, ?_⟩
  have hgood := h.effect_none heff
  exact ⟨hgood.tree, hshell.trans h.shell, hgood.cwd, hgood.dir, hgood.handles⟩

theorem Good.call (h : Good sh r d) {c : Call} (hp : Allowed sh.fs c) (hspare : Spares sh (.call c))
    (hc : call sh.fs c = some fs') : Good { sh with fs := fs' } r d := by
  obtain ⟨kids, ht⟩ := h.tree
  cases c with
  | delete node =>
    obtain ⟨⟨ret, fs₁⟩, hr, rfl⟩ := Option.map_eq_some_iff.mp hc
    exact (h.delete hp (hspare node rfl)).of_eq hr
  | _ => exact h.effect_none (call_effect ht hc)

/-- **The step lemma.** -/
theorem Good.exec (h : Good sh r d) {op : Op} {sh' : Shell} (hp : Passes sh op)
    (hspare : Spares sh op) (he : exec sh op = some sh') : ∃ d', Good sh' r d' := by
  obtain ⟨kids, ht⟩ := h.tree
  have hroot : Rooted sh.fs r := ⟨h.tree, cwd_live h⟩
  cases op with
  | mkdir args answer =>
    exact (h.commands (createCommand_spec ht (shell_live h) (cwd_live h) _ _ args answer)).of_eq he
  | touch args answer =>
    exact (h.commands (createCommand_spec ht (shell_live h) (cwd_live h) _ _ args answer)).of_eq he
  | rm args =>
    obtain ⟨x, hx, rfl⟩ := Option.map_eq_some_iff.mp he
    exact ⟨d, (h.rm args hspare).of_eq hx⟩
  | cd args =>
    obtain ⟨x, hx, rfl⟩ := Option.map_eq_some_iff.mp he
    exact (h.cd args).of_eq hx
  | ls args => exact (h.commands (cmdLs_spec ht (shell_live h) (cwd_live h) args)).of_eq he
  | cat args answer => exact (h.commands (cmdCat_spec ht (cwd_live h) args answer)).of_eq he
  | sn args read parse name cs =>
    exact (h.commands (cmdSn_spec hroot args read parse name cs)).of_eq he
  | call c =>
    obtain ⟨fs₁, hc, hsh⟩ := Option.bind_eq_some_iff.mp he
    rw [← Option.some.inj hsh]
    exact ⟨d, h.call hp hspare hc⟩

theorem call_returns (h : Good sh r d) {c : Call} (hp : Allowed sh.fs c)
    (hr : InRange sh (.call c)) :
    ∃ fs', call sh.fs c = some fs' := by
  obtain ⟨kids, ht⟩ := h.tree
  cases c with
  | create parent name type answer =>
    obtain ⟨n, hn⟩ := live_iff.mp hp
    obtain ⟨ret, fs', hcreate, -⟩ := ramfsCreate_spec ht hn name type answer
    exact ⟨fs', by simp [Ramfs.call, hcreate]⟩
  | delete node =>
    obtain ⟨n, hn⟩ := live_iff.mp hp
    obtain ⟨ret, fs', hdelete, -⟩ := ramfsDelete_spec ht hn
    exact ⟨fs', by simp [Ramfs.call, hdelete]⟩
  | «open» node flags answer =>
    obtain ⟨n, hn⟩ := live_iff.mp hp
    refine Option.isSome_iff_exists.mp ?_
    simp only [Ramfs.call, ramfsOpen, hn, Option.bind_eq_bind, Option.bind_some, Option.isSome_map]
    split
    · rfl
    · cases sh.fs.granted fileBytes answer <;> rfl
  | read f size =>
    obtain ⟨file, hf⟩ := Option.isSome_iff_exists.mp hp
    obtain ⟨n, hn⟩ := live_iff.mp (h.handles f file hf)
    refine Option.isSome_iff_exists.mp ?_
    simp only [Ramfs.call, ramfsRead, hf, Option.bind_eq_bind, Option.bind_some, Option.isSome_map,
      defaultRead_spec ht.owned hn (fun _ => hr file hf)]
    split <;> rfl
  | write f buffer answer =>
    obtain ⟨file, hf⟩ := Option.isSome_iff_exists.mp hp
    obtain ⟨n, hn⟩ := live_iff.mp (h.handles f file hf)
    obtain ⟨ret, fs', hwrite, -⟩ := defaultWrite_spec ht.owned hn (hr file hf) answer
    refine Option.isSome_iff_exists.mp ?_
    simp only [Ramfs.call, ramfsWrite, hf, Option.bind_eq_bind, Option.bind_some,
      Option.isSome_map, hwrite]
    split <;> rfl
  | close f =>
    obtain ⟨file, hf⟩ := Option.isSome_iff_exists.mp hp
    exact ⟨_, ramfsClose_eq hf⟩

/-- **Nothing gets stuck** in a good state, on any arguments. -/
theorem exec_returns (h : Good sh r d) {op : Op} (hp : Passes sh op) (hspare : Spares sh op)
    (hr : InRange sh op) : ∃ sh', exec sh op = some sh' := by
  obtain ⟨kids, ht⟩ := h.tree
  have hroot : Rooted sh.fs r := ⟨h.tree, cwd_live h⟩
  cases op with
  | mkdir args answer =>
    obtain ⟨sh', hsh, -⟩ := h.commands (createCommand_spec ht (shell_live h) (cwd_live h) mkdirTexts
      fsDirectory args answer)
    exact ⟨sh', hsh⟩
  | touch args answer =>
    obtain ⟨sh', hsh, -⟩ := h.commands (createCommand_spec ht (shell_live h) (cwd_live h) touchTexts
      fsFile args answer)
    exact ⟨sh', hsh⟩
  | rm args =>
    obtain ⟨x, hx, -⟩ := h.rm args hspare
    exact ⟨x.1, by simp [Ramfs.exec, command, hx]⟩
  | cd args =>
    obtain ⟨x, hx, -⟩ := h.cd args
    exact ⟨x.1, by simp [Ramfs.exec, command, hx]⟩
  | ls args =>
    obtain ⟨sh', hsh, -⟩ := h.commands (cmdLs_spec ht (shell_live h) (cwd_live h) args)
    exact ⟨sh', hsh⟩
  | cat args answer =>
    obtain ⟨sh', hsh, -⟩ := h.commands (cmdCat_spec ht (cwd_live h) args answer)
    exact ⟨sh', hsh⟩
  | sn args read parse name cs =>
    obtain ⟨sh', hsh, -⟩ := h.commands (cmdSn_spec hroot args read parse name cs)
    exact ⟨sh', hsh⟩
  | call c =>
    obtain ⟨fs', hc⟩ := call_returns h hp hr
    exact ⟨{ sh with fs := fs' }, by simp [Ramfs.exec, hc]⟩

/-! ### Every run -/

theorem boot_good {a : Nat} (ha : a < 4294967296) : Good (boot a) a a := by
  have ht := init_tree ha
  have hroot := ht.root
  have hboot : boot a = ⟨ramfsSetCwd (ramfsInit empty (some a)) (some a), some a⟩ := by
    simp only [boot, hroot]
    rfl
  rw [hboot]
  refine ⟨⟨_, ⟨ht.tree, ht.root, ht.rootDir, ht.dir, ht.addr, ht.owned⟩⟩, rfl, rfl, ht.rootDir,
    fun f file hf => ?_⟩
  rw [init_eq ha] at hf
  cases hf

/-- The runs that delete neither the current directory nor an open file. -/
def sparing : System Shell Op := system.restrict Spares

theorem sparing_good (h : sparing.Reach sh) : ∃ r d, Good sh r d := by
  refine h.induct (P := fun sh => ∃ r d, Good sh r d) (fun sh hi => ?_)
    (fun sh op sh' hg hstep => ?_)
  · obtain ⟨a, ha, rfl⟩ := hi
    exact ⟨a, a, boot_good ha⟩
  · obtain ⟨r, d, hg⟩ := hg
    exact ⟨r, hg.exec hstep.2.1 hstep.1 hstep.2.2⟩

/-- **No pointer dangles** as long as neither the current directory nor an open file is deleted. -/
theorem no_dangling (h : sparing.Reach sh) : Sound sh := by
  obtain ⟨r, d, hg⟩ := sparing_good h
  exact hg.sound

theorem spares_of_none {op : Op} (h : deleted sh op = none) : Spares sh op := by
  intro a ha
  rw [h] at ha
  cases ha

/-- A directory is made, entered, left and removed. -/
theorem no_dangling_removed : ∃ sh₁ sh₂ sh₃ sh₄, exec (boot 4096)
    (.mkdir [97] (some 8192)) = some sh₁ ∧
    exec sh₁ (.cd [97]) = some sh₂ ∧ exec sh₂ (.cd [46, 46]) = some sh₃ ∧
    exec sh₃ (.rm [97]) = some sh₄ ∧ Sound sh₄ := by
  obtain ⟨sh₁, sh₂, sh₃, sh₄, h₁, h₂, h₃, h₄, hdel, hcwd, hfiles⟩ : ∃ sh₁ sh₂ sh₃ sh₄,
      exec (boot 4096) (.mkdir [97] (some 8192)) = some sh₁ ∧ exec sh₁ (.cd [97]) = some sh₂ ∧
      exec sh₂ (.cd [46, 46]) = some sh₃ ∧ exec sh₃ (.rm [97]) = some sh₄ ∧
      deleted sh₃ (.rm [97]) = some 8192 ∧ sh₃.fs.cwd = some 4096 ∧ sh₃.fs.files = fun _ => none :=
    ⟨_, _, _, _, rfl, rfl, rfl, rfl, rfl, rfl, rfl⟩
  have hr₀ : sparing.Reach (boot 4096) := .init ⟨4096, by decide, rfl⟩
  have hr₁ : sparing.Reach sh₁ := hr₀.step (e := .mkdir [97] (some 8192))
    ⟨spares_of_none rfl, trivial, h₁⟩
  have hr₂ : sparing.Reach sh₂ := hr₁.step (e := .cd [97]) ⟨spares_of_none rfl, trivial, h₂⟩
  have hr₃ : sparing.Reach sh₃ := hr₂.step (e := .cd [46, 46]) ⟨spares_of_none rfl, trivial, h₃⟩
  have hspare : Spares sh₃ (.rm [97]) := by
    intro a ha _
    rw [hdel, Option.some.injEq] at ha
    subst ha
    refine ⟨by rw [hcwd]; decide, fun f file hf => ?_⟩
    rw [hfiles] at hf
    cases hf
  exact ⟨sh₁, sh₂, sh₃, sh₄, h₁, h₂, h₃, h₄,
    no_dangling (hr₃.step (e := .rm [97]) ⟨hspare, trivial, h₄⟩)⟩

/-- A directory is made, entered and removed from within. -/
theorem removed_from_within : ∃ sh₁ sh₂ sh₃, exec (boot 4096) (.mkdir [97] (some 8192)) = some sh₁ ∧
    exec sh₁ (.cd [97]) = some sh₂ ∧ exec sh₂ (.rm [46]) = some sh₃ ∧ system.Reach sh₃ ∧
      ¬ Sound sh₃ := by
  obtain ⟨sh₁, sh₂, sh₃, h₁, h₂, h₃, hcwd, hnode⟩ : ∃ sh₁ sh₂ sh₃,
      exec (boot 4096) (.mkdir [97] (some 8192)) = some sh₁ ∧ exec sh₁ (.cd [97]) = some sh₂ ∧
      exec sh₂ (.rm [46]) = some sh₃ ∧ sh₃.fs.cwd = some 8192 ∧ sh₃.fs.nodes 8192 = none :=
    ⟨_, _, _, rfl, rfl, rfl, rfl, rfl⟩
  have hr₀ : system.Reach (boot 4096) := .init ⟨4096, by decide, rfl⟩
  have hr₁ : system.Reach sh₁ := hr₀.step (e := .mkdir [97] (some 8192)) ⟨trivial, h₁⟩
  have hr₂ : system.Reach sh₂ := hr₁.step (e := .cd [97]) ⟨trivial, h₂⟩
  refine ⟨sh₁, sh₂, sh₃, h₁, h₂, h₃, hr₂.step (e := .rm [46]) ⟨trivial, h₃⟩, fun hsound => ?_⟩
  obtain ⟨d, -, hd, hdir, -⟩ := hsound.cwd
  rw [hcwd, Option.some.injEq] at hd
  obtain ⟨n, hn⟩ := live_iff.mp (hd ▸ hdir.live)
  rw [hnode] at hn
  cases hn

/-- In these runs every command returns, and every call that stays in range. -/
theorem command_returns (h : sparing.Reach sh) {op : Op} (hp : Passes sh op) (hspare : Spares sh op)
    (hr : InRange sh op) : ∃ sh', sparing.step sh op sh' := by
  obtain ⟨r, d, hg⟩ := sparing_good h
  obtain ⟨sh', hsh⟩ := exec_returns hg hp hspare hr
  exact ⟨sh', hspare, hp, hsh⟩

theorem exec_deleted {op : Op} {a : Nat} {sh' : Shell} (hd : deleted sh op = some a)
    (he : exec sh op = some sh') :
    ∃ ret fs', ramfsDelete sh.fs (some a) = some (ret, fs') ∧ sh' = { sh with fs := fs' } := by
  cases op with
  | rm args =>
    obtain ⟨⟨printed, node⟩, hres, hnode⟩ := Option.bind_eq_some_iff.mp hd
    have hargs : args ≠ [] := by
      rintro rfl
      unfold ramfsResolve vfsResolvePath at hres
      cases hroot : sh.fs.root with
      | none =>
        rw [hroot] at hres
        cases hres
        cases hnode
      | some r =>
        rw [hroot] at hres
        cases hres
        cases hnode
    obtain ⟨x, hx, rfl⟩ := Option.map_eq_some_iff.mp he
    have hnode : node = some a := hnode
    unfold cmdRm at hx
    rw [if_neg hargs, hres, hnode] at hx
    simp only [Option.bind_eq_bind, Option.bind_some] at hx
    obtain ⟨⟨ret, fs'⟩, hr, hx'⟩ := Option.bind_eq_some_iff.mp hx
    exact ⟨ret, fs', hr, by rw [← Option.some.inj hx']⟩
  | call c =>
    cases c with
    | delete node =>
      obtain ⟨fs', hc, hsh⟩ := Option.bind_eq_some_iff.mp he
      obtain ⟨⟨ret, fs₁⟩, hr, rfl⟩ := Option.map_eq_some_iff.mp hc
      rw [Option.some.inj hd] at hr
      exact ⟨ret, fs₁, hr, (Option.some.inj hsh).symm⟩
    | _ => cases hd
  | _ => cases hd

/-- **The condition is the right one**: a step that breaks it leaves a pointer dangling. -/
theorem dangles (h : sparing.Reach sh) {op : Op} (hbad : ¬ Spares sh op) {sh' : Shell}
    (he : exec sh op = some sh') : ¬ Sound sh' := by
  obtain ⟨r, d, hg⟩ := sparing_good h
  obtain ⟨kids, ht⟩ := hg.tree
  unfold Spares at hbad
  push Not at hbad
  obtain ⟨a, hdel, hdeletable, hkept⟩ := hbad
  obtain ⟨n, hn, -⟩ := hdeletable.2
  obtain ⟨hne, hleaf⟩ := (deletable_iff ht hn).mp hdeletable
  obtain ⟨ret, fs', hr, rfl⟩ := exec_deleted hdel he
  obtain ⟨ret', fs₁, hr', hcase⟩ := ramfsDelete_spec ht hn
  rw [hr, Option.some.injEq, Prod.mk.injEq] at hr'
  obtain ⟨rfl, rfl⟩ := hr'
  intro hsound
  obtain ⟨-, -, hwhy⟩ | ⟨-, -, -, p, pre, post, -, hd⟩ := hcase
  · exact hwhy.elim hne (fun hk => hk hleaf)
  · have hfreed := freed_of_deleted ht hn hd
    have hdead : ¬ Live fs' a := by
      rw [live_iff, hfreed.node]
      simp
    unfold Spared at hkept
    push Not at hkept
    obtain ⟨d', -, hcwd, hdir, -⟩ := hsound.cwd
    by_cases hc : sh.fs.cwd = some a
    · rw [show ({ sh with fs := fs' } : Shell).fs.cwd = sh.fs.cwd from hd.cwd, hc,
        Option.some.injEq] at hcwd
      exact hdead (hcwd ▸ hdir.live)
    · obtain ⟨f, file, hf, hnode⟩ := hkept hc
      exact hdead (hnode ▸ hsound.handles f file (hd.files ▸ hf))

end CobraOS.Ramfs
