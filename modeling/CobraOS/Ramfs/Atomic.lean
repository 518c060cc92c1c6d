import CobraOS.Ramfs.Target

/-!
# Failed writes

`fs_write_file` returns `-1` from several places.  Before it has created or freed something, nothing
has changed.  Afterwards it still asks for memory for the data, and when that is refused the file
that it has just created stays behind without data, and a file that was there has lost what it held.
`write_atomic_iff` says exactly when a failure changes nothing.
-/

namespace CobraOS.Ramfs

open Base

variable {fs fs' : Fs} {r a p : Nat} {n : VfsNode} {path name buf : Bytes}
    {answer data : Option Nat}

/-- Memory for the data is refused after something has been freed or created. -/
def LosesData (fs : Fs) (path buf : Bytes) (answer data : Option Nat) : Prop :=
  buf ≠ [] ∧
    ((∃ a n, resolved fs fs.root path fs.cwd = some (some a) ∧ fs.nodes a = some n ∧
        hasFlag n.type fsFile = true ∧ n.data.isSome = true ∧
        (Fs.granted { fs with buffers := freed fs.buffers n.data } buf.length data) = none) ∨
      ∃ p name a, MakesFile fs path answer p name a ∧
        (fs.setNode a (createVfsNode name fsFile)).granted buf.length data = none)

theorem isNone_contents (fs : Fs) (x : Nat) : (fs.nodes x).isNone = (contents fs x).isNone := by
  rw [contents]
  cases fs.nodes x <;> rfl

theorem Created.granted_eq (hc : Created fs fs' p a n) :
    fs'.granted = (fs.setNode a n).granted := by
  refine granted_congr (fun x => ?_) hc.files hc.buffers
  rw [isNone_contents, hc.contents, Fs.setNode]
  by_cases hx : x = a
  · subst hx
    simp
  · rw [Function.update_of_ne hx, ← isNone_contents]
    exact (congrArg Option.isNone (Function.update_of_ne hx _ _)).symm

/-- The path leads to a node: it has data, and memory for the new ones is refused. -/
theorem losesData_there (hres : resolved fs fs.root path fs.cwd = some (some a))
    (hn : fs.nodes a = some n) :
    LosesData fs path buf answer data ↔ buf ≠ [] ∧ hasFlag n.type fsFile = true ∧
      n.data.isSome = true ∧
      (cleared fs a n).granted buf.length data = none := by
  rw [granted_cleared hn]
  constructor
  · rintro ⟨hb, ⟨a', n', hres', hn', hflag, hd, hg⟩ | ⟨p, name, b, hm, -⟩⟩
    · obtain rfl := Option.some.inj (Option.some.inj (hres.symm.trans hres'))
      obtain rfl := Option.some.inj (hn.symm.trans hn')
      exact ⟨hb, hflag, hd, hg⟩
    · have hmissing := hm.missing
      rw [hres] at hmissing
      cases hmissing
  · exact fun ⟨hb, hflag, hd, hg⟩ => ⟨hb, Or.inl ⟨a, n, hres, hn, hflag, hd, hg⟩⟩

/-- The file is created: memory for its data is refused. -/
theorem losesData_made (hmakes : MakesFile fs path answer p name a)
    (hc : Created fs fs' p a (createVfsNode name fsFile)) : LosesData fs path buf answer data ↔
      buf ≠ [] ∧ fs'.granted buf.length data = none := by
  rw [hc.granted_eq]
  constructor
  · rintro ⟨hb, ⟨a', n', hres', -⟩ | ⟨q, other, b, hm, hg⟩⟩
    · have hmissing := hmakes.missing
      rw [hres'] at hmissing
      cases hmissing
    · obtain ⟨rfl, rfl, rfl⟩ := hmakes.unique hm
      exact ⟨hb, hg⟩
  · exact fun ⟨hb, hg⟩ => ⟨hb, Or.inr ⟨p, name, a, hmakes, hg⟩⟩

/-- **When a failed write changes nothing**: exactly when memory for the data is not refused after
something has been freed or created. -/
theorem write_atomic_iff (hfs : Rooted fs r) (path buf : Bytes) (answer data : Option Nat) :
    ∃ ret fs', fsWriteFile fs path buf answer data = some (ret, fs') ∧
      ((ret = -1 → fs' = fs) ↔ ¬ LosesData fs path buf answer data) := by
  obtain ⟨⟨kids, h⟩, hcwd⟩ := hfs
  obtain ⟨node, fs₁, hwhere, hfinds⟩ := fileToWrite_finds h hcwd path answer
  cases hfinds with
  | nowhere hres hno =>
    refine ⟨-1, fs, by rw [fsWriteFile, hwhere]; rfl, iff_of_true (fun _ => rfl) ?_⟩
    rintro ⟨-, ⟨a, n, hres', -⟩ | ⟨p, name, a, hm, -⟩⟩
    · rw [hres] at hres'
      cases hres'
    · exact hno p name a hm
  | @there a hres hlive =>
    obtain ⟨n, hn⟩ := live_iff.mp hlive
    obtain ⟨ret, fs', hr, hcase⟩ := fsWriteFile_at_node buf data h.owned hwhere hn
    refine ⟨ret, fs', hr, ?_⟩
    rw [losesData_there hres hn]
    obtain ⟨hflag, -, rfl⟩ | ⟨-, hok, rfl, -⟩ | ⟨hflag, hb, hg, rfl, rfl⟩ := hcase
    · exact iff_of_true (fun _ => rfl) fun hl => by simp [hflag] at hl
    · refine iff_of_true (fun hf => absurd hf (by decide)) fun ⟨hb, _, _, hg⟩ => ?_
      rw [hg] at hok
      exact hok.elim hb fun hf => by cases hf
    · -- the file keeps its data exactly when it has none
      cases hd : n.data with
      | none =>
        exact iff_of_true (fun _ => cleared_same h.owned hn hd) fun hl => absurd hl.2.2.1 (by simp)
      | some d =>
        refine iff_of_false (fun heq => ?_) fun hl => hl ⟨hb, hflag, rfl, hg⟩
        have hcleared : (cleared fs a n).nodes a = some { n with data := none, size := 0 } :=
          Function.update_self _ _ _
        rw [heq rfl, hn, Option.some.injEq] at hcleared
        rw [hcleared] at hd
        cases hd
  | @made p a name fs₁ hmakes hc =>
    have ht := hc.tree h hmakes.dir rfl rfl
    obtain ⟨m, hm, -, -, htype⟩ := hc.node
    have hdata : m.data = none := by
      have hbare := congrFun hc.contents a
      rw [Function.update_self, contents_eq hm] at hbare
      exact congrArg VfsNode.data (Option.some.inj hbare)
    have hsame : cleared fs₁ a m = fs₁ := cleared_same ht.owned hm hdata
    obtain ⟨ret, fs', hr, hcase⟩ := fsWriteFile_at_node buf data ht.owned hwhere hm
    refine ⟨ret, fs', hr, ?_⟩
    rw [losesData_made hmakes hc]
    rw [hsame] at hcase
    obtain ⟨hflag, -, -⟩ | ⟨-, hok, rfl, -⟩ | ⟨-, hb, hg, rfl, rfl⟩ := hcase
    · have hfile : hasFlag fsFile fsFile = true := by decide
      rw [htype, createVfsNode, hfile] at hflag
      cases hflag
    · refine iff_of_true (fun hf => absurd hf (by decide)) fun ⟨hb, hg⟩ => ?_
      rw [hg] at hok
      exact hok.elim hb fun hf => by cases hf
    · -- the new node is there
      refine iff_of_false (fun heq => ?_) fun hl => hl ⟨hb, hg⟩
      have hfresh := hc.fresh
      rw [← heq rfl, hm] at hfresh
      cases hfresh

/-- There is no memory for a new file. -/
theorem write_atomic_iff_root : ∃ ret fs', fsWriteFile (boot 4096).fs [102]
    [97, 98] none none = some (ret, fs') ∧
    (ret = -1 → fs' = (boot 4096).fs) := by
  have hgood : Good (boot 4096) 4096 4096 := boot_good (by decide)
  obtain ⟨ret, fs', hr, hiff⟩ :=
    write_atomic_iff ⟨hgood.tree, cwd_live hgood⟩ [102] [97, 98] none none
  refine ⟨ret, fs', hr, hiff.mpr ?_⟩
  rintro ⟨-, ⟨a, n, hres, -⟩ | ⟨p, name, a, hm, -⟩⟩
  · have hnone : resolved (boot 4096).fs (boot 4096).fs.root [102] (boot 4096).fs.cwd = some none :=
      rfl
    rw [hnone] at hres
    cases hres
  · cases hm.node

/-- **A failed save destroys the file.**  The file `f` holds `ab`; a write for whose data there is
no memory returns `-1`, and then `f` is empty. -/
theorem failed_save_loses : ∃ fs fs', Rooted fs 4096 ∧ dataOf fs 8192 = [97, 98] ∧
    fsWriteFile fs [102] [99] none none = some (-1, fs') ∧ dataOf fs' 8192 = [] := by
  obtain ⟨fs, fs', hw, hdata, hr, hlost⟩ : ∃ fs fs',
      fsWriteFile (boot 4096).fs [102] [97, 98] (some 8192) (some 16384) = some (0, fs) ∧
      dataOf fs 8192 = [97, 98] ∧ fsWriteFile fs [102] [99] none none = some (-1, fs') ∧
        dataOf fs' 8192 = [] :=
    ⟨_, _, rfl, rfl, rfl, rfl⟩
  have hgood : Good (boot 4096) 4096 4096 := boot_good (by decide)
  have hboot : Rooted (boot 4096).fs 4096 := ⟨hgood.tree, cwd_live hgood⟩
  obtain ⟨y, hy, heff, -⟩ := fsWriteFile_spec hboot [102] [97, 98] (some 8192) (some 16384)
  rw [hw, Option.some.injEq] at hy
  rw [← hy] at heff
  exact ⟨fs, fs', hboot.effect heff, hdata, hr, hlost⟩

end CobraOS.Ramfs
