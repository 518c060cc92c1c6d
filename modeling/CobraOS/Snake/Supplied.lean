import CobraOS.Snake.Refused

/-!
# Runs of the editor without memory

Every run of `cmd_sn`, whatever `kmalloc` refuses.  Its editor stays sound as long as the run is
supplied: `editor_init` gets memory for its line, and no snapshot is taken without a stack
(`SoundMemory.step`).  Then no field is read before it was written, and `editor_free` at the end
frees only what was granted (`run_safe`).
-/

namespace CobraOS.Snake

open Base
open Ramfs (Fs Bytes)

section

variable {w : World} {ed : Editor} {fs : Fs} {path : Bytes}

/-! ### Files -/

/-- `fs_read_file` finds a file at `path`, and the heap grants its buffer. -/
def ReadsFile (fs : Fs) (path : Bytes) (w : World) : Prop :=
  ∃ r n, Ramfs.ramfsResolve fs path = some r ∧ r.2.bind fs.nodes = some n ∧
    Ramfs.hasFlag n.type Ramfs.fsFile = true ∧ n.size < maxRequest ∧ w.grants w.calls = true

theorem fsReadFile_reads (fs : Fs) (path : Bytes) : Leads (fsReadFile fs path) w (fun x w' =>
    x.isSome = true → ReadsFile fs path w ∧ w'.calls = w.calls + 1 ∧ w'.grants = w.grants) := by
  unfold fsReadFile
  refine Leads.lift fun r hr => ?_
  obtain ⟨printed, node⟩ := r
  cases node with
  | none => exact Leads.pure fun hf => absurd hf (by simp)
  | some node =>
    refine Leads.lift fun n hn => Leads.ite (fun _ => Leads.pure fun hf => absurd hf (by simp))
      fun hfile => ?_
    intro x w' hrun hsome
    simp only [Bind.bind, StateT.bind] at hrun
    obtain ⟨⟨buf, w1⟩, hk, hrest⟩ := Option.bind_eq_some_iff.mp hrun
    obtain ⟨hcalls, hgrants, hnone⟩ := kmalloc_call _ _ _ _ hk
    have hlen := kmalloc_size _ _ _ _ hk
    cases buf with
    | none =>
      cases hrest
      exact absurd hsome (by simp)
    | some buf =>
      obtain ⟨hle, -⟩ :=
        (Leads.of_meets (Meets.request (Q := fun b _ => ∀ b' : Block UInt8, b = some b' →
        (n.size + 1) % 4294967296 ≤ maxRequest ∧ 0 < (n.size + 1) % 4294967296)
        (fun _ _ h0 hmax _ _ _ => ⟨hmax, h0⟩) fun _ _ _ hb => by cases hb)) _ _ hk buf rfl
      have hroom : Leads (do
          let buf ← readInto fs n buf
          let buf ← buf.set n.size 0
          pure (some (buf, n.size)) : Alloc (Option (Block UInt8 × Nat))) w1 (fun _ w2 =>
            w2 = w1 ∧ n.size < buf.cells.length) := by
        refine Leads.lift fun b1 h1 => Leads.lift fun b2 h2 => Leads.pure ⟨rfl, ?_⟩
        obtain ⟨hlt, -⟩ := Block.set_some h2
        obtain rfl | ⟨bytes, hbytes, hle, rfl⟩ := readInto_some h1
        · exact hlt
        · simp only [List.length_append, List.length_map, List.length_drop, hbytes] at hlt
          omega
      obtain ⟨rfl, hlt⟩ := hroom x w' hrest
      have hsize := hlen buf rfl
      rw [Nat.div_one] at hsize
      refine ⟨⟨_, n, hr, hn, by simpa using hfile, by omega, ?_⟩, hcalls, hgrants⟩
      cases hg : w.grants w.calls with
      | true => rfl
      | false => exact absurd (hnone hg) (by simp)

theorem loadGrants_of (h : ReadsFile fs path w → w.grants (w.calls + 1) = true ∧
    w.grants (w.calls + 2) = true) :
    LoadGrants fs path w := by
  intro file w' hrun
  obtain ⟨hreads, hcalls, hgrants⟩ := fsReadFile_reads fs path _ _ hrun rfl
  unfold GrantsText
  rw [hcalls, hgrants]
  exact h hreads

/-- **`fs_read_file`** always returns, with a file or nothing. -/
theorem fsReadFile_returns {r : Nat} (hfs : Ramfs.Rooted fs r) (path : Bytes) :
    Meets (fsReadFile fs path) w (fun x _ => x = none ∨
      ∃ (id : Nat) (c : Bytes), c.length < maxRequest ∧
        x = some (⟨id, c.map some ++ [some 0]⟩, c.length)) := by
  obtain ⟨kids, ht⟩ := hfs.tree
  obtain ⟨⟨printed, node⟩, hres, hlive⟩ := Ramfs.ramfsResolve_spec ht hfs.cwd path
  cases node with
  | none =>
    unfold fsReadFile
    exact Meets.lift hres (Meets.pure (Or.inl rfl))
  | some node =>
    obtain ⟨n, hn⟩ := Ramfs.live_iff.mp (hlive node rfl)
    cases hflag : Ramfs.hasFlag n.type Ramfs.fsFile with
    | false =>
      unfold fsReadFile
      refine Meets.lift hres (Meets.lift hn ?_)
      rw [hflag]
      exact Meets.pure (Or.inl rfl)
    | true =>
      have hfile : FileAt fs path node (Ramfs.dataOf fs node) :=
        ⟨⟨printed, hres⟩, (Ramfs.flagged_iff hn).mpr hflag, rfl⟩
      refine (fsReadFile_at hfs hfile).mono fun x w1 h => ?_
      obtain ⟨-, hsize, id, rfl⟩ | ⟨rfl, -⟩ := h
      · exact Or.inr ⟨id, _, hsize, rfl⟩
      · exact Or.inl rfl

/-- **`editor_load` always returns**, when the heap grants it the text of the new editor. -/
theorem editorLoad_returns {r : Nat} (h : ed.Usable) (hg : LoadGrants fs path w)
    (hfs : Ramfs.Rooted fs r) (hpath : path.length + 1 < 4294967296) (u : Editor) :
    Meets (editorLoad ed u fs path) w (fun _ _ => True) := by
  obtain ⟨x, w1, hread, hx⟩ := fsReadFile_returns (w := w) hfs path
  rw [editorLoad_eq]
  refine Meets.run hread ?_
  obtain rfl | ⟨id, c, hsize, rfl⟩ := hx
  · exact Meets.pure trivial
  · refine Meets.bind (editorInit_fresh (hg _ _ hread) u) fun newEd w2 ⟨hfresh, _⟩ => ?_
    obtain ⟨hundo, hredo⟩ := hfresh.freeable
    exact (loadInto_spec id hsize h.free hpath hundo hredo).mono fun _ _ _ => trivial

theorem stringOf_some (k : Nat) (s : Bytes) :
    ∃ t, stringOf ⟨k, s.map some ++ [some 0]⟩ = some t := by
  have hmapM : ∀ l : List (Option UInt8), (∀ c ∈ l, ∃ b, c = some b) → ∃ t, l.mapM id = some t := by
    intro l hl
    induction l with
    | nil => exact ⟨[], rfl⟩
    | cons c l ih =>
      obtain ⟨b, rfl⟩ := hl c List.mem_cons_self
      obtain ⟨t, ht⟩ := ih fun c hc => hl c (List.mem_cons_of_mem _ hc)
      exact ⟨b :: t, by rw [List.mapM_cons, ht]; rfl⟩
  unfold stringOf
  rw [if_pos (by simp)]
  refine hmapM _ fun c hc => ?_
  have hmem := (List.takeWhile_sublist _).subset hc
  obtain hmem | hmem := List.mem_append.mp hmem
  · obtain ⟨b, -, rfl⟩ := List.mem_map.mp hmem
    exact ⟨b, rfl⟩
  · exact ⟨0, List.mem_singleton.mp hmem⟩

/-- **`editor_save` always returns**, when the length of the text fits into a word. -/
theorem editorSave_returns {r : Nat} (h : ed.Usable) (hname : ed.Named) (hfs : Ramfs.Rooted fs r)
    (hsize : ed.document.text.length + 1 < 4294967296) (answer data : Option Nat) :
    Meets (editorSave ed fs answer data) w (fun _ _ => True) := by
  obtain ⟨ts, hlines, hy⟩ := h.lines
  have hne : ts ≠ [] := by
    rintro rfl
    have := hlines.count_lt.1
    simp only [List.length_nil] at this
    omega
  unfold editorSave
  cases hfile : ed.filename with
  | none => exact Meets.pure trivial
  | some filename =>
    obtain ⟨k, s, rfl⟩ := hname filename hfile
    obtain ⟨p, hp⟩ := stringOf_some k s
    refine Meets.lift (fileLength_eq hlines hne hsize) ?_
    unfold kmalloc
    rw [Nat.mod_eq_of_lt hsize]
    refine Meets.seq (Meets.request (fun id w1 _ _ _ => ?_) fun w1 _ => Meets.pure trivial)
    have htext : fileText ed ⟨id, List.replicate (ed.document.text.length + 1) none⟩ = _ :=
      fileText_eq hlines hne
    rw [List.length_replicate, if_pos le_rfl] at htext
    rw [Nat.div_one]
    refine Meets.lift htext (Meets.lift hp (Meets.lift (bytesOf_eq id _ _) ?_))
    obtain ⟨y, hwrite, -⟩ := Ramfs.fsWriteFile_spec hfs p ed.document.text answer data
    refine Meets.lift hwrite (Meets.seq (Meets.release fun w2 _ => ?_))
    split <;> exact Meets.pure trivial

/-! ### What an editor owns -/

theorem linesOwn_nonneg (i : Nat) (lines : Option (Block Line)) (n : Nat) :
    0 ≤ linesOwn i lines n := by
  cases lines with
  | none => exact le_rfl
  | some b =>
    exact Int.add_nonneg (owned_nonneg i _) (total_nonneg (fun l : Line => owned_nonneg i l.data) _)

theorem stackOwns_nonneg (i : Nat) (stack : Option (Block EditorState)) (top : Int) :
    0 ≤ stackOwns i stack top := by
  cases stack with
  | none => exact le_rfl
  | some b =>
    exact Int.add_nonneg (owned_nonneg i _)
      (total_nonneg (fun st : EditorState => linesOwn_nonneg i st.lines st.numLines) _)

theorem Editor.owns_nonneg (ed : Editor) (i : Nat) : 0 ≤ ed.owns i :=
  Int.add_nonneg (Int.add_nonneg (Int.add_nonneg (linesOwn_nonneg i _ _) (owned_nonneg i _))
    (stackOwns_nonneg i _ _)) (stackOwns_nonneg i _ _)

/-- **The invariant**: the editor is usable, and what it owns was granted and not released. -/
structure Sound (p : Editor × World) : Prop where
  usable : p.1.Usable
  named : p.1.Named
  owned : ∀ i, p.1.owns i ≤ p.2.balance i

theorem Sound.covered {p : Editor × World} (h : Sound p) : p.2.Covered := fun i =>
  (p.1.owns_nonneg i).trans (h.owned i)

theorem editorInit_sound (hw : w.Covered) (h : GrantsText w) (u : Editor) :
    Meets (editorInit u) w (fun ed w' => Sound (ed, w')) := by
  obtain ⟨ed, w1, hrun, hfresh, ts, hne, hlines⟩ := editorInit_fresh h u
  refine ⟨ed, w1, hrun, hfresh.usable hlines hne _ _ _, fun b hb => ?_, fun i => ?_⟩
  · rw [hfresh.filename] at hb
    cases hb
  · have hsome : ed.lines.isNone = false := by
      obtain ⟨id, ls, rest, hed, -⟩ := hlines
      rw [hed]
      rfl
    obtain ⟨-, hbal⟩ := editorInit_account (i := i) u ed w1 hrun
    simp only [hsome, Bool.false_eq_true, if_false, Int.sub_zero] at hbal
    have := hw i
    dsimp only
    omega

theorem exec_sound (h : Sound (ed, w)) {op : Op}
    (hop : op.Saves → ed.undoStack.isSome ∨ SnapshotRefused ed.numLines w) :
    Meets (exec ed op) w (fun ed' w' => Sound (ed', w')) := by
  obtain ⟨ed', w', hrun, husable⟩ := exec_usable h.usable hop
  have hstate : ∃ v, ed.state.Holds v := by
    obtain ⟨s, hs⟩ | ⟨v, hv⟩ := h.usable
    · exact ⟨_, hs.state⟩
    · exact ⟨_, hv.state⟩
  obtain ⟨v, hv⟩ := hstate
  refine ⟨ed', w', hrun, husable, ?_, fun i => ?_⟩
  · unfold Editor.Named
    rw [exec_filename ed op _ _ hrun]
    exact h.named
  · obtain ⟨-, hbal⟩ := exec_account (i := i) hv op _ _ hrun
    have := h.owned i
    dsimp only at this hbal ⊢
    omega

theorem editorLoad_sound (h : Sound (ed, w)) (hg : LoadGrants fs path w) (u : Editor) :
    Leads (editorLoad ed u fs path) w (fun r w' => Sound (r.2, w')) := by
  rw [editorLoad_eq]
  refine Leads.bind Leads.self fun file w1 hread => ?_
  obtain ⟨-, hbal1⟩ := accounts (fun i => fsReadFile_account fs path) _ _ hread
  cases file with
  | none =>
    refine Leads.pure ⟨h.usable, h.named, fun i => ?_⟩
    have := h.owned i
    have := hbal1 i
    simp only [Option.map_none, owned_none] at *
    omega
  | some file =>
    obtain ⟨buf, len⟩ := file
    obtain ⟨-, hsize, hbuf⟩ := fsReadFile_spec fs path _ _ hread buf len rfl
    refine Leads.bind Leads.self fun newEd w2 hinit => ?_
    obtain ⟨newEd', w2', hinit', hfresh, ts, -, hlines⟩ := editorInit_fresh (hg _ _ hread) u
    obtain ⟨rfl, rfl⟩ := Prod.mk.inj (Option.some.inj (hinit'.symm.trans hinit))
    have hsome : newEd'.lines.isNone = false := by
      obtain ⟨id, ls, rest, hed, -⟩ := hlines
      rw [hed]
      rfl
    obtain ⟨bytes, hcells, rfl⟩ | ⟨hpos, hget⟩ := hbuf
    · intro r w3 hr
      obtain ⟨hno, hyes⟩ := loadInto_usable hfresh path hcells hsize r w3 hr
      refine ⟨?_, ?_, fun i => ?_⟩
      · cases hok : r.1 with
        | false =>
          rw [hno hok]
          exact h.usable
        | true => exact (hyes hok).1
      · cases hok : r.1 with
        | false =>
          rw [hno hok]
          exact h.named
        | true => exact (hyes hok).2
      · obtain ⟨-, hbal2⟩ := editorInit_account (i := i) u _ _ hinit
        obtain ⟨-, hbal3⟩ := loadInto_account (i := i) ed path hcells hsize _ _ hr
        have howned := h.owned i
        have htext : 0 ≤ newEd'.ownsText i := linesOwn_nonneg i _ _
        have hbal := hbal1 i
        simp only [hsome, Bool.false_eq_true, if_false, Int.sub_zero] at hbal2
        simp only [hfresh.filename, owned_none, ite_self] at hbal3
        simp only [Option.map_some] at hbal
        dsimp only at howned ⊢
        omega
    · -- a buffer that was not filled is not read any further
      refine Leads.lift fun ends hends => ?_
      unfold endsWithNewline at hends
      rw [if_pos hpos, hget] at hends
      cases hends

theorem editorSave_sound (h : Sound (ed, w)) (answer data : Option Nat) :
    Leads (editorSave ed fs answer data) w (fun r w' => Sound (r.2.1, w')) := by
  intro r w' hr
  have hed := editorSave_spec fs answer data _ _ hr
  have hbal := fun i => (editorSave_account (i := i) ed fs answer data _ _ hr).2
  refine ⟨?_, ?_, fun i => ?_⟩
  · rw [hed]
    cases r.1 with
    | false => exact h.usable
    | true =>
      obtain ⟨s, hs⟩ | ⟨v, hv⟩ := h.usable
      · exact Or.inl ⟨{ s with modified := false }, hs.state, rfl, hs.undo, hs.redo⟩
      · exact Or.inr ⟨v, hv.state, hv.undoStack, hv.undoTop, hv.redoStack, hv.redoTop⟩
  · rw [hed]
    cases r.1 <;> exact h.named
  · have := h.owned i
    have := hbal i
    dsimp only at *
    omega

/-! ### Runs -/

/-- What `cmd_sn` does with its editor between `editor_init` and `editor_free`. -/
inductive Use
  | op (op : Op)
  | load (fs : Fs) (path : Bytes)
  | save (fs : Fs) (answer data : Option Nat)

/-- Every run, whatever is refused. -/
def inMemory : System (EditorMemory × World) Use where
  init p := ∃ w, World.Covered w ∧ unwritten.editorInit w = some p
  step p u p' :=
    match u with
    | .op op => p.1.exec op p.2 = some p'
    | .load fs path => ∃ ok, p.1.editorLoad fs path p.2 = some ((ok, p'.1), p'.2)
    | .save fs answer data =>
      ∃ ok fs', p.1.editorSave fs answer data p.2 = some ((ok, p'.1, fs'), p'.2)

/-- No snapshot is taken without a stack, and a file that is read finds memory for the line of
`editor_init`. -/
def Supplied (p : EditorMemory × World) : Use → Prop
  | .op op => op.Saves → (∃ stack, p.1.undoStack = some (some stack)) ∨
      ∃ n, p.1.numLines = some n ∧ SnapshotRefused n p.2
  | .load fs path => ReadsFile fs path p.2 →
      p.2.grants (p.2.calls + 1) = true ∧ p.2.grants (p.2.calls + 2) = true
  | .save .. => True

/-- It has a result: it reads no field that was not written, and stores through no null pointer. -/
def Serves (p : EditorMemory × World) : Use → Prop
  | .op op => ∃ x, p.1.exec op p.2 = some x
  | .load fs path => (∃ r, Ramfs.Rooted fs r) → path.length + 1 < 4294967296 →
      ∃ x, p.1.editorLoad fs path p.2 = some x
  | .save fs answer data => (∃ r, Ramfs.Rooted fs r) →
      (∀ ed, p.1.read = some ed → ed.document.text.length + 1 < 4294967296) →
      ∃ x, p.1.editorSave fs answer data p.2 = some x

theorem map_some {α β : Type} {m : Alloc α} {f : α → β} {a : α} {w w' : World}
    (h : m w = some (a, w')) :
    (f <$> m) w = some (f a, w') := by
  simp only [Functor.map, StateT.map, Bind.bind, h, Option.bind_some]
  rfl

theorem of_map_some {α β : Type} {m : Alloc α} {f : α → β} {b : β} {w w' : World}
    (h : (f <$> m) w = some (b, w')) : ∃ a, m w = some (a, w') ∧ f a = b := by
  simp only [Functor.map, StateT.map, Bind.bind] at h
  obtain ⟨⟨a, w1⟩, hm, hf⟩ := Option.bind_eq_some_iff.mp h
  cases hf
  exact ⟨a, hm, rfl⟩

theorem editorSave_memory (ed : Editor) (fs : Fs) (answer data : Option Nat) :
    ed.memory.editorSave fs answer data =
      (fun r => (r.1, Editor.memory r.2.1, r.2.2)) <$> editorSave ed fs answer data := rfl

/-- **A load that returns false** leaves the caller's editor, whatever is refused. -/
theorem editorLoad_false (m : EditorMemory) (fs : Fs) (path : Bytes) :
    Leads (m.editorLoad fs path) w (fun r _ => r.1 = false → r.2 = m) := by
  refine Leads.bind Leads.any fun file w1 _ => ?_
  cases file with
  | none => exact Leads.pure fun _ => rfl
  | some file =>
    refine Leads.bind Leads.any fun newEd w2 _ => Leads.lift fun _ _ => Leads.bind Leads.any
      fun r w3 _ => ?_
    refine Leads.bind Leads.any fun _ w4 _ => Leads.ite (fun _ => ?_) fun _ => ?_
    · exact Leads.bind Leads.any fun _ _ _ => Leads.bind Leads.any fun _ _ _ =>
        Leads.pure fun hf => absurd hf (by simp)
    · exact Leads.bind Leads.any fun _ _ _ => Leads.pure fun _ => rfl

/-- **Without memory for the line of `editor_init`** its fields stay unwritten. -/
theorem editorInit_unwritten (h : ¬ GrantsText w) : Leads (unwritten.editorInit) w (fun m _ =>
    m = { unwritten with lines := some none, numLines := some 0 }) := by
  unfold EditorMemory.editorInit
  refine Leads.bind Leads.self fun lines w1 hk => ?_
  obtain ⟨hcalls, hgrants, -⟩ := kmalloc_call _ _ _ _ hk
  cases lines with
  | none => exact Leads.pure rfl
  | some lines =>
    refine Leads.bind Leads.self fun data w2 hk' => ?_
    cases data with
    | none => exact Leads.bind Leads.any fun _ _ _ => Leads.pure rfl
    | some data =>
      have h1 : w.grants w.calls = true := by
        by_contra hf
        have hnone := (kmalloc_call _ _ _ _ hk).2.2 (by simpa using hf)
        cases hnone
      have h2 : w.grants (w.calls + 1) = true := by
        by_contra hf
        have hnone := (kmalloc_call _ _ _ _ hk').2.2 (by rw [hgrants, hcalls]; simpa using hf)
        cases hnone
      exact absurd ⟨h1, h2⟩ h

/-- `editor_free` reads them. -/
theorem editorFree_unwritten (h : ¬ GrantsText w) :
    Leads (unwritten.editorInit) w (fun m w' => m.editorFree w' = none) :=
  (editorInit_unwritten h).mono fun m w' hm => by
    rw [hm]
    rfl

/-- A sound editor with all its fields in memory. -/
def SoundMemory (p : EditorMemory × World) : Prop := ∃ ed, p.1 = Editor.memory ed ∧ Sound (ed, p.2)

theorem SoundMemory.init {w₀ : World} (hw₀ : w₀.Covered) (h₀ : GrantsText w₀)
    {p : EditorMemory × World} (hinit : unwritten.editorInit w₀ = some p) : SoundMemory p := by
  obtain ⟨ed, w1, hed, hs⟩ := editorInit_sound hw₀ h₀ unset
  have hp := (editorInit_memory h₀ unwritten unset).trans (map_some hed)
  obtain rfl := Option.some.inj (hinit.symm.trans hp)
  exact ⟨ed, rfl, hs⟩

theorem Sound.load {ed : Editor} {m' : EditorMemory} {w' : World} {ok : Bool} (h : Sound (ed, w))
    (hg : LoadGrants fs path w) (hrun : ed.memory.editorLoad fs path w = some ((ok, m'), w')) :
    SoundMemory (m', w') := by
  rw [editorLoad_memory hg ed unset] at hrun
  obtain ⟨r, hr, heq⟩ := of_map_some hrun
  obtain ⟨-, rfl⟩ := Prod.mk.inj heq
  exact ⟨r.2, rfl, editorLoad_sound h hg unset _ _ hr⟩

/-- **One step** keeps the editor sound. -/
theorem SoundMemory.step {p p' : EditorMemory × World} (h : SoundMemory p) {u : Use}
    (hu : Supplied p u) (hstep : inMemory.step p u p') : SoundMemory p' := by
  obtain ⟨m, w⟩ := p
  obtain ⟨m', w'⟩ := p'
  obtain ⟨ed, hm, hs⟩ := h
  obtain rfl : m = ed.memory := hm
  cases u with
  | op op =>
    obtain ⟨ed', hrun, rfl⟩ :=
      of_map_some (show (Editor.memory <$> exec ed op) w = some (m', w') from hstep)
    refine ⟨ed', rfl, Leads.of_meets (exec_sound hs fun hsaves => ?_) _ _ hrun⟩
    obtain ⟨stack, hstack⟩ | ⟨n, hn, hno⟩ := hu hsaves
    · exact Or.inl (by rw [Option.some.inj hstack]; rfl)
    · exact Or.inr (Option.some.inj hn ▸ hno)
  | load fs path =>
    obtain ⟨ok, hrun⟩ := hstep
    exact hs.load (loadGrants_of hu) hrun
  | save fs answer data =>
    obtain ⟨ok, fs', hrun⟩ := hstep
    obtain ⟨r, hr, heq⟩ := of_map_some (show ((fun r => (r.1, Editor.memory r.2.1, r.2.2)) <$>
      editorSave ed fs answer data) w = some ((ok, m', fs'), w') from hrun)
    obtain ⟨-, heq⟩ := Prod.mk.inj heq
    obtain ⟨rfl, -⟩ := Prod.mk.inj heq
    exact ⟨r.2.1, rfl, editorSave_sound hs answer data _ _ hr⟩

theorem SoundMemory.serves {p : EditorMemory × World} (h : SoundMemory p) {u : Use}
    (hu : Supplied p u) :
    Serves p u := by
  obtain ⟨m, w⟩ := p
  obtain ⟨ed, hm, hs⟩ := h
  obtain rfl : m = ed.memory := hm
  cases u with
  | op op =>
    obtain ⟨ed', w', hrun, -⟩ := exec_sound hs fun hsaves => by
      obtain ⟨stack, hstack⟩ | ⟨n, hn, hno⟩ := hu hsaves
      · exact Or.inl (by rw [Option.some.inj hstack]; rfl)
      · exact Or.inr (Option.some.inj hn ▸ hno)
    exact ⟨_, map_some hrun⟩
  | load fs path =>
    intro ⟨r, hfs⟩ hpath
    have hg : LoadGrants fs path w := loadGrants_of hu
    obtain ⟨x, w', hrun, -⟩ := editorLoad_returns hs.usable hg hfs hpath unset
    exact ⟨_, (editorLoad_memory hg ed unset).trans (map_some hrun)⟩
  | save fs answer data =>
    intro ⟨r, hfs⟩ hsize
    obtain ⟨x, w', hrun, -⟩ :=
      editorSave_returns (w := w) hs.usable hs.named hfs (hsize ed rfl) answer data
    exact ⟨_, (congrFun (editorSave_memory ed fs answer data) w).trans (map_some hrun)⟩

theorem SoundMemory.free {p : EditorMemory × World} (h : SoundMemory p) :
    ∃ m' w', p.1.editorFree p.2 = some (m', w') ∧ w'.Covered := by
  obtain ⟨m, w⟩ := p
  obtain ⟨ed, hm, hs⟩ := h
  obtain rfl : m = ed.memory := hm
  obtain ⟨ed', w', hrun, -⟩ := hs.usable.free w
  refine ⟨_, w', (congrFun (editorFree_memory ed) w).trans (map_some hrun), fun i => ?_⟩
  obtain ⟨-, hbal⟩ := editorFree_account (i := i) ed _ _ hrun
  have := hs.owned i
  dsimp only at *
  omega

/-- **Out of memory does no harm** in a run that is supplied: every field of the editor was written,
each use has a result, a load that fails leaves the editor, and only what was granted is freed, also
at the end. -/
theorem run_safe {w₀ : World} (hw₀ : w₀.Covered) (h₀ : GrantsText w₀) {p₀ p : EditorMemory × World}
    {us : List Use} (hinit : unwritten.editorInit w₀ = some p₀)
    (hrun : (inMemory.restrict Supplied).Run p₀ us p) :
    (∃ ed, p.1 = Editor.memory ed) ∧ (∀ u, Supplied p u → Serves p u) ∧ p.2.Covered ∧
      (∀ fs path m' w', p.1.editorLoad fs path p.2 = some ((false, m'), w') → m' = p.1) ∧
      ∃ m' w', p.1.editorFree p.2 = some (m', w') ∧ w'.Covered := by
  have hend : SoundMemory p :=
    hrun.induct (fun _ _ _ h hstep => h.step hstep.1 hstep.2) (.init hw₀ h₀ hinit)
  refine ⟨?_, fun u hu => hend.serves hu, ?_, fun fs path m' w' hload => ?_, hend.free⟩
  · obtain ⟨ed, hed, -⟩ := hend
    exact ⟨ed, hed⟩
  · obtain ⟨ed, -, hs⟩ := hend
    exact hs.covered
  · exact editorLoad_false p.1 fs path _ _ hload rfl

end

/-! ### A run -/

/-- A letter is typed, and its snapshot is refused. -/
def startedTight : EditorMemory × World := (unwritten.editorInit (refusing 4)).get (by decide)

def typedLetter : EditorMemory × World :=
  (startedTight.1.exec (.insertChar 65) startedTight.2).get (by decide +kernel)

theorem typedLetter_run :
    (inMemory.restrict Supplied).Run startedTight [.op (.insertChar 65)] typedLetter :=
  .cons ⟨fun _ => Or.inl ⟨_, rfl⟩, (Option.some_get _).symm⟩ (.nil _)

theorem run_safe_typedLetter : typedLetter.2.refusals = 1 ∧
    (∃ ed, typedLetter.1 = Editor.memory ed) ∧
    (∀ u, Supplied typedLetter u → Serves typedLetter u) ∧ typedLetter.2.Covered ∧
    (∀ fs path m' w', typedLetter.1.editorLoad fs path typedLetter.2 = some ((false, m'), w') →
      m' = typedLetter.1) ∧
    ∃ m' w', typedLetter.1.editorFree typedLetter.2 = some (m', w') ∧ w'.Covered :=
  ⟨by decide +kernel, run_safe (show (refusing 4).Covered from fun _ => le_rfl)
    ⟨by decide, by decide⟩
    (Option.some_get _).symm typedLetter_run⟩

/-- Memory with a name that is no block of the heap. -/
def littered : Editor := { unset with filename := some ⟨7, [some 0]⟩ }

/-- **The editor is corrupted**: `editor_free` reads a field that was never written and frees what
was in memory when the first request is refused, also after a load that found no file, and the first
edit stores through the null stack when the third is. -/
theorem refused_corrupts :
    (∃ p, unwritten.editorInit (refusing 0) = some p ∧
      inMemory.Run p [.load (Ramfs.boot 4096).fs [102]] p ∧ p.1.editorFree p.2 = none) ∧
    (∃ p q, editorInit littered (refusing 0) = some p ∧ editorFree p.1 p.2 = some q ∧
      .released 7 ∈ q.2.record ∧ ∀ size, .granted 7 size ∉ q.2.record) ∧
    ∃ p, unwritten.editorInit (refusing 2) = some p ∧ p.1.undoStack = some none ∧
      p.1.exec (.insertChar 65) p.2 = none := by
  refine ⟨⟨_, rfl, .cons ⟨false, ?_⟩ (.nil _), rfl⟩,
    ⟨_, _, rfl, rfl, by decide, by simp [refusing]⟩,
    ⟨_, rfl, rfl, rfl⟩⟩
  have hno : Ramfs.ramfsResolve (Ramfs.boot 4096).fs [102] = some ([], none) := by decide +kernel
  show EditorMemory.editorLoad _ _ _ _ = _
  unfold EditorMemory.editorLoad fsReadFile
  rw [hno]
  rfl

end CobraOS.Snake
