import CobraOS.Ramfs.Runs

/-!
# Handles that append

A handle with `O_APPEND` starts at the end of its file, and from then on it has a position of its
own as every other.  So a program appends as long as nobody else does: a write goes to the end of
the file when the handle is still there, and otherwise over what others have written.  What is in
the file after a run is everything that was written, one after the other, exactly when every write
was made at the end (`appends_kept_iff`).
-/

namespace CobraOS.Ramfs

open Base

/-- The file system, the handles on the file that were opened to append, and what was written
through them. -/
structure Appending where
  fs : Fs
  handles : List Nat
  written : Bytes

inductive AppendCall
  | open (flags : Nat) (answer : Option Nat)
  | write (f : Nat) (buffer : Bytes) (answer : Option Nat)
  | close (f : Nat)
  | elsewhere

/-- What others do meanwhile, with other files and other handles. -/
structure Elsewhere (a : Nat) (x y : Appending) : Prop where
  tree : ∃ r kids, Tree y.fs r kids
  file : Flagged fsFile y.fs a
  data : dataOf y.fs a = dataOf x.fs a
  files : ∀ f ∈ x.handles, y.fs.files f = x.fs.files f
  handles : y.handles = x.handles
  written : y.written = x.written

/-- All runs of handles that append to the file `a`.  Every call succeeds. -/
def appenders (a : Nat) : System Appending AppendCall where
  init x := calls.Reach x.fs ∧ Flagged fsFile x.fs a ∧ x.handles = [] ∧ x.written = []
  step x c y :=
    match c with
    | .open flags answer => hasFlag flags oWrite = true ∧ hasFlag flags oAppend = true ∧ ∃ f,
        ramfsOpen x.fs (some a) flags answer = some (some f, y.fs) ∧ y.handles = f :: x.handles ∧
        y.written = x.written
    | .write f buffer answer => f ∈ x.handles ∧
        ramfsWrite x.fs (some f) buffer answer = some ((buffer.length : Int), y.fs) ∧
        y.handles = x.handles ∧ y.written = x.written ++ buffer
    | .close f => f ∈ x.handles ∧ ramfsClose x.fs (some f) = some y.fs ∧
        y.handles = x.handles.filter (· ≠ f) ∧ y.written = x.written
    | .elsewhere => Elsewhere a x y

/-- A write to the end of the file, or of nothing. -/
def AtEnd (a : Nat) (x : Appending) : AppendCall → Prop
  | .write f buffer _ => buffer = [] ∨ ∃ file n, x.fs.files f = some file ∧ x.fs.nodes a = some n ∧
      file.position = n.size
  | _ => True

/-- The handles are somewhere in the file. -/
structure InFile (a : Nat) (x : Appending) : Prop where
  tree : ∃ r kids, Tree x.fs r kids
  file : Flagged fsFile x.fs a
  handles : ∀ f ∈ x.handles, ∃ file, x.fs.files f = some file ∧ file.node = a ∧
    file.position ≤ (dataOf x.fs a).length

/-- What a call adds to the file: the bytes at its end, or fewer. -/
def Adds (a : Nat) (x y : Appending) (c : AppendCall) (buffer : Bytes) : Prop :=
  y.written = x.written ++ buffer ∧
    (AtEnd a x c ∧ dataOf y.fs a = dataOf x.fs a ++ buffer ∨
      ¬ AtEnd a x c ∧ (dataOf y.fs a).length < (dataOf x.fs a).length + buffer.length)

section

variable {a f : Nat} {x y : Appending} {buffer : Bytes} {answer : Option Nat} {fs fs' : Fs}

/-! ### One call -/

theorem Adds.nothing {c : AppendCall} (hc : AtEnd a x c) (hdata : dataOf y.fs a = dataOf x.fs a)
    (hwritten : y.written = x.written) : Adds a x y c [] := by
  refine ⟨by rw [hwritten, List.append_nil], Or.inl ⟨hc, ?_⟩⟩
  rw [hdata, List.append_nil]

theorem defaultWrite_ret {ret : Int} {offset : Nat}
    (h : defaultWrite fs a offset buffer answer = some (ret, fs')) :
    ret = -1 ∨ ret = wint buffer.length := by
  obtain ⟨n, -, h⟩ := Option.bind_eq_some_iff.mp h
  split at h
  · exact Or.inl (Prod.mk.inj (Option.some.inj h)).1.symm
  · obtain ⟨⟨grown, fs₁⟩, -, h⟩ := Option.bind_eq_some_iff.mp h
    cases grown with
    | false => exact Or.inl (Prod.mk.inj (Option.some.inj h)).1.symm
    | true =>
      obtain ⟨m, -, h⟩ := Option.bind_eq_some_iff.mp h
      obtain ⟨fs₂, -, h⟩ := Option.bind_eq_some_iff.mp h
      exact Or.inr (Prod.mk.inj (Option.some.inj h)).1.symm

/-- Only a buffer whose length is a positive `int` is written with success. -/
theorem ramfsWrite_short (h : ramfsWrite fs (some f) buffer answer =
    some ((buffer.length : Int), fs')) :
    buffer.length < 2147483648 := by
  obtain ⟨file, -, hr⟩ := Option.bind_eq_some_iff.mp h
  split at hr
  · have hneg := (Prod.mk.inj (Option.some.inj hr)).1
    omega
  · obtain ⟨⟨ret, fs₁⟩, hw, hr⟩ := Option.bind_eq_some_iff.mp hr
    obtain rfl : ret = (buffer.length : Int) := (Prod.mk.inj (Option.some.inj hr)).1
    have hret := defaultWrite_ret hw
    unfold wint at hret
    split at hret <;> omega

theorem overwrite_in {bytes : Bytes} {offset : Nat} (h : offset ≤ bytes.length) :
    overwrite (grown bytes offset) offset buffer =
      bytes.take offset ++ buffer ++ bytes.drop (offset + buffer.length) := by
  have hgrown : grown bytes offset = bytes := by
    rw [grown, Nat.sub_eq_zero_of_le h]
    exact List.append_nil _
  rw [hgrown, overwrite]

theorem atEnd_iff (buffer : Bytes) (answer : Option Nat) {file : VfsFile} {n : VfsNode}
    (hfile : x.fs.files f = some file) (hn : x.fs.nodes a = some n) :
    AtEnd a x (.write f buffer answer) ↔ buffer = [] ∨ file.position = n.size := by
  constructor
  · rintro (hnil | ⟨file', n', hfile', hn', hpos⟩)
    · exact Or.inl hnil
    · obtain rfl := Option.some.inj (hfile.symm.trans hfile')
      obtain rfl := Option.some.inj (hn.symm.trans hn')
      exact Or.inr hpos
  · rintro (hnil | hpos)
    · exact Or.inl hnil
    · exact Or.inr ⟨file, n, hfile, hn, hpos⟩

theorem write_step (h : InFile a x) (hs : (appenders a).step x (.write f buffer answer) y) :
    InFile a y ∧ Adds a x y (.write f buffer answer) buffer := by
  obtain ⟨hf, hr, hhandles, hwritten⟩ := hs
  obtain ⟨r, kids, ht⟩ := h.tree
  obtain ⟨file, hfile, hnode, hpos⟩ := h.handles f hf
  obtain ⟨n, hn⟩ := live_iff.mp h.file.live
  have hsize := dataOf_length ht.owned hn
  have hsmall : n.size ≤ 4194288 := ht.owned.small a n.bare (contents_eq hn)
  have hshort := ramfsWrite_short hr
  obtain ⟨ret, fs', hr', hcase⟩ :=
    ramfsWrite_spec ht.owned hfile (hnode ▸ h.file) hshort (by omega) answer
  rw [hr, Option.some.injEq, Prod.mk.injEq] at hr'
  obtain ⟨rfl, rfl⟩ := hr'
  have hview : view y.fs = (view x.fs).write f file buffer := by
    obtain ⟨-, hview⟩ | ⟨hneg, -⟩ := hcase
    · exact hview
    · omega
  have hdata : dataOf y.fs a = (dataOf x.fs a).take file.position ++ buffer ++
      (dataOf x.fs a).drop (file.position + buffer.length) := by
    have hself := congrFun (congrArg View.data hview) a
    rw [← overwrite_in hpos, ← hnode]
    rw [← hnode] at hself
    exact hself.trans (Function.update_self _ _ _)
  have hlen : (dataOf y.fs a).length =
      max (dataOf x.fs a).length (file.position + buffer.length) := by
    rw [hdata]
    simp only [List.length_append, List.length_take, List.length_drop]
    omega
  have hfiles : y.fs.files = Function.update x.fs.files f
      (some { file with position := file.position + buffer.length }) := congrArg View.files hview
  have heff := ramfsWrite_effect ht hr
  refine ⟨⟨⟨r, heff.tree⟩, heff.flagged h.file (by simp), fun g hg => ?_⟩, hwritten, ?_⟩
  · rw [hfiles]
    by_cases hgf : g = f
    · rw [hgf, Function.update_self]
      exact ⟨_, rfl, hnode, by rw [hlen]; exact le_max_right _ _⟩
    · obtain ⟨file', hfile', hnode', hpos'⟩ := h.handles g (hhandles ▸ hg)
      rw [Function.update_of_ne hgf]
      exact ⟨file', hfile', hnode', by rw [hlen]; exact hpos'.trans (le_max_left _ _)⟩
  · have hend := atEnd_iff buffer answer hfile hn
    rw [← hsize] at hend
    rw [hend]
    by_cases hc : buffer = [] ∨ file.position = (dataOf x.fs a).length
    · refine Or.inl ⟨hc, ?_⟩
      rw [hdata]
      obtain rfl | hpos' := hc
      · simp
      · rw [hpos', List.take_length, List.drop_eq_nil_of_le (Nat.le_add_right _ _), List.append_nil]
    · refine Or.inr ⟨hc, ?_⟩
      rw [not_or] at hc
      have hpositive : 0 < buffer.length := List.length_pos_iff.mpr hc.1
      rw [hlen]
      omega

theorem open_step {flags : Nat} (h : InFile a x)
    (hs : (appenders a).step x (.open flags answer) y) :
    InFile a y ∧ Adds a x y (.open flags answer) [] := by
  obtain ⟨-, happend, f, hr, hhandles, hwritten⟩ := hs
  obtain ⟨r, kids, ht⟩ := h.tree
  have heff := ramfsOpen_effect ht hr
  obtain ⟨n, hn, hr⟩ := Option.bind_eq_some_iff.mp hr
  have hflag := (flagged_iff hn).mp h.file
  simp only [hflag, Bool.not_true, Bool.false_eq_true, if_false, happend, if_true] at hr
  cases hg : x.fs.granted fileBytes answer with
  | none =>
    rw [hg] at hr
    cases hr
  | some g =>
    simp only [hg, Option.some.injEq, Prod.mk.injEq] at hr
    obtain ⟨rfl, hfs⟩ := hr
    have hdata : dataOf y.fs a = dataOf x.fs a := by
      rw [← hfs]
      rfl
    refine ⟨⟨⟨r, heff.tree⟩, heff.flagged h.file (by simp), fun f hf => ?_⟩,
      .nothing trivial hdata hwritten⟩
    rw [hdata, ← hfs]
    by_cases hfg : f = g
    · rw [hfg]
      exact ⟨_, Function.update_self _ _ _, rfl, (dataOf_length ht.owned hn).ge⟩
    · have hmem : f ∈ x.handles := (List.mem_cons.mp (hhandles ▸ hf)).resolve_left hfg
      obtain ⟨file, hfile, hrest⟩ := h.handles f hmem
      exact ⟨file, (Function.update_of_ne hfg _ _).trans hfile, hrest⟩

theorem close_step (h : InFile a x) (hs : (appenders a).step x (.close f) y) :
    InFile a y ∧ Adds a x y (.close f) [] := by
  obtain ⟨-, hclose, hhandles, hwritten⟩ := hs
  obtain ⟨r, kids, ht⟩ := h.tree
  obtain ⟨file, -, hset⟩ := Option.bind_eq_some_iff.mp hclose
  have hfs : y.fs = x.fs.setFile f none := (Option.some.inj hset).symm
  have heff : Effect x.fs y.fs r none := by
    rw [hfs]
    exact setFile_effect ht fun new hnew => by cases hnew
  have hdata : dataOf y.fs a = dataOf x.fs a := by
    rw [hfs]
    rfl
  refine ⟨⟨⟨r, heff.tree⟩, heff.flagged h.file (by simp), fun g hg => ?_⟩,
    .nothing trivial hdata hwritten⟩
  rw [hhandles, List.mem_filter] at hg
  have hgf : g ≠ f := by simpa using hg.2
  obtain ⟨file, hfile, hrest⟩ := h.handles g hg.1
  rw [hdata, hfs]
  exact ⟨file, (Function.update_of_ne hgf _ _).trans hfile, hrest⟩

/-- **What one call adds to the file.** -/
theorem appending_step {c : AppendCall} (h : InFile a x) (hs : (appenders a).step x c y) :
    InFile a y ∧ ∃ buffer, Adds a x y c buffer := by
  cases c with
  | «open» flags answer => exact (open_step h hs).imp id fun hadds => ⟨_, hadds⟩
  | write f buffer answer => exact (write_step h hs).imp id fun hadds => ⟨_, hadds⟩
  | close f => exact (close_step h hs).imp id fun hadds => ⟨_, hadds⟩
  | elsewhere =>
    refine ⟨⟨hs.tree, hs.file, fun f hf => ?_⟩, [], .nothing trivial hs.data hs.written⟩
    rw [hs.handles] at hf
    rw [hs.data, hs.files f hf]
    exact h.handles f hf

/-! ### Every run -/

/-- While every write is made at the end, the file gets all of it. -/
theorem appending_run {l : List AppendCall} (hrun : ((appenders a).restrict (AtEnd a)).Run x l y)
    (h : InFile a x) :
    ∃ buffer, y.written = x.written ++ buffer ∧ dataOf y.fs a = dataOf x.fs a ++ buffer := by
  induction hrun with
  | nil x => exact ⟨[], (List.append_nil _).symm, (List.append_nil _).symm⟩
  | cons hs _ ih =>
    obtain ⟨hin, buffer, hwritten, hcase⟩ := appending_step h hs.2
    obtain ⟨rest, hrest, hdata⟩ := ih hin
    obtain ⟨-, hadd⟩ | ⟨hno, -⟩ := hcase
    · refine ⟨buffer ++ rest, ?_, ?_⟩
      · rw [hrest, hwritten, List.append_assoc]
      · rw [hdata, hadd, List.append_assoc]
    · exact absurd hs.1 hno

/-- The file never gets more than was written, and less when a write was not made at its end. -/
theorem overwriting_run {l : List AppendCall} (hrun : (appenders a).Run x l y) (h : InFile a x) :
    ∃ buffer, y.written = x.written ++ buffer ∧
      (dataOf y.fs a).length ≤ (dataOf x.fs a).length + buffer.length ∧
      ((dataOf y.fs a).length = (dataOf x.fs a).length + buffer.length →
        ((appenders a).restrict (AtEnd a)).Run x l y) := by
  induction hrun with
  | nil x => exact ⟨[], (List.append_nil _).symm, le_rfl, fun _ => .nil x⟩
  | cons hs _ ih =>
    obtain ⟨hin, buffer, hwritten, hcase⟩ := appending_step h hs
    obtain ⟨rest, hrest, hle, hrun⟩ := ih hin
    refine ⟨buffer ++ rest, by rw [hrest, hwritten, List.append_assoc], ?_⟩
    rw [List.length_append]
    obtain ⟨hend, hadd⟩ | ⟨-, hlt⟩ := hcase
    · rw [hadd, List.length_append] at hle hrun
      exact ⟨by omega, fun hlen => .cons ⟨hend, hs⟩ (hrun (by omega))⟩
    · exact ⟨by omega, fun hlen => absurd hlen (by omega)⟩

theorem appenders_init (h : (appenders a).init x) : InFile a x := by
  obtain ⟨hreach, hfile, hhandles, -⟩ := h
  refine ⟨tree_reach hreach, hfile, fun f hf => ?_⟩
  rw [hhandles] at hf
  cases hf

/-- **Everything that was appended is in the file exactly when every write was made at its end.** -/
theorem appends_kept_iff {l : List AppendCall} (hinit : (appenders a).init x)
    (hrun : (appenders a).Run x l y) :
    dataOf y.fs a = dataOf x.fs a ++ y.written ↔ ((appenders a).restrict (AtEnd a)).Run x l y := by
  have hin := appenders_init hinit
  have hstart : x.written = [] := hinit.2.2.2
  constructor
  · intro hkept
    obtain ⟨buffer, hwritten, -, hends⟩ := overwriting_run hrun hin
    rw [hstart, List.nil_append] at hwritten
    exact hends (by rw [hkept, hwritten, List.length_append])
  · intro hends
    obtain ⟨buffer, hwritten, hdata⟩ := appending_run hends hin
    rw [hdata, hwritten, hstart, List.nil_append]

end

/-! ### A run -/

/-- A directory with an empty file at 8192. -/
def created : Fs :=
  ((ramfsCreate (ramfsInit empty (some 4096)) (some 4096) [97] fsFile (some 8192)).getD
    (0, empty)).2

/-- The file is opened with `O_WRITE | O_APPEND`. -/
def Appending.opened (x : Appending) (answer : Nat) : Appending :=
  ⟨((ramfsOpen x.fs (some 8192) 6 (some answer)).getD (none, empty)).2,
    answer :: x.handles, x.written⟩

/-- A byte is written through the handle `f`. -/
def Appending.wrote (x : Appending) (f : Nat) (byte : UInt8) : Appending :=
  ⟨((ramfsWrite x.fs (some f) [byte] (some 20480)).getD (0, empty)).2, x.handles,
    x.written ++ [byte]⟩

/-- Nothing has been opened yet. -/
def unopened : Appending := ⟨created, [], []⟩

/-- The file is open twice. -/
def openedTwice : Appending := (unopened.opened 12288).opened 16384

/-- `A` has been written through the first handle. -/
def wroteA : Appending := openedTwice.wrote 12288 65

/-- And then `B` through the second. -/
def wroteB : Appending := wroteA.wrote 16384 66

theorem unopened_init : (appenders 8192).init unopened := by
  have hroot : calls.Reach (ramfsInit empty (some 4096)) := .init ⟨4096, by decide, rfl⟩
  have hcreated :
      calls.step (ramfsInit empty (some 4096)) (.create 4096 [97] fsFile (some 8192)) created :=
    ⟨rfl, rfl⟩
  exact ⟨hroot.step hcreated, ⟨_, rfl, rfl⟩, rfl, rfl⟩

theorem openedTwice_steps : (appenders 8192).step unopened (.open 6 (some 12288))
    (unopened.opened 12288) ∧
    (appenders 8192).step (unopened.opened 12288) (.open 6 (some 16384)) openedTwice :=
  ⟨⟨rfl, rfl, 12288, rfl, rfl, rfl⟩, ⟨rfl, rfl, 16384, rfl, rfl, rfl⟩⟩

theorem wroteA_step : (appenders 8192).step openedTwice (.write 12288 [65] (some 20480)) wroteA :=
  ⟨by decide, rfl, rfl, rfl⟩

theorem wroteB_step : (appenders 8192).step wroteA (.write 16384 [66] (some 20480)) wroteB :=
  ⟨by decide, rfl, rfl, rfl⟩

theorem appends_kept_iff_wroteA :
    dataOf wroteA.fs 8192 = dataOf unopened.fs 8192 ++ wroteA.written ↔
    ((appenders 8192).restrict (AtEnd 8192)).Run unopened
      [.open 6 (some 12288), .open 6 (some 16384), .write 12288 [65] (some 20480)] wroteA :=
  appends_kept_iff unopened_init
    (.cons openedTwice_steps.1 (.cons openedTwice_steps.2 (.cons wroteA_step (.nil _))))

/-- **The second write goes over the first**, which is lost. -/
theorem append_lost : (appenders 8192).init unopened ∧
    (appenders 8192).Run unopened [.open 6 (some 12288), .open 6 (some 16384),
      .write 12288 [65] (some 20480), .write 16384 [66] (some 20480)] wroteB ∧
    dataOf unopened.fs 8192 = [] ∧ wroteB.written = [65, 66] ∧ dataOf wroteB.fs 8192 = [66] :=
  ⟨unopened_init, .cons openedTwice_steps.1 (.cons openedTwice_steps.2 (.cons wroteA_step
    (.cons wroteB_step (.nil _)))), rfl, rfl, rfl⟩

end CobraOS.Ramfs
