import CobraOS.Ramfs.Tree

/-!
# Reads and writes

A file is a list of bytes, `dataOf`, and an open file is a position in it.  What is written goes
over the bytes from the position on, after zeros where the file was too short (`ramfsWrite_spec`);
what is read are the next bytes (`ramfsRead_spec`).  Nothing else changes, although a file that
grows moves to a new buffer behind the back of its other handles.
-/

namespace CobraOS.Ramfs

open Base

/-- The bytes of a node. -/
def dataOf (fs : Fs) (a : Nat) : Bytes := bytesAt (contents fs) fs.buffers a

/-- The name and the type of a live node. -/
def kindAt (fs : Fs) (a : Nat) : Option (Bytes × Nat) :=
  (contents fs a).map (fun n => (n.name, n.type))

variable {fs fs' fs'' : Fs} {a p r d : Nat} {n m : VfsNode} {kids : Nat → List Nat}
    {bytes bytes' : Bytes} {answer : Option Nat}

theorem flagged_of_kind {bit x : Nat} (h : kindAt fs' x = kindAt fs x) (hf : Flagged bit fs x) :
    Flagged bit fs' x := by
  obtain ⟨n, hn, ht⟩ := hf
  rw [kindAt, kindAt, hn] at h
  obtain ⟨m, hm, he⟩ := Option.map_eq_some_iff.mp h
  exact ⟨m, hm, by rw [(Prod.mk.inj he).2, ht]⟩

/-- `fs'` is `fs` with `bytes` as the data of the node at `a`. -/
structure Written (fs fs' : Fs) (a : Nat) (bytes : Bytes) : Prop where
  links : linksOf fs' = linksOf fs
  kind : ∀ x, kindAt fs' x = kindAt fs x
  owned : Owned (contents fs') fs'.buffers
  data : dataOf fs' a = bytes
  other : ∀ x, x ≠ a → dataOf fs' x = dataOf fs x
  files : fs'.files = fs.files
  root : fs'.root = fs.root
  cwd : fs'.cwd = fs.cwd

namespace Written

theorem refl (h : Owned (contents fs) fs.buffers) : Written fs fs a (dataOf fs a) :=
  ⟨rfl, fun _ => rfl, h, rfl, fun _ _ => rfl, rfl, rfl, rfl⟩

theorem trans (h : Written fs fs' a bytes) (h' : Written fs' fs'' a bytes') :
    Written fs fs'' a bytes' :=
  ⟨h'.links.trans h.links, fun x => (h'.kind x).trans (h.kind x), h'.owned, h'.data,
    fun x hx => (h'.other x hx).trans (h.other x hx), h'.files.trans h.files, h'.root.trans h.root,
    h'.cwd.trans h.cwd⟩

theorem live (h : Written fs fs' a bytes) {x : Nat} : Live fs' x ↔ Live fs x := by
  rw [Live, Live, h.links]

theorem tree (h : Tree fs r kids) (hw : Written fs fs' a bytes) : Tree fs' r kids where
  tree := hw.links ▸ h.tree
  root := hw.root.trans h.root
  rootDir := flagged_of_kind (hw.kind r) h.rootDir
  dir x c hc := flagged_of_kind (hw.kind x) (h.dir x c hc)
  addr x hx := h.addr x (hw.live.mp hx)
  owned := hw.owned

end Written

theorem contents_eq (hn : fs.nodes a = some n) : contents fs a = some n.bare := by
  simp [contents, hn]

theorem written_of (h : Owned (contents fs) fs.buffers) (hn : fs.nodes a = some n)
    (hlinks : linksOf fs' = linksOf fs)
    (hcont : contents fs' = Function.update (contents fs) a (some m))
    (hkind : (m.name, m.type) = (n.name, n.type)) (howned : Owned (contents fs') fs'.buffers)
    (hbuf : ∀ e, (fs.buffers e).isSome → n.data ≠ some e → fs'.buffers e = fs.buffers e)
    (hdata : dataOf fs' a = bytes) (hfiles : fs'.files = fs.files) (hroot : fs'.root = fs.root)
    (hcwd : fs'.cwd = fs.cwd) : Written fs fs' a bytes := by
  have hother : ∀ x, x ≠ a → contents fs' x = contents fs x := by
    intro x hx
    rw [hcont, Function.update_of_ne hx]
  refine ⟨hlinks, fun x => ?_, howned, hdata, fun x hx => ?_, hfiles, hroot, hcwd⟩
  · by_cases hx : x = a
    · rw [hx, kindAt, kindAt, hcont, Function.update_self, contents_eq hn]
      exact congrArg some hkind
    · rw [kindAt, kindAt, hother x hx]
  · exact h.bytes_other (contents_eq hn) hother hbuf hx

/-! ### The two steps of a write -/

/-- The bytes with zeros behind them up to the size. -/
def grown (bytes : Bytes) (size : Nat) : Bytes := bytes ++ List.replicate (size - bytes.length) 0

/-- The bytes with others in their place from the offset on. -/
def overwrite (bytes : Bytes) (offset : Nat) (buffer : Bytes) : Bytes :=
  bytes.take offset ++ buffer ++ bytes.drop (offset + buffer.length)

theorem grown_length {size : Nat} : (grown bytes size).length = max bytes.length size := by
  simp [grown]
  omega

theorem dataOf_length (h : Owned (contents fs) fs.buffers) (hn : fs.nodes a = some n) :
    (dataOf fs a).length = n.size := h.bytes_length (n := n.bare) (contents_eq hn)

theorem dataOf_eq (hc : contents fs a = some m) (hd : m.data = some d)
    (hb : fs.buffers d = some bytes) :
    dataOf fs a = bytes := by
  simp [dataOf, bytesAt, hc, hd, hb]

theorem readData_spec (h : Owned (contents fs) fs.buffers) (hn : fs.nodes a = some n)
    {offset size : Nat} (hle : offset + size ≤ n.size) :
    readData fs n.data offset size = some (((dataOf fs a).drop offset).take size) := by
  unfold readData
  by_cases hs : size = 0
  · simp [hs]
  rw [if_neg hs]
  cases hd : n.data with
  | none =>
    have := h.null a n.bare (contents_eq hn) hd
    have hsize : n.size = 0 := this
    omega
  | some d =>
    obtain ⟨bytes, hb, hl⟩ := h.held a n.bare d (contents_eq hn) hd
    have hbytes : dataOf fs a = bytes := dataOf_eq (contents_eq hn) hd hb
    have hle' : offset + size ≤ bytes.length := by
      rw [hl]
      exact hle
    simp [hb, hbytes, hle']

/-- **A file that has to grow moves** to a buffer with zeros at its end. -/
theorem expand_spec (h : Owned (contents fs) fs.buffers) (hn : fs.nodes a = some n) (newSize : Nat)
    (answer : Option Nat) : ∃ ok fs', expand fs a n newSize answer = some (ok, fs') ∧
      (ok = false ∧ fs' = fs ∧ fs.granted newSize answer = none ∨
        ok = true ∧ Written fs fs' a (grown (dataOf fs a) newSize)) := by
  unfold expand
  by_cases hlt : n.size < newSize
  · rw [if_pos hlt]
    cases hg : fs.granted newSize answer with
    | none => exact ⟨false, fs, rfl, Or.inl ⟨rfl, rfl, rfl⟩⟩
    | some d =>
      have hfresh := granted_fresh hg
      have hread : readData fs n.data 0 n.size = some (dataOf fs a) := by
        rw [readData_spec h hn (Nat.le_of_eq (Nat.zero_add _)),
          List.drop_zero, ← dataOf_length h hn, List.take_length]
      have hlen : (grown (dataOf fs a) newSize).length = newSize := by
        rw [grown_length, dataOf_length h hn]
        omega
      have hgrown : dataOf fs a ++ List.replicate (newSize - n.size) 0 =
          grown (dataOf fs a) newSize := by
        rw [grown, dataOf_length h hn]
      let fs₀ : Fs := { fs with buffers := freed fs.buffers n.data }
      let fs₁ := fs₀.setBuffer d (some (grown (dataOf fs a) newSize))
      let m : VfsNode := { n with data := some d, size := newSize }
      have hn₁ : fs₁.nodes a = some n := hn
      have hcont : contents (fs₁.setNode a m) = Function.update (contents fs) a (some m.bare) :=
        contents_setNode fs₁ a m
      have howned : Owned (contents (fs₁.setNode a m)) (fs₁.setNode a m).buffers := by
        rw [hcont]
        exact h.replace (n := n.bare) (contents_eq hn) hfresh.buffers rfl hlen hfresh.small
      refine ⟨true, fs₁.setNode a m, ?_,
        Or.inr ⟨rfl, written_of h hn (linksOf_data hn₁ rfl rfl rfl) hcont rfl
        howned (fun e he hne => ?_) ?_ rfl rfl rfl⟩⟩
      · simp only [hread, Option.bind_eq_bind, Option.bind_some, freeData_spec h hn, hgrown]
        rfl
      · have hed : e ≠ d := by
          rintro rfl
          rw [hfresh.buffers] at he
          cases he
        exact (Function.update_of_ne hed _ _).trans (Owned.freed_of_ne hne)
      · exact dataOf_eq (hcont ▸ Function.update_self _ _ _) rfl (Function.update_self _ _ _)
  · have hsame : grown (dataOf fs a) newSize = dataOf fs a := by
      have hz : newSize - (dataOf fs a).length = 0 := by
        rw [dataOf_length h hn]
        omega
      rw [grown, hz]
      exact List.append_nil _
    rw [if_neg hlt]
    exact ⟨true, fs, rfl, Or.inr ⟨rfl, hsame.symm ▸ Written.refl h⟩⟩

/-- **Bytes in the buffer are overwritten**; nothing else can be written. -/
theorem writeData_spec (h : Owned (contents fs) fs.buffers) (hn : fs.nodes a = some n)
    {offset : Nat} {buffer : Bytes} (hin : buffer = [] ∨ offset + buffer.length ≤ n.size) :
    ∃ fs', writeData fs n.data offset buffer = some fs' ∧
      Written fs fs' a (overwrite (dataOf fs a) offset buffer) := by
  unfold writeData
  by_cases hb : buffer = []
  · have hsame : overwrite (dataOf fs a) offset buffer = dataOf fs a := by
      simp [overwrite, hb]
    rw [if_pos hb]
    exact ⟨fs, rfl, hsame.symm ▸ Written.refl h⟩
  have hle : offset + buffer.length ≤ n.size := hin.resolve_left hb
  have hpos : 0 < buffer.length := List.length_pos_iff.mpr hb
  rw [if_neg hb]
  cases hd : n.data with
  | none =>
    have hsize : n.size = 0 := h.null a n.bare (contents_eq hn) hd
    omega
  | some d =>
    obtain ⟨bytes, hbytes, hl⟩ := h.held a n.bare d (contents_eq hn) hd
    have hl : bytes.length = n.size := hl
    have hdata : dataOf fs a = bytes := dataOf_eq (contents_eq hn) hd hbytes
    have hlen : (overwrite bytes offset buffer).length = n.size := by
      simp only [overwrite, List.length_append, List.length_take, List.length_drop]
      omega
    have hlinks : linksOf (fs.setBuffer d (some (overwrite bytes offset buffer))) = linksOf fs :=
      rfl
    have hcont : contents (fs.setBuffer d (some (overwrite bytes offset buffer))) =
        Function.update (contents fs) a (some n.bare) := by
      rw [← contents_eq hn, Function.update_eq_self]
      rfl
    refine ⟨fs.setBuffer d (some (overwrite bytes offset buffer)), ?_, ?_⟩
    · simp only [Option.bind_eq_bind, Option.bind_some, hbytes]
      exact if_pos (by omega)
    · rw [hdata]
      refine written_of h hn hlinks hcont rfl ?_ (fun e _ hne => ?_) ?_ rfl rfl rfl
      · exact h.write (contents_eq hn) hd hlen
      · exact Function.update_of_ne (fun he => hne (hd.trans (congrArg some he.symm))) _ _
      · exact dataOf_eq (contents_eq hn) hd (Function.update_self _ _ _)

theorem writeData_in (h : Owned (contents fs) fs.buffers) (hn : fs.nodes a = some n) {offset : Nat}
    {buffer : Bytes} (hw : writeData fs n.data offset buffer = some fs') :
    buffer = [] ∨ offset + buffer.length ≤ n.size := by
  by_cases hb : buffer = []
  · exact Or.inl hb
  right
  unfold writeData at hw
  rw [if_neg hb] at hw
  obtain ⟨d, hd, hw⟩ := Option.bind_eq_some_iff.mp hw
  obtain ⟨bytes, hbytes, hw⟩ := Option.bind_eq_some_iff.mp hw
  obtain ⟨bytes', hbytes', hl⟩ := h.held a n.bare d (contents_eq hn) hd
  rw [hbytes, Option.some.injEq] at hbytes'
  by_contra hle
  rw [if_neg (by rw [hbytes', hl]; exact hle)] at hw
  cases hw

/-! ### Data that is dropped and given -/

theorem clear_written (h : Owned (contents fs) fs.buffers) (hn : fs.nodes a = some n)
    (hm : m = { n with data := none, size := 0 }) :
    Written fs (Fs.setNode { fs with buffers := freed fs.buffers n.data } a m) a [] := by
  let fs₀ : Fs := { fs with buffers := freed fs.buffers n.data }
  have hn₀ : fs₀.nodes a = some n := hn
  have hlinks : linksOf (fs₀.setNode a m) = linksOf fs :=
    linksOf_data hn₀ (by rw [hm]) (by rw [hm]) (by rw [hm])
  have hcont : contents (fs₀.setNode a m) = Function.update (contents fs) a (some m.bare) :=
    contents_setNode fs₀ a m
  have hdata : m.bare.data = none := by rw [hm]; rfl
  refine written_of h hn hlinks hcont (by rw [hm]; rfl) ?_ (fun e _ hne => Owned.freed_of_ne hne) ?_
    rfl rfl rfl
  · rw [hcont]
    exact h.clear (n := n.bare) (contents_eq hn) hdata (by rw [hm]; rfl)
  · have hself : contents (fs₀.setNode a m) a = some m.bare := by rw [hcont, Function.update_self]
    show bytesAt (contents (fs₀.setNode a m)) _ a = []
    rw [bytesAt, hself, Option.bind_some, hdata]
    rfl

theorem give_written (h : Owned (contents fs) fs.buffers) (hn : fs.nodes a = some n)
    (hd : n.data = none) (hfresh : Fresh fs bytes.length d) :
    Written fs
      ((fs.setBuffer d (some bytes)).setNode a { n with data := some d, size := bytes.length }) a
      bytes := by
  let m : VfsNode := { n with data := some d, size := bytes.length }
  let fs₀ := fs.setBuffer d (some bytes)
  have hn₀ : fs₀.nodes a = some n := hn
  have hlinks : linksOf (fs₀.setNode a m) = linksOf fs := linksOf_data hn₀ rfl rfl rfl
  have hcont : contents (fs₀.setNode a m) = Function.update (contents fs) a (some m.bare) :=
    contents_setNode fs₀ a m
  refine written_of h hn hlinks hcont rfl ?_ (fun e he _ => ?_) ?_ rfl rfl rfl
  · rw [hcont]
    exact h.give (contents_eq hn) hd hfresh.buffers rfl rfl hfresh.small
  · have hed : e ≠ d := by
      rintro rfl
      rw [hfresh.buffers] at he
      cases he
    exact Function.update_of_ne hed _ _
  · exact dataOf_eq (hcont ▸ Function.update_self _ _ _) rfl (Function.update_self _ _ _)

/-! ### Writes -/

theorem overwrite_grown (bytes : Bytes) (offset : Nat) (buffer : Bytes) :
    overwrite (grown bytes (offset + buffer.length)) offset buffer =
      overwrite (grown bytes offset) offset buffer := by
  have htake : ∀ size, offset ≤ size →
      (grown bytes size).take offset = (grown bytes offset).take offset := by
    intro size hs
    rw [grown, grown, List.take_append, List.take_append, List.take_replicate, List.take_replicate]
    congr 2
    omega
  have hdrop : ∀ size, size ≤ offset + buffer.length →
      (grown bytes size).drop (offset + buffer.length) = bytes.drop (offset + buffer.length) := by
    intro size hs
    rw [grown, List.drop_append, List.drop_replicate, Nat.sub_eq_zero_of_le (by omega)]
    simp
  rw [overwrite, overwrite, htake _ (Nat.le_add_right _ _), hdrop _ (Nat.le_refl _),
    hdrop _ (Nat.le_add_right _ _)]

theorem Written.node (h : Written fs fs' a bytes) (hn : fs.nodes a = some n) :
    ∃ m, fs'.nodes a = some m ∧ m.size = bytes.length := by
  obtain ⟨m, hm⟩ := live_iff.mp (h.live.mpr (Live.mk hn))
  exact ⟨m, hm, by rw [← dataOf_length h.owned hm, h.data]⟩

theorem defaultWrite_spec (h : Owned (contents fs) fs.buffers) (hn : fs.nodes a = some n)
    {offset : Nat} {buffer : Bytes} (hrange : offset + buffer.length < 4294967296)
    (answer : Option Nat) :
    ∃ ret fs', defaultWrite fs a offset buffer answer = some (ret, fs') ∧
      (ret = -1 ∧ fs' = fs ∧
          (hasFlag n.type fsFile = false ∨ fs.granted (offset + buffer.length) answer = none) ∨
        ret = wint buffer.length ∧ hasFlag n.type fsFile = true ∧
          Written fs fs' a (overwrite (grown (dataOf fs a) offset) offset buffer)) := by
  unfold defaultWrite
  simp only [Option.bind_eq_bind, hn, Option.bind_some, Nat.mod_eq_of_lt hrange]
  cases hf : hasFlag n.type fsFile with
  | false => exact ⟨-1, fs, rfl, Or.inl ⟨rfl, rfl, Or.inl rfl⟩⟩
  | true =>
    obtain ⟨ok, fs₁, hexpand, ⟨rfl, rfl, hg⟩ | ⟨rfl, hw⟩⟩ :=
      expand_spec h hn (offset + buffer.length) answer
    · exact ⟨-1, fs₁, by simp [hexpand], Or.inl ⟨rfl, rfl, Or.inr hg⟩⟩
    · obtain ⟨m, hm, hsize⟩ := hw.node hn
      have hin : offset + buffer.length ≤ m.size := by
        rw [hsize, grown_length]
        exact Nat.le_max_right _ _
      obtain ⟨fs₂, hwrite, hw₂⟩ := writeData_spec hw.owned hm (Or.inr hin)
      rw [hw.data, overwrite_grown] at hw₂
      exact ⟨wint buffer.length, fs₂, by simp [hexpand, hm, hwrite],
        Or.inr ⟨rfl, rfl, hw.trans hw₂⟩⟩

/-- Whatever a write to a node returns, it changes the data of that node at most. -/
theorem defaultWrite_written (h : Owned (contents fs) fs.buffers) {offset : Nat} {buffer : Bytes}
    {ret : Int} (hret : defaultWrite fs a offset buffer answer = some (ret, fs')) :
    fs' = fs ∨ ∃ bytes, Written fs fs' a bytes := by
  unfold defaultWrite at hret
  obtain ⟨n, hn, hr⟩ := Option.bind_eq_some_iff.mp hret
  cases hf : hasFlag n.type fsFile with
  | false =>
    simp only [hf, Bool.not_false, if_true, Option.some.injEq, Prod.mk.injEq] at hr
    exact Or.inl hr.2.symm
  | true =>
    simp only [hf, Bool.not_true, Bool.false_eq_true, if_false] at hr
    obtain ⟨ok, fs₁, hexpand, hw⟩ := expand_spec h hn ((offset + buffer.length) % 4294967296) answer
    rw [hexpand] at hr
    obtain ⟨rfl, rfl, -⟩ | ⟨rfl, hw⟩ := hw
    · simp only [Option.bind_eq_bind, Option.bind_some, Bool.false_eq_true, if_false,
        Option.some.injEq, Prod.mk.injEq] at hr
      exact Or.inl hr.2.symm
    · simp only [Option.bind_eq_bind, Option.bind_some, if_true] at hr
      obtain ⟨m, hm, hr⟩ := Option.bind_eq_some_iff.mp hr
      obtain ⟨fs₂, hwrite, hr⟩ := Option.bind_eq_some_iff.mp hr
      obtain ⟨fs₃, hwrite', hw₂⟩ := writeData_spec hw.owned hm (writeData_in hw.owned hm hwrite)
      rw [hwrite, Option.some.injEq] at hwrite'
      simp only [Option.some.injEq, Prod.mk.injEq] at hr
      rw [← hr.2, hwrite']
      exact Or.inr ⟨_, hw.trans hw₂⟩

/-! ### Reads -/

theorem defaultRead_spec (h : Owned (contents fs) fs.buffers) (hn : fs.nodes a = some n)
    {offset size : Nat} (hs : offset < n.size → offset + size < 4294967296) :
    defaultRead fs a offset size = some (
      if hasFlag n.type fsFile then
        (((min size (n.size - offset) : Nat) : Int), ((dataOf fs a).drop offset).take size)
      else (-1, [])) := by
  have hsmall : n.size ≤ 4194288 := h.small a n.bare (contents_eq hn)
  have hlen := dataOf_length h hn
  unfold defaultRead
  simp only [Option.bind_eq_bind, hn, Option.bind_some]
  cases hf : hasFlag n.type fsFile with
  | false => rfl
  | true =>
    simp only [Bool.not_true, Bool.false_eq_true, if_false, if_true]
    by_cases hend : n.size ≤ offset
    · rw [if_pos hend, List.drop_eq_nil_of_le (by omega), Nat.sub_eq_zero_of_le hend]
      simp
    rw [if_neg hend]
    -- what is asked for, cut at the end of the file
    have hcut : (if n.size < (offset + size) % 4294967296 then n.size - offset else size) =
        min size (n.size - offset) := by
      rw [Nat.mod_eq_of_lt (hs (by omega))]
      split <;> omega
    rw [hcut]
    by_cases hz : min size (n.size - offset) = 0
    · have hsize : size = 0 := by omega
      simp [hsize]
    · rw [if_neg hz, readData_spec h hn (by omega)]
      have hwint :
          wint (min size (n.size - offset)) = ((min size (n.size - offset) : Nat) : Int) := by
        rw [wint, Nat.mod_eq_of_lt (by omega), if_pos (by omega)]
      have htake : ((dataOf fs a).drop offset).take (min size (n.size - offset)) =
          ((dataOf fs a).drop offset).take size := by
        rw [List.take_eq_take_iff, List.length_drop, hlen]
        omega
      rw [hwint, htake]
      rfl

/-! ### Handles -/

/-- What programs see: the bytes of the nodes and the open files. -/
structure View where
  data : Nat → Bytes
  files : Nat → Option VfsFile

def view (fs : Fs) : View := ⟨dataOf fs, fs.files⟩

namespace View

/-- The handle `f` moves on by `n` bytes. -/
def advance (v : View) (f : Nat) (file : VfsFile) (n : Nat) : View :=
  { v with files := Function.update v.files f (some { file with position := file.position + n }) }

/-- The bytes go over those of the file from the position of the handle `f` on, behind zeros where
it is too short, and the handle moves on. -/
def write (v : View) (f : Nat) (file : VfsFile) (buffer : Bytes) : View :=
  { v with
    data := Function.update v.data file.node
      (overwrite (grown (v.data file.node) file.position) file.position buffer) }.advance
        f file buffer.length

theorem advance_advance (v : View) (f : Nat) (file : VfsFile) (n k : Nat) :
    (v.advance f file n).advance f { file with position := file.position + n } k =
      v.advance f file (n + k) := by
  simp [advance, Nat.add_assoc]

end View

variable {f size : Nat} {file : VfsFile} {buffer : Bytes}

theorem advance_view (hf : fs.files f = some file)
    (hpos : 0 < size → file.position + size < 4294967296) :
    view (advance fs f file (size : Int)) = (view fs).advance f file size := by
  unfold advance
  by_cases hs : size = 0
  · have hself : Function.update fs.files f (some file) = fs.files := by
      rw [Function.update_eq_self_iff, hf]
    simp [hs, view, View.advance, hself]
  · rw [if_pos (by omega), Int.toNat_natCast, Nat.mod_eq_of_lt (hpos (by omega))]
    rfl

/-- **A write through a handle.** -/
theorem ramfsWrite_spec (h : Owned (contents fs) fs.buffers) (hf : fs.files f = some file)
    (hn : Flagged fsFile fs file.node) (hsize : buffer.length < 2147483648)
    (hrange : file.position + buffer.length < 4294967296) (answer : Option Nat) :
    ∃ ret fs', ramfsWrite fs (some f) buffer answer = some (ret, fs') ∧
      (ret = buffer.length ∧ view fs' = (view fs).write f file buffer ∨
        ret = -1 ∧ fs' = fs ∧ (hasFlag file.flags oWrite = false ∨
          fs.granted (file.position + buffer.length) answer = none)) := by
  obtain ⟨n, hnode⟩ := live_iff.mp hn.live
  have hflag := (flagged_iff hnode).mp hn
  unfold ramfsWrite
  simp only [Option.bind_eq_bind, hf, Option.bind_some]
  cases hw : hasFlag file.flags oWrite with
  | false => exact ⟨-1, fs, rfl, Or.inr ⟨rfl, rfl, Or.inl rfl⟩⟩
  | true =>
    obtain ⟨ret, fs₁, hwrite, ⟨rfl, rfl, hg⟩ | ⟨rfl, -, hw₁⟩⟩ :=
      defaultWrite_spec h hnode hrange answer
    · refine ⟨-1, fs₁, by simp [hwrite, advance], Or.inr ⟨rfl, rfl, Or.inr ?_⟩⟩
      rw [hflag] at hg
      exact hg.resolve_left (by decide)
    · have hwint : wint buffer.length = (buffer.length : Int) := by
        rw [wint, Nat.mod_eq_of_lt (by omega), if_pos hsize]
      refine ⟨buffer.length, advance fs₁ f file buffer.length, by simp [hwrite, hwint],
        Or.inl ⟨rfl, ?_⟩⟩
      rw [advance_view (hw₁.files ▸ hf) (fun _ => hrange)]
      have hdata : dataOf fs₁ = Function.update (dataOf fs) file.node
          (overwrite (grown (dataOf fs file.node) file.position) file.position buffer) := by
        funext x
        by_cases hx : x = file.node
        · rw [hx, Function.update_self, hw₁.data]
        · rw [Function.update_of_ne hx, hw₁.other x hx]
      simp [View.write, View.advance, view, hdata, hw₁.files]

/-- **A read through a handle** with `O_READ`. -/
theorem ramfsRead_spec (h : Owned (contents fs) fs.buffers) (hf : fs.files f = some file)
    (hn : Flagged fsFile fs file.node) (hsize : size < 2147483648)
    (hread : hasFlag file.flags oRead = true) :
    ∃ fs', ramfsRead fs (some f) size =
        some (((min size ((dataOf fs file.node).length - file.position) : Nat) : Int),
          ((dataOf fs file.node).drop file.position).take size, fs') ∧
      fs' = advance fs f file
        ((min size ((dataOf fs file.node).length - file.position) : Nat) : Int) ∧
      view fs' = (view fs).advance f file
        (min size ((dataOf fs file.node).length - file.position)) := by
  obtain ⟨n, hnode⟩ := live_iff.mp hn.live
  have hflag := (flagged_iff hnode).mp hn
  have hlen := dataOf_length h hnode
  have hsmall : n.size ≤ 4194288 := h.small file.node n.bare (contents_eq hnode)
  have hrange : file.position < n.size → file.position + size < 4294967296 := fun _ => by omega
  refine ⟨_, ?_, rfl, advance_view hf (fun _ => by omega)⟩
  unfold ramfsRead
  simp only [Option.bind_eq_bind, hf, Option.bind_some, hread, Bool.not_true, Bool.false_eq_true,
    if_false, defaultRead_spec h hnode hrange, hflag, if_true, hlen]

/-! ### Reading a file from its start -/

/-- `while ((n = ramfs_read(file, size, buf)) > 0)`, with the size of the buffer chosen for every
read. -/
def readChunks (sizes : Nat → Nat) : Nat → Nat → Fs → Nat → Option (Fs × Bytes)
  | 0, _, _, _ => none
  | fuel + 1, i, fs, f => do
    let (n, bytes, fs) ← ramfsRead fs (some f) (sizes i)
    if 0 < n then do
      let (fs, rest) ← readChunks sizes fuel (i + 1) fs f
      some (fs, bytes ++ rest)
    else some (fs, [])

theorem advance_contents (fs : Fs) (f : Nat) (file : VfsFile) (n : Int) :
    contents (advance fs f file n) = contents fs ∧ (advance fs f file n).buffers = fs.buffers := by
  unfold advance
  split <;> exact ⟨rfl, rfl⟩

/-- **Chunks of any sizes** give what is left of the file from the position on. -/
theorem readChunks_spec {sizes : Nat → Nat} (hsizes : ∀ i, 0 < sizes i ∧ sizes i < 2147483648) :
    ∀ {fuel i : Nat} {fs : Fs} (file : VfsFile), Owned (contents fs) fs.buffers →
      fs.files f = some file →
      Flagged fsFile fs file.node → hasFlag file.flags oRead = true →
      (dataOf fs file.node).length - file.position < fuel →
      ∃ fs', readChunks sizes fuel i fs f = some (fs', (dataOf fs file.node).drop file.position) ∧
        view fs' = (view fs).advance f file ((dataOf fs file.node).length - file.position) := by
  intro fuel
  induction fuel with
  | zero => intro i fs file _ _ _ _ hfuel; omega
  | succ fuel ih =>
    intro i fs file h hf hn hread hfuel
    obtain ⟨fs₁, hr, hfs₁, hview⟩ := ramfsRead_spec h hf hn (hsizes i).2 hread
    have hi := (hsizes i).1
    rw [readChunks, hr]
    simp only [Option.bind_eq_bind, Option.bind_some]
    by_cases hend : (dataOf fs file.node).length ≤ file.position
    · have hmin : min (sizes i) ((dataOf fs file.node).length - file.position) = 0 := by omega
      rw [if_neg (by omega), List.drop_eq_nil_of_le hend]
      refine ⟨fs₁, rfl, ?_⟩
      rw [hview, hmin, Nat.sub_eq_zero_of_le hend]
    · have hsmall : (dataOf fs file.node).length ≤ 4194288 := by
        obtain ⟨n, hnode⟩ := live_iff.mp hn.live
        rw [dataOf_length h hnode]
        exact h.small file.node n.bare (contents_eq hnode)
      rw [if_pos (by omega)]
      obtain ⟨hcont, hbuf⟩ : contents fs₁ = contents fs ∧ fs₁.buffers = fs.buffers := by
        rw [hfs₁]
        exact advance_contents _ _ _ _
      have hdata : dataOf fs₁ = dataOf fs := congrArg View.data hview
      let file₁ : VfsFile :=
        { file with
          position := file.position +
            min (sizes i) ((dataOf fs file.node).length - file.position) }
      have hf₁ : fs₁.files f = some file₁ := by
        have := congrArg (fun v => View.files v f) hview
        exact this.trans (Function.update_self _ _ _)
      obtain ⟨fs', hrest, hview'⟩ := ih (i := i + 1) file₁ (hcont ▸ hbuf ▸ h) hf₁
        (by simpa [Flagged, hcont] using hn) hread
        (by rw [hdata]; simp only [file₁]; omega)
      refine ⟨fs', ?_, ?_⟩
      · have hrest' : (dataOf fs file.node).drop file₁.position =
            ((dataOf fs file.node).drop file.position).drop (sizes i) := by
          rw [List.drop_drop, List.drop_eq_drop_iff]
          simp only [file₁]
          omega
        rw [hrest, Option.bind_some, hdata, hrest', List.take_append_drop]
      · rw [hview', hview, hdata]
        refine (View.advance_advance _ _ _ _ _).trans ?_
        congr 1
        simp only [file₁]
        omega

end CobraOS.Ramfs
