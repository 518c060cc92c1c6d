import CobraOS.Snake.Files
import CobraOS.Snake.Invariant

/-!
# The editor with a file

`editor_load` leaves the editor as it is or in a session with the text of the file
(`editorLoad_spec`).  So every editor that opens files, edits them and saves them is in some
session, as long as no request is refused when a file is opened (`documents_holds`).
-/

namespace CobraOS.Snake

open Base
open Ramfs (Fs Bytes)

section

variable {w : World} {ed : Editor} {ts : List Text} {buf : Block UInt8} {bytes : Text}
    {len start : Nat}

/-! ### The buffer -/

/-- The buffer holds a file, or was not filled because the file has no data. -/
def FileBuffer (buf : Block UInt8) (len : Nat) : Prop :=
  len < maxRequest ∧
    ((∃ bytes : Text, buf.cells = bytes.map some ++ [some 0] ∧ bytes.length = len) ∨
    0 < len ∧ buf.get (len - 1) = none)

theorem readInto_some {fs : Fs} {n : Ramfs.VfsNode} {b b' : Block UInt8}
    (h : readInto fs n b = some b') : b' = b ∨ ∃ bytes : Text, bytes.length = n.size ∧
      n.size ≤ b.cells.length ∧ b' = ⟨b.id, bytes.map some ++ b.cells.drop n.size⟩ := by
  unfold readInto at h
  cases hd : n.data with
  | none =>
    rw [hd] at h
    exact Or.inl (Option.some.inj h).symm
  | some d =>
    simp only [hd] at h
    split at h
    · obtain ⟨bytes, -, hcopy⟩ := Option.bind_eq_some_iff.mp h
      obtain ⟨⟨hs, hb⟩, rfl⟩ := Block.copy_some hcopy
      simp only [List.length_map, Nat.zero_add] at hs hb
      refine Or.inr ⟨bytes.take n.size, by rw [List.length_take, Nat.min_eq_left hs], hb, ?_⟩
      simp
    · exact Or.inl (Option.some.inj h).symm

theorem readInto_spec {fs : Fs} {n : Ramfs.VfsNode} {id k : Nat} {b1 b2 : Block UInt8}
    (hk : k = (n.size + 1) % 4294967296) (hmax : k ≤ maxRequest)
    (h1 : readInto fs n ⟨id, List.replicate k none⟩ = some b1) (h2 : b1.set n.size 0 = some b2) :
    FileBuffer b2 n.size := by
  obtain ⟨hlt, rfl⟩ := Block.set_some h2
  have hlen : b1.cells.length = k := by
    obtain rfl | ⟨bytes, hbytes, hle, rfl⟩ := readInto_some h1
    · rw [List.length_replicate]
    · simp only [List.length_replicate] at hle
      simp only [List.length_append, List.length_map, List.length_drop, List.length_replicate]
      omega
  -- otherwise the size has wrapped, and the last access is out of bounds
  obtain rfl : k = n.size + 1 := by omega
  refine ⟨by omega, ?_⟩
  obtain rfl | ⟨bytes, hbytes, -, rfl⟩ := readInto_some h1
  · by_cases hpos : 0 < n.size
    · refine Or.inr ⟨hpos, ?_⟩
      unfold Block.get
      rw [List.getElem?_set_ne (by omega), List.getElem?_replicate_of_lt (by omega)]
      rfl
    · obtain h0 : n.size = 0 := by omega
      rw [h0]
      exact Or.inl ⟨[], rfl, rfl⟩
  · refine Or.inl ⟨bytes, ?_, hbytes⟩
    simp only [List.drop_replicate, Nat.add_sub_cancel_left]
    have hlen : (bytes.map some).length = n.size := by rw [List.length_map, hbytes]
    rw [← hlen]
    simp

/-- **`fs_read_file`** -/
theorem fsReadFile_spec (fs : Fs) (path : Bytes) : Leads (fsReadFile fs path) w (fun r w' =>
    ∀ buf len, r = some (buf, len) → w'.refusals = w.refusals ∧ FileBuffer buf len) := by
  have hnone : ∀ {w1 : World}, Leads (pure none) w1 (fun (r : Option (Block UInt8 × Nat)) w' =>
      ∀ buf len, r = some (buf, len) → w'.refusals = w.refusals ∧ FileBuffer buf len) :=
    Leads.pure fun _ _ h => absurd h (by simp)
  unfold fsReadFile
  refine Leads.lift fun r _ => ?_
  obtain ⟨_, node⟩ := r
  cases node with
  | none => exact hnone
  | some node =>
    refine Leads.lift fun n _ => Leads.ite (fun _ => hnone) fun _ => ?_
    refine Leads.bind
      (Leads.of_meets (Meets.request (Q := fun r w' => ∀ b : Block UInt8, r = some b →
      w'.refusals = w.refusals ∧ ∃ id k, b = ⟨id, List.replicate k none⟩ ∧
        k = (n.size + 1) % 4294967296 ∧ k ≤ maxRequest) ?_ ?_)) ?_
    · intro id w' _ hle hw b hb
      cases hb
      exact ⟨hw, id, _, by rw [Nat.div_one], rfl, hle⟩
    · intro w' _ b hb
      cases hb
    · intro b w1 hb
      cases b with
      | none => exact hnone
      | some b =>
        obtain ⟨hw, id, k, rfl, hk, hle⟩ := hb _ rfl
        refine Leads.lift fun buf1 h1 => Leads.lift fun buf2 h2 => Leads.pure ?_
        intro buf len heq
        cases heq
        exact ⟨hw, readInto_spec hk hle h1 h2⟩

/-! ### The lines -/

/-- The lines read so far; there is no array before the first. -/
def Parsed (ed : Editor) (ts : List Text) : Prop :=
  ed.lines = none ∧ ed.numLines = 0 ∧ ts = [] ∨ HoldLines ed.lines ed.numLines ts

/-- Only the lines differ. -/
def SameButLines (ed ed' : Editor) : Prop :=
  ∃ lines n, ed' = { ed with lines := lines, numLines := n }

theorem Parsed.count (h : Parsed ed ts) : ed.numLines = ts.length ∧ ed.numLines < 4194288 := by
  obtain ⟨-, hn, rfl⟩ | h := h
  · exact ⟨hn, by omega⟩
  · exact h.count_lt

theorem moveLines_spec (h : Parsed ed ts) (id : Nat) :
    Meets (moveLines ed ⟨id, List.replicate (ed.numLines + 1) none⟩) w (fun b w' =>
      w'.refusals = w.refusals ∧ ∃ ls, b = ⟨id, ls.map some ++ [none]⟩ ∧
        List.Forall₂ Line.Holds ls ts) := by
  unfold moveLines
  obtain ⟨hlines, hn, rfl⟩ | ⟨id', ls, rest, hlines, hf, hn, -⟩ := h
  · rw [hlines, hn]
    exact Meets.pure ⟨rfl, [], rfl, .nil⟩
  · have hlen : ls.length = ed.numLines := hf.length_eq.trans hn.symm
    have hcopy := Block.copy_fresh (n := ed.numLines) id
      (show (⟨id', ls.map some ++ rest⟩ : Block Line).cells = [] ++ (ls.map some ++ rest) from rfl)
      rfl (by rw [List.length_map, hlen])
    rw [hlines]
    exact Meets.lift hcopy (Meets.seq (Meets.release fun w1 hw1 => Meets.pure ⟨hw1, ls, rfl, hf⟩))

/-- The text can be freed. -/
def Freeable (ed : Editor) : Prop :=
  ∀ w, Meets (freeText ed) w (fun _ w' => w'.refusals = w.refusals)

theorem freeable_lines {id : Nat} {ls : List Line} {rest : List (Option Line)}
    (hlines : ed.lines = some ⟨id, ls.map some ++ rest⟩) (hn : ls.length = ed.numLines) :
    Freeable ed := by
  intro w
  unfold freeText
  rw [hlines]
  refine Meets.bind (freeLines_all hn) fun _ w1 hw1 => ?_
  exact Meets.release fun w2 hw2 => hw2.trans hw1

theorem HoldLines.freeable (h : HoldLines ed.lines ed.numLines ts) : Freeable ed := by
  obtain ⟨id, ls, rest, hlines, hf, hn, -⟩ := h
  exact freeable_lines hlines (hf.length_eq.trans hn.symm)

theorem Parsed.freeable (h : Parsed ed ts) : Freeable ed := by
  obtain ⟨hlines, -, -⟩ | h := h
  · intro w
    unfold freeText
    rw [hlines]
    exact Meets.pure rfl
  · exact h.freeable

/-- **One line** is read from the file. -/
theorem addLine_spec (h : Parsed ed ts) (hbuf : buf.cells = bytes.map some ++ [some 0])
    (hsize : bytes.length < maxRequest) (hle : start + len ≤ bytes.length) :
    Meets (addLine ed buf start len) w (fun r w' => Outcome w w' r.1 ∧ SameButLines ed r.2 ∧
      Freeable r.2 ∧
      (r.1 = true → HoldLines r.2.lines r.2.numLines (ts ++ [(bytes.drop start).take len]))) := by
  obtain ⟨hcount, hlt⟩ := h.count
  have hmod : (ed.numLines + 1) * lineSize % 4294967296 = (ed.numLines + 1) * lineSize := by
    unfold lineSize
    exact Nat.mod_eq_of_lt (by omega)
  have hmod' : (len + 1) % 4294967296 = len + 1 := by
    unfold maxRequest at hsize
    exact Nat.mod_eq_of_lt (by omega)
  unfold addLine kmalloc
  rw [hmod, hmod']
  refine Meets.seq (Meets.request (fun id w1 _ hmax hw1 => ?_) fun w1 hw1 =>
    Meets.pure ⟨Or.inr ⟨rfl, by omega⟩, ⟨_, _, rfl⟩, h.freeable, fun hf => absurd hf (by simp)⟩)
  rw [Nat.mul_div_cancel _ (by decide)]
  refine Meets.bind (moveLines_spec h id) ?_
  rintro _ w2 ⟨hw2, ls, rfl, hf⟩
  have hmoved : Freeable { ed with lines := some ⟨id, ls.map some ++ [none]⟩ } :=
    freeable_lines rfl (hf.length_eq.trans hcount.symm)
  refine Meets.seq (Meets.request (fun id' w3 _ hcap hw3 => ?_) fun w3 hw3 =>
    Meets.pure ⟨Or.inr ⟨rfl, by omega⟩, ⟨_, _, rfl⟩, hmoved, fun hf => absurd hf (by simp)⟩)
  rw [Nat.div_one]
  have hlen : ((bytes.drop start).take len).length = len := by
    rw [List.length_take, List.length_drop]
    omega
  have hcells :
    buf.cells = (bytes.take start).map some ++ (((bytes.drop start).take len).map some ++
      (((bytes.drop start).drop len).map some ++ [some 0])) := by
    rw [hbuf, ← List.append_assoc (List.map some ((bytes.drop start).take len)), ← List.map_append,
      List.take_append_drop, ← List.append_assoc, ← List.map_append, List.take_append_drop]
  have hcopy := Block.copy_fresh (i := start) (n := len) id' hcells
    (by rw [List.length_map, List.length_take]; omega) (by rw [List.length_map, hlen])
  have hset := Block.set_fresh (n := len) id' (((bytes.drop start).take len).map some) (0 : UInt8)
    (by rw [List.length_map, hlen])
  have hline :
    Line.Holds ⟨some ⟨id', ((bytes.drop start).take len).map some ++ [some 0]⟩, len, len + 1⟩
      ((bytes.drop start).take len) := ⟨⟨id', [], rfl, by simp [hlen]⟩, hlen.symm, hcap⟩
  have hput := Block.set_mid (i := ed.numLines)
    (⟨some ⟨id', ((bytes.drop start).take len).map some ++ [some 0]⟩, len, len + 1⟩ : Line)
    (show (⟨id, ls.map some ++ [none]⟩ : Block Line).cells = ls.map some ++ none :: [] from rfl)
    (by rw [List.length_map, hf.length_eq, hcount])
  refine Meets.lift hcopy (Meets.lift hset (Meets.lift hput (Meets.pure ?_)))
  have hlines :
    HoldLines (some ⟨id, ls.map some ++ [some ⟨some ⟨id', ((bytes.drop start).take len).map some ++
      [some 0]⟩, len, len + 1⟩]⟩) (ed.numLines + 1) (ts ++ [(bytes.drop start).take len]) := by
    refine ⟨id, ls ++ [_], [], ?_, List.rel_append hf (.cons hline .nil), ?_, ?_⟩
    · simp
    · rw [List.length_append, ← hcount]
      rfl
    · rw [List.length_append, hf.length_eq, ← hcount]
      exact hmax
  exact ⟨Or.inl ⟨rfl, by omega⟩, ⟨_, _, rfl⟩, hlines.freeable, fun _ => hlines⟩

theorem buffer_get (hbuf : buf.cells = bytes.map some ++ [some 0]) {i : Nat}
    (hi : i < bytes.length) :
    buf.get i = some bytes[i] := by
  rw [Block.get_eq_some, hbuf, List.getElem?_append_left (by rwa [List.length_map]),
    List.getElem?_map, List.getElem?_eq_getElem hi]
  rfl

theorem atLineEnd_spec (hbuf : buf.cells = bytes.map some ++ [some 0]) {stop i : Nat}
    (hi : i ≤ stop) (hstop : stop ≤ bytes.length) :
    atLineEnd buf stop i = some (decide (i = stop ∨ bytes[i]? = some newlineChar)) := by
  unfold atLineEnd
  by_cases h : i = stop
  · rw [if_pos h, decide_eq_true (Or.inl h)]
  · have hlt : i < bytes.length := by omega
    rw [if_neg h, buffer_get hbuf hlt, List.getElem?_eq_getElem hlt, Option.map_some]
    simp [h, beq_eq_decide]

/-- The length of the line from `start` to `i`. -/
def lengthOf (bytes : Text) (start i : Nat) : Nat :=
  if bytes[i - start - 1]? = some carriageReturn then i - start - 1 else i - start

theorem lineLength_spec (hbuf : buf.cells = bytes.map some ++ [some 0]) (start : Nat) {i : Nat}
    (hi : i ≤ bytes.length) : lineLength buf start i = some (lengthOf bytes start i) := by
  unfold lineLength lengthOf
  split
  · have hlt : i - start - 1 < bytes.length := by omega
    rw [buffer_get hbuf hlt, List.getElem?_eq_getElem hlt, Option.map_some]
    simp
  · have h0 : i - start = 0 := by omega
    rw [h0]
    simp

theorem lengthOf_le (bytes : Text) (start i : Nat) : lengthOf bytes start i ≤ i - start := by
  unfold lengthOf
  split <;> omega

/-- The lines that the loop of `editor_parse_buffer` finds in `n` rounds, from `i` on. -/
def linesFrom (bytes : Text) (stop : Nat) : Nat → Nat → Nat → List Text
  | 0, _, _ => []
  | n + 1, i, start =>
    if i = stop ∨ bytes[i]? = some newlineChar then
      (bytes.drop start).take (lengthOf bytes start i) :: linesFrom bytes stop n (i + 1) (i + 1)
    else linesFrom bytes stop n (i + 1) start

theorem linesFrom_ne_nil (bytes : Text) {stop : Nat} :
    ∀ {n i start : Nat}, i + n = stop + 1 → 0 < n →
    linesFrom bytes stop n i start ≠ [] := by
  intro n
  induction n with
  | zero => exact fun _ h => absurd h (by simp)
  | succ n ih =>
    intro i start hi _
    unfold linesFrom
    split
    · exact List.cons_ne_nil _ _
    · exact ih (by omega) (by omega)

/-- **The loop of `editor_parse_buffer`** adds these lines. -/
theorem parseLines_spec (hbuf : buf.cells = bytes.map some ++ [some 0])
    (hsize : bytes.length < maxRequest) {stop : Nat} (hstop : stop ≤ bytes.length) :
    ∀ {n i start : Nat} {ed : Editor} {ts : List Text} {w : World}, i + n = stop + 1 → start ≤ i →
      Parsed ed ts →
    Meets (parseLines buf stop n i start ed) w (fun r w' => Outcome w w' r.1 ∧ SameButLines ed r.2 ∧
      Freeable r.2 ∧ (r.1 = true → Parsed r.2 (ts ++ linesFrom bytes stop n i start))) := by
  intro n
  induction n with
  | zero =>
    intro i start ed ts w _ _ h
    exact Meets.pure ⟨Or.inl ⟨rfl, rfl⟩, ⟨_, _, rfl⟩, h.freeable, fun _ => by
      rwa [linesFrom, List.append_nil]⟩
  | succ n ih =>
    intro i start ed ts w hi hle h
    refine Meets.lift (atLineEnd_spec hbuf (show i ≤ stop by omega) hstop) ?_
    rw [linesFrom]
    by_cases hend : i = stop ∨ bytes[i]? = some newlineChar
    · rw [decide_eq_true hend, if_pos hend]
      have hlen := lengthOf_le bytes start i
      refine Meets.lift (lineLength_spec hbuf start (show i ≤ bytes.length by omega)) ?_
      refine Meets.bind (addLine_spec h hbuf hsize (by omega)) ?_
      rintro ⟨ok, ed1⟩ w1 ⟨ho, hs, hfree, hr⟩
      cases ok with
      | false => exact Meets.pure ⟨ho, hs, hfree, fun hf => absurd hf (by simp)⟩
      | true =>
        obtain ⟨-, hw1⟩ | ⟨hf, -⟩ := ho
        · refine (ih (w := w1) (by omega) le_rfl (Or.inr (hr rfl))).mono
            fun r w' ⟨ho', hs', hfree', hr'⟩ => ⟨Outcome.trans hw1 ho', ?_, hfree', fun hok => ?_⟩
          · obtain ⟨_, _, rfl⟩ := hs
            obtain ⟨_, _, hs'⟩ := hs'
            exact ⟨_, _, hs'⟩
          · have hp := hr' hok
            rwa [List.append_assoc, List.singleton_append] at hp
        · exact absurd hf (by simp)
    · rw [decide_eq_false hend, if_neg hend]
      exact ih (w := w) (by omega) (by omega) h

/-- `end` in `editor_parse_buffer`: a last newline ends no line. -/
def stopOf (bytes : Text) : Nat :=
  if bytes.getLast? = some newlineChar then bytes.length - 1 else bytes.length

/-- The lines that `editor_parse_buffer` finds in a file. -/
def fileLines (bytes : Text) : List Text := linesFrom bytes (stopOf bytes) (stopOf bytes + 1) 0 0

theorem fileLines_ne_nil (bytes : Text) : fileLines bytes ≠ [] :=
  linesFrom_ne_nil bytes (Nat.zero_add _) (Nat.succ_pos _)

theorem endsWithNewline_spec (hbuf : buf.cells = bytes.map some ++ [some 0]) :
    endsWithNewline buf bytes.length = some (decide (bytes.getLast? = some newlineChar)) := by
  unfold endsWithNewline
  split
  · have hlt : bytes.length - 1 < bytes.length := by omega
    rw [buffer_get hbuf hlt, List.getLast?_eq_getElem?, List.getElem?_eq_getElem hlt,
      Option.map_some]
    simp [beq_eq_decide]
  · obtain rfl : bytes = [] := List.length_eq_zero_iff.mp (by omega)
    rfl

/-- **`editor_parse_buffer`** -/
theorem editorParseBuffer_spec (ed : Editor) (hbuf : buf.cells = bytes.map some ++ [some 0])
    (hsize : bytes.length < maxRequest) (ends : Bool) :
    Meets (editorParseBuffer ed buf bytes.length ends) w (fun r w' => Outcome w w' r.1 ∧
      Freeable r.2 ∧
      ∃ lines n nl, r.2 = { ed with lines := lines, numLines := n, fileEndsWithNewline := nl } ∧
        (r.1 = true → HoldLines lines n (fileLines bytes) ∧ nl = ends)) := by
  have hle : stopOf bytes ≤ bytes.length := by
    unfold stopOf
    split <;> omega
  have hparse := parseLines_spec (w := w) hbuf hsize hle (n := stopOf bytes + 1) (i := 0) (by omega)
    le_rfl
    (show Parsed { ed with numLines := 0, lines := none } [] from Or.inl ⟨rfl, rfl, rfl⟩)
  unfold editorParseBuffer
  refine Meets.lift (endsWithNewline_spec hbuf) ?_
  have hstop :
    (if decide (bytes.getLast? = some newlineChar) = true then bytes.length - 1 else bytes.length) =
      stopOf bytes := by
    unfold stopOf
    simp
  rw [hstop]
  refine Meets.bind hparse ?_
  rintro ⟨ok, ed1⟩ w1 ⟨ho, hs, hfree, hr⟩
  cases ok with
  | false =>
    obtain ⟨lines, n, rfl⟩ := hs
    exact Meets.pure ⟨ho, hfree, lines, n, ed.fileEndsWithNewline, rfl,
      fun hf => absurd hf (by simp)⟩
  | true =>
    obtain ⟨-, -, h0⟩ | hlines := hr rfl
    · exact absurd h0 (fileLines_ne_nil bytes)
    · replace hlines : HoldLines ed1.lines ed1.numLines (fileLines bytes) := hlines
      have hpos : ed1.numLines ≠ 0 := by
        rw [hlines.count_lt.1]
        exact fun h0 => fileLines_ne_nil bytes (List.length_eq_zero_iff.mp h0)
      have hone : orOneLine ed1 = pure (true, ed1) := if_neg hpos
      simp only [if_true, hone, pure_bind]
      refine Meets.pure ⟨ho, (show HoldLines _ _ (fileLines bytes) from hlines).freeable, ?_⟩
      obtain ⟨lines, n, rfl⟩ := hs
      exact ⟨lines, n, ends, rfl, fun _ => ⟨hlines, rfl⟩⟩

/-! ### Loading -/

theorem freeStack_spec {stack : Option (Block EditorState)} {top : Int} {h : History}
    (hs : HoldStack stack top h) :
    Meets (freeStack stack top) w (fun _ w' => w'.refusals = w.refusals) := by
  have hclear := undoStackClear_spec (w := w) hs
  obtain ⟨id, sts, rest, rfl, -⟩ := hs
  refine Meets.bind hclear ?_
  rintro ⟨stack, top⟩ w1 ⟨hw1, -⟩
  exact Meets.seq (Meets.release fun w2 hw2 => Meets.pure (hw2.trans hw1))

/-- The stack can be freed. -/
def FreeableStack (stack : Option (Block EditorState)) (top : Int) : Prop :=
  ∀ w, Meets (freeStack stack top) w (fun _ w' => w'.refusals = w.refusals)

theorem editorFree_of (hlines : Freeable ed) (hundo : FreeableStack ed.undoStack ed.undoTop)
    (hredo : FreeableStack ed.redoStack ed.redoTop) :
    Meets (editorFree ed) w (fun _ w' => w'.refusals = w.refusals) := by
  refine Meets.bind (hlines w) fun _ w1 hw1 => Meets.seq (Meets.release fun w2 hw2 => ?_)
  refine Meets.bind (hundo w2) fun _ w3 hw3 => Meets.bind (hredo w3) fun _ w4 hw4 => Meets.pure ?_
  rw [hw4, hw3, hw2, hw1]

/-- **`editor_free`** -/
theorem editorFree_spec {s : Session} (h : ed.Holds s) :
    Meets (editorFree ed) w (fun _ w' => w'.refusals = w.refusals) := by
  have hlines : HoldLines ed.lines ed.numLines s.view.caret.lines := h.state.lines
  exact editorFree_of hlines.freeable (fun _ => freeStack_spec h.undo) fun _ =>
    freeStack_spec h.redo

theorem myStrdup_spec (s : Bytes) :
    Leads (myStrdup s) w (fun _ w' => w.refusals ≤ w'.refusals) := by
  unfold myStrdup kmalloc
  refine Leads.bind (Leads.of_meets (Meets.request (fun _ w1 _ _ hw1 => ge_of_eq hw1) fun w1 hw1 =>
    by omega)) fun copy w1 (hw1 : w.refusals ≤ w1.refusals) => ?_
  cases copy with
  | none => exact Leads.pure hw1
  | some copy => exact Leads.lift fun _ _ => Leads.pure hw1

/-- The session after a file with the given lines has been loaded. -/
def Session.opened (t : Text) (below : List Text) : Session :=
  ⟨.scrolled ⟨[], [], t, below⟩ 0 0, false, .empty, .empty⟩

/-- **`editor_load`** starts a new session with the text of the file, or leaves the old one. -/
theorem editorLoad_spec {s : Session} (h : ed.Holds s) (unset : Editor) (fs : Fs) (path : Bytes) :
    Leads (editorLoad ed unset fs path) w (fun r w' => (r.1 = false → r.2 = ed) ∧
      (r.1 = true → w'.refusals = w.refusals → ∃ t below, r.2.Holds (.opened t below))) := by
  unfold editorLoad
  refine Leads.bind (fsReadFile_spec fs path) fun file w1 hfile => ?_
  cases file with
  | none => exact Leads.pure ⟨fun _ => rfl, fun hf => absurd hf (by simp)⟩
  | some file =>
    obtain ⟨buf, len⟩ := file
    obtain ⟨hw1, hsize, hbuf⟩ := hfile buf len rfl
    refine Leads.bind (Leads.of_meets (editorInit_spec unset w1)) fun newEd w2 ⟨hw2, hinit⟩ => ?_
    refine Leads.lift fun ends hends => ?_
    obtain ⟨bytes, hcells, rfl⟩ | ⟨hpos, hget⟩ := hbuf
    · have hparse := editorParseBuffer_spec (w := w2) newEd hcells hsize ends
      refine Leads.bind (Leads.of_meets hparse) ?_
      rintro ⟨ok, newEd'⟩ w3 ⟨ho, -, lines, n, nl, hed, hok⟩
      refine Leads.bind (Leads.of_meets (Meets.release (Q := fun _ w' => w'.refusals = w3.refusals)
        fun _ hw => hw)) fun _ w4 hw4 => ?_
      cases ok with
      | false =>
        exact Leads.bind Leads.any fun _ _ _ =>
          Leads.pure ⟨fun _ => rfl, fun hf => absurd hf (by simp)⟩
      | true =>
        refine Leads.bind (Leads.of_meets (editorFree_spec h)) fun _ w5 hw5 => ?_
        refine Leads.bind (myStrdup_spec path) fun _ w6 hw6 => Leads.pure ?_
        refine ⟨fun hf => absurd hf (by simp), fun _ hw => ?_⟩
        obtain ⟨-, hw3⟩ | ⟨hf, -⟩ := ho
        · obtain rfl : newEd' = _ := hed
          obtain ⟨hlines, -⟩ := hok rfl
          have hstart := hinit (by omega)
          obtain ⟨t, below, hts⟩ := List.exists_cons_of_ne_nil (fileLines_ne_nil bytes)
          rw [hts] at hlines
          exact ⟨t, below,
            ⟨hlines, hstart.state.cursorX, hstart.state.cursorY, hstart.state.scrollX,
            hstart.state.scrollY⟩, rfl, hstart.undo, hstart.redo⟩
        · exact absurd hf (by simp)
    · -- a buffer that was not filled is not read any further
      unfold endsWithNewline at hends
      rw [if_pos hpos, hget] at hends
      cases hends

def Editor.saved (ed : Editor) : Editor := { ed with modified := false }

/-- **`editor_save`** clears `modified`, or changes nothing. -/
theorem editorSave_spec (fs : Fs) (answer data : Option Nat) :
    Leads (editorSave ed fs answer data) w (fun r _ =>
      r.2.1 = if r.1 then ed.saved else ed) := by
  have hfail : ∀ {w1 : World}, Leads (pure (false, ed, fs)) w1 (fun (r : Bool × Editor × Fs) _ =>
      r.2.1 = if r.1 then ed.saved else ed) := Leads.pure rfl
  unfold editorSave
  cases hname : ed.filename with
  | none => exact hfail
  | some filename =>
    refine Leads.lift fun total _ => Leads.bind Leads.any fun buf w1 _ => ?_
    cases buf with
    | none => exact hfail
    | some buf =>
      refine Leads.lift fun r _ => Leads.lift fun path _ => Leads.lift fun text _ => ?_
      refine Leads.lift fun r' _ => Leads.bind Leads.any fun _ w2 _ => ?_
      exact Leads.ite (fun _ => Leads.pure (by simp [Editor.saved, hname])) fun _ => Leads.pure rfl

end

/-! ### Runs -/

/-- What is done with an editor: it is operated, it opens a file or it is saved. -/
inductive Action
  | op (op : Op)
  | load (unset : Editor) (fs : Fs) (path : Bytes)
  | save (fs : Fs) (answer data : Option Nat)

/-- All runs in which no request is refused by `editor_init` and `editor_load`. -/
def documents : System (Editor × World) Action where
  init := system.init
  step p a p' :=
    match a with
    | .op op => exec p.1 op p.2 = some p'
    | .load unset fs path => p'.2.refusals = p.2.refusals ∧
        ∃ ok, editorLoad p.1 unset fs path p.2 = some ((ok, p'.1), p'.2)
    | .save fs answer data =>
      ∃ ok fs', editorSave p.1 fs answer data p.2 = some ((ok, p'.1, fs'), p'.2)

theorem documents_holds {p : Editor × World} (h : documents.Reach p) : ∃ s, p.1.Holds s := by
  refine System.Reach.induct (S := documents) (P := fun p => ∃ s, p.1.Holds s)
    (fun p hp => reach_holds (System.Reach.init hp)) (fun p a p' hp hstep => ?_) h
  obtain ⟨s, hs⟩ := hp
  cases a with
  | op op =>
    obtain ⟨snap, room, hs'⟩ := Leads.of_meets (exec_spec (w := p.2) hs op) p'.1 p'.2 hstep
    exact ⟨_, hs'⟩
  | load unset fs path =>
    obtain ⟨hw, ok, hr⟩ := hstep
    obtain ⟨hfail, hok⟩ := editorLoad_spec hs unset fs path _ _ hr
    cases ok with
    | false =>
      rw [show p'.1 = p.1 from hfail rfl]
      exact ⟨s, hs⟩
    | true =>
      obtain ⟨t, below, hs'⟩ := hok rfl hw
      exact ⟨_, hs'⟩
  | save fs answer data =>
    obtain ⟨ok, fs', hr⟩ := hstep
    have hed : p'.1 = if ok then p.1.saved else p.1 :=
      editorSave_spec fs answer data _ _ hr
    rw [hed]
    cases ok with
    | false => exact ⟨s, hs⟩
    | true => exact ⟨{ s with modified := false }, hs.state, rfl, hs.undo, hs.redo⟩

end CobraOS.Snake
