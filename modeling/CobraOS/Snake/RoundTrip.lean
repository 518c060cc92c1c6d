import CobraOS.Ramfs.Target
import CobraOS.Snake.Unsaved

/-!
# What is loaded is what is saved

`editor_parse_buffer` splits a file at its newlines, and `editor_save` joins the lines with
newlines.  A last newline is kept in `file_ends_with_newline`.  A successful save leaves in the file
exactly the document of the editor (`editorSave_writes`), and for a file without `'\r'` that
document is the file, so a load and a save change nothing (`save_loaded`).
-/

namespace CobraOS.Snake

open Base
open Ramfs (Fs Bytes)

/-- The text of the file: the lines with newlines between them, and one more where there was one. -/
def Document.text (d : Document) : Text :=
  [newlineChar].intercalate d.lines ++ if d.endsWithNewline then [newlineChar] else []

/-! ### Splitting -/

section

variable {bytes : Text} {stop : Nat}

/-- What `editor_parse_buffer` keeps of a piece of the file between newlines. -/
def cutLine (bytes piece : Text) : Text := piece.take (lengthOf bytes 0 piece.length)

theorem cutLine_eq (h : carriageReturn ∉ bytes) (piece : Text) : cutLine bytes piece = piece := by
  have hlen : lengthOf bytes 0 piece.length = piece.length := by
    unfold lengthOf
    rw [if_neg fun he => h (List.mem_of_getElem? he), Nat.sub_zero]
  rw [cutLine, hlen, List.take_length]

/-- The line from `start` on, which is cut by its length alone. -/
theorem drop_take_line {pre cur rest : Text} (htake : bytes.take stop = pre ++ (cur ++ rest)) :
    (bytes.drop pre.length).take (lengthOf bytes pre.length (pre.length + cur.length)) =
      cutLine bytes cur := by
  have hlen : lengthOf bytes pre.length (pre.length + cur.length) =
      lengthOf bytes 0 cur.length := by
    unfold lengthOf
    rw [Nat.add_sub_cancel_left, Nat.sub_zero]
  have hle : lengthOf bytes 0 cur.length ≤ cur.length := lengthOf_le bytes 0 cur.length
  have hsplit : bytes = pre ++ (cur ++ (rest ++ bytes.drop stop)) := by
    rw [← List.append_assoc cur, ← List.append_assoc pre, ← htake, List.take_append_drop]
  have hdrop : bytes.drop pre.length = cur ++ (rest ++ bytes.drop stop) := by
    conv_lhs => rw [hsplit]
    exact List.drop_left
  rw [hlen, hdrop, cutLine, List.take_append_of_le_length hle]

/-- The loop at a place in the file: the line that it is in has the characters `cur`, and `rest` is
still to be read. -/
theorem linesFrom_eq (hstop : stop ≤ bytes.length) :
    ∀ (rest pre cur : Text), bytes.take stop = pre ++ (cur ++ rest) → newlineChar ∉ cur →
      linesFrom bytes stop (rest.length + 1) (pre.length + cur.length) pre.length =
        ((cur ++ rest).splitOn newlineChar).map (cutLine bytes) := by
  intro rest
  induction rest with
  | nil =>
    intro pre cur htake hcur
    have hlen := congrArg List.length htake
    simp only [List.length_append, List.length_nil, List.length_take, Nat.add_zero] at hlen
    rw [linesFrom, if_pos (Or.inl (by omega)), drop_take_line htake, List.append_nil,
      List.splitOn_eq_singleton hcur]
    rfl
  | cons c rest ih =>
    intro pre cur htake hcur
    have hlen := congrArg List.length htake
    simp only [List.length_append, List.length_cons, List.length_take] at hlen
    have hc : bytes[pre.length + cur.length]? = some c := by
      rw [← List.take_append_drop stop bytes, htake]
      simp
    rw [linesFrom, List.length_cons, hc]
    by_cases hnl : c = newlineChar
    · have hrest := ih (pre ++ cur ++ [c]) [] (by rw [htake]; simp) (by simp)
      simp only [List.length_append, List.length_singleton, List.length_nil, Nat.add_zero,
        List.nil_append] at hrest
      rw [if_pos (Or.inr (congrArg some hnl)), drop_take_line htake, hrest, hnl,
        List.splitOn_append_cons_self_of_not_mem hcur, List.map_cons]
    · have hrest := ih pre (cur ++ [c]) (by rw [htake]; simp) (by
        simp only [List.mem_append, List.mem_singleton, not_or]
        exact ⟨hcur, fun he => hnl he.symm⟩)
      rw [List.length_append, List.length_singleton, ← Nat.add_assoc] at hrest
      have hne : ¬ (pre.length + cur.length = stop ∨ some c = some newlineChar) := by
        rintro (he | he)
        · omega
        · exact hnl (Option.some.inj he)
      rw [if_neg hne, hrest, List.append_assoc, List.singleton_append]

theorem stopOf_le (bytes : Text) : stopOf bytes ≤ bytes.length := by
  unfold stopOf
  split <;> omega

/-- **The lines are the pieces between newlines**, each of them cut. -/
theorem fileLines_eq (bytes : Text) :
    fileLines bytes = ((bytes.take (stopOf bytes)).splitOn newlineChar).map (cutLine bytes) := by
  have hle := stopOf_le bytes
  have hlines := linesFrom_eq hle (bytes.take (stopOf bytes)) [] [] (by simp) (by simp)
  rwa [List.length_take, Nat.min_eq_left hle, List.nil_append] at hlines

/-- **A file without `'\r'` is the text of its lines.** -/
theorem fileLines_text (h : carriageReturn ∉ bytes) :
    Document.text ⟨fileLines bytes, decide (bytes.getLast? = some newlineChar)⟩ = bytes := by
  have hsplit : fileLines bytes = (bytes.take (stopOf bytes)).splitOn newlineChar := by
    rw [fileLines_eq, List.map_congr_left fun piece _ => cutLine_eq h piece, List.map_id']
  unfold Document.text
  rw [hsplit, List.intercalate_splitOn]
  unfold stopOf
  by_cases hnl : bytes.getLast? = some newlineChar
  · rw [if_pos hnl, ← List.dropLast_eq_take, decide_eq_true hnl]
    obtain ⟨ys, rfl⟩ := List.getLast?_eq_some_iff.mp hnl
    simp
  · rw [if_neg hnl, decide_eq_false hnl]
    simp

end

/-! ### Joining -/

/-- A buffer that begins with `out`, after `s` has been put behind it, and how much it holds
then. -/
def put (id : Nat) (out : Text) (junk : List (Option UInt8)) (s : Text) :
    Option (Block UInt8 × Nat) :=
  if s.length ≤ junk.length then
    some (⟨id, (out ++ s).map some ++ junk.drop s.length⟩, (out ++ s).length)
  else none

theorem mapM_written (s : Bytes) : (s.map some).mapM id = some s := by
  induction s with
  | nil => rfl
  | cons c s ih => rw [List.map_cons, List.mapM_cons, ih]; rfl

theorem bytesOf_eq (k : Nat) (s : Text) (rest : List (Option UInt8)) :
    bytesOf ⟨k, s.map some ++ rest⟩ s.length = some s := by
  unfold bytesOf
  rw [if_pos (by simp), List.take_left' (List.length_map ..), mapM_written]

section

variable {id : Nat} {out s s' : Text} {junk rest : List (Option UInt8)}

/-- **Two puts are one.** -/
theorem put_bind {f : Block UInt8 × Nat → Option (Block UInt8 × Nat)}
    (h : s.length ≤ junk.length →
      f (⟨id, (out ++ s).map some ++ junk.drop s.length⟩, (out ++ s).length) =
      put id (out ++ s) (junk.drop s.length) s') :
    (put id out junk s).bind f = put id out junk (s ++ s') := by
  have hlen : (s ++ s').length = s.length + s'.length := List.length_append ..
  unfold put at *
  by_cases hs : s.length ≤ junk.length
  · rw [if_pos hs, Option.bind_some, h hs, List.length_drop, List.drop_drop,
      List.append_assoc, hlen]
    by_cases hs' : s'.length ≤ junk.length - s.length
    · rw [if_pos hs', if_pos (by omega)]
    · rw [if_neg hs', if_neg (by omega)]
  · rw [if_neg hs, if_neg (by omega)]
    rfl

theorem copy_put {src : Block UInt8} (hsrc : src.cells = s.map some ++ rest) :
    (⟨id, out.map some ++ junk⟩ : Block UInt8).copy out.length src 0 s.length =
      (put id out junk s).map Prod.fst := by
  unfold Block.copy put
  have hlen : (out.map some).length = out.length := List.length_map ..
  have htake : (s.map some ++ rest).take s.length = s.map some :=
    List.take_left' (List.length_map ..)
  simp only [hsrc, List.length_append, hlen, List.length_map, List.drop_zero, htake]
  by_cases h : s.length ≤ junk.length
  · rw [if_pos ⟨by omega, by omega⟩, if_pos h, List.take_left' hlen, ← List.drop_drop,
      List.drop_left' hlen]
    simp
  · rw [if_neg (by omega), if_neg h]
    rfl

theorem set_put (c : UInt8) : (⟨id, out.map some ++ junk⟩ : Block UInt8).set out.length c =
    (put id out junk [c]).map Prod.fst := by
  unfold Block.set put
  simp only [List.length_append, List.length_map, List.length_singleton]
  cases junk with
  | nil => simp
  | cons x junk => simp

theorem put_nil : put id out junk [] = some (⟨id, out.map some ++ junk⟩, out.length) := by
  unfold put
  simp

/-- The newline after line `i`, if there is one. -/
def newlineAfter (ed : Editor) (i : Nat) : Text :=
  if i < wsub ed.numLines 1 ∨ ed.fileEndsWithNewline then [newlineChar] else []

theorem writeNewline_put (ed : Editor) (i : Nat) :
    writeNewline ed i out.length ⟨id, out.map some ++ junk⟩ =
      put id out junk (newlineAfter ed i) := by
  unfold writeNewline newlineAfter
  split
  · rw [set_put]
    unfold put
    split
    · simp
    · rfl
  · rw [put_nil]

/-- The text of the lines from `i` on. -/
def joinFrom (ed : Editor) : Nat → List Text → Text
  | _, [] => []
  | i, t :: ts => t ++ (newlineAfter ed i ++ joinFrom ed (i + 1) ts)

theorem writeLines_round {ed : Editor} {lines : Block Line} {line : Line} {data buf : Block UInt8}
    {n i pos : Nat} (hget : lines.get i = some line) (hdata : line.data = some data) :
    writeLines ed lines (n + 1) i pos buf = (do
      let buf ← buf.copy pos data 0 line.len
      let (buf, pos) ← writeNewline ed i (pos + line.len) buf
      writeLines ed lines n (i + 1) pos buf) := by
  rw [writeLines, hget, Option.bind_eq_bind, Option.bind_some, hdata, Option.bind_eq_bind,
    Option.bind_some]

/-- **The loop that fills the buffer**, as one put. -/
theorem writeLines_put {ed : Editor} {lines : Block Line} : ∀ {ls : List Line} {ts : List Text},
    List.Forall₂ Line.Holds ls ts → ∀ (pre : List (Option Line)) {rest : List (Option Line)}
      (out : Text) (junk : List (Option UInt8)), lines.cells = pre ++ (ls.map some ++ rest) →
    writeLines ed lines ls.length pre.length out.length ⟨id, out.map some ++ junk⟩ =
      put id out junk (joinFrom ed pre.length ts) := by
  intro ls ts hf
  induction hf with
  | nil =>
    intro pre rest out junk _
    exact put_nil.symm
  | @cons l t ls ts hl _ ih =>
    intro pre rest out junk hcells
    obtain ⟨id', rest', hdata, -⟩ := hl.data
    have hcells' := hcells
    rw [List.map_cons, List.cons_append, ← List.singleton_append, ← List.append_assoc] at hcells'
    have hcopy : (⟨id, out.map some ++ junk⟩ : Block UInt8).copy out.length
        ⟨id', t.map some ++ some 0 :: rest'⟩ 0 t.length = (put id out junk t).map Prod.fst :=
          copy_put rfl
    rw [List.length_cons, writeLines_round (Block.get_mid hcells rfl) hdata, joinFrom, hl.len,
      hcopy, Option.bind_eq_bind, Option.bind_map]
    refine put_bind fun _ => ?_
    have hpos : out.length + t.length = (out ++ t).length := (List.length_append ..).symm
    rw [Function.comp_apply, hpos, writeNewline_put, Option.bind_eq_bind]
    refine put_bind fun _ => ?_
    have hrest := ih _ (out ++ t ++ newlineAfter ed pre.length)
      ((junk.drop t.length).drop (newlineAfter ed pre.length).length) hcells'
    rw [List.length_append, List.length_singleton] at hrest
    exact hrest

/-- **The lines are joined** to the text of the document. -/
theorem joinFrom_eq {ed : Editor} (hlt : ed.numLines < 4294967296) : ∀ {ts : List Text}
    {i : Nat}, ts ≠ [] →
    i + ts.length = ed.numLines →
      joinFrom ed i ts = Document.text ⟨ts, ed.fileEndsWithNewline⟩ := by
  intro ts
  induction ts with
  | nil => exact fun h => absurd rfl h
  | cons t ts ih =>
    intro i _ hi
    rw [List.length_cons] at hi
    have hwsub : wsub ed.numLines 1 = ed.numLines - 1 := wsub_of_le (by omega) hlt
    rw [joinFrom, newlineAfter, Document.text]
    cases ts with
    | nil =>
      have hlast : ¬ i < wsub ed.numLines 1 := by
        rw [List.length_nil] at hi
        omega
      simp [joinFrom, hlast]
    | cons t' ts =>
      have hmore : i < wsub ed.numLines 1 := by
        rw [List.length_cons] at hi
        omega
      have hrest := ih (i := i + 1) (List.cons_ne_nil _ _) (by omega)
      rw [if_pos (Or.inl hmore), hrest, Document.text, List.intercalate_cons_cons]
      simp

theorem document_eq {ed : Editor} {ts : List Text} (h : HoldLines ed.lines ed.numLines ts) :
    ed.document = ⟨ts, ed.fileEndsWithNewline⟩ := by
  unfold Editor.document
  rw [h.texts]

theorem textInto_put {ed : Editor} {ts : List Text} (h : HoldLines ed.lines ed.numLines ts)
    (hne : ts ≠ []) :
    textInto ed ⟨id, junk⟩ = put id [] junk ed.document.text := by
  obtain ⟨hn, hlt⟩ := h.count_lt
  rw [document_eq h, ← joinFrom_eq (show ed.numLines < 4294967296 by omega) hne
    (show 0 + ts.length = ed.numLines by omega)]
  obtain ⟨id', ls, rest, hlines, hf, -, -⟩ := h
  have hput : writeLines ed ⟨id', ls.map some ++ rest⟩ ls.length 0 0 ⟨id, junk⟩ =
      put id [] junk (joinFrom ed 0 ts) := writeLines_put hf [] [] junk rfl
  rw [hf.length_eq, ← hn] at hput
  unfold textInto
  rw [hlines]
  exact hput

theorem fileText_eq {ed : Editor} {ts : List Text} (h : HoldLines ed.lines ed.numLines ts)
    (hne : ts ≠ []) :
    fileText ed ⟨id, junk⟩ =
      if ed.document.text.length + 1 ≤ junk.length then
        some (⟨id, ed.document.text.map some ++ some 0 :: junk.drop (ed.document.text.length + 1)⟩,
          ed.document.text.length)
      else none := by
  unfold fileText
  rw [textInto_put h hne]
  generalize ed.document.text = s
  have hset : (⟨id, s.map some ++ junk.drop s.length⟩ : Block UInt8).set s.length 0 =
      (put id s (junk.drop s.length) [0]).map Prod.fst := set_put 0
  unfold put at hset ⊢
  rw [List.length_drop, List.drop_drop] at hset
  by_cases hs : s.length ≤ junk.length
  · rw [if_pos hs]
    simp only [List.nil_append, Option.bind_eq_bind, Option.bind_some, hset, List.length_singleton]
    by_cases hroom : s.length + 1 ≤ junk.length
    · rw [if_pos hroom, if_pos (by omega)]
      simp
    · rw [if_neg hroom, if_neg (by omega)]
      rfl
  · rw [if_neg hs, if_neg (by omega)]
    rfl

theorem text_length (e : Bool) : ∀ {ts : List Text}, ts ≠ [] →
    (Document.text ⟨ts, e⟩).length + (if e then 0 else 1) = (ts.map (·.length + 1)).sum := by
  intro ts
  induction ts with
  | nil => exact fun h => absurd rfl h
  | cons t ts ih =>
    intro _
    cases ts with
    | nil => cases e <;> simp [Document.text]
    | cons t' ts =>
      have hrest := ih (List.cons_ne_nil _ _)
      rw [List.map_cons, List.sum_cons, ← hrest]
      simp only [Document.text, List.intercalate_cons_cons, List.length_append,
        List.length_singleton]
      omega

theorem totalLength_eq {lines : Block Line} : ∀ {ls : List Line} {ts : List Text},
    List.Forall₂ Line.Holds ls ts → ∀ (pre : List (Option Line)) {rest : List (Option Line)}
      (total : Nat),
    lines.cells = pre ++ (ls.map some ++ rest) → total + (ts.map (·.length + 1)).sum < 4294967296 →
    totalLength lines ls.length pre.length total = some (total + (ts.map (·.length + 1)).sum) := by
  intro ls ts hf
  induction hf with
  | nil => exact fun _ _ _ _ _ => rfl
  | @cons l t ls ts hl _ ih =>
    intro pre rest total hcells hlt
    have hcells' := hcells
    rw [List.map_cons, List.cons_append, ← List.singleton_append, ← List.append_assoc] at hcells'
    rw [List.map_cons, List.sum_cons] at hlt ⊢
    have hrest := ih _ (total + t.length + 1) hcells' (by omega)
    rw [List.length_append, List.length_singleton] at hrest
    rw [List.length_cons, totalLength, Block.get_mid hcells rfl, Option.bind_eq_bind,
      Option.bind_some, hl.len, Nat.mod_eq_of_lt (by omega), hrest]
    congr 1
    omega

theorem fileLength_eq {ed : Editor} {ts : List Text} (h : HoldLines ed.lines ed.numLines ts)
    (hne : ts ≠ []) (hlt : ed.document.text.length + 1 < 4294967296) :
    fileLength ed = some ed.document.text.length := by
  have hsum := text_length ed.fileEndsWithNewline hne
  rw [document_eq h] at hlt ⊢
  obtain ⟨id', ls, rest, hlines, hf, hn, -⟩ := h
  have hbound : 0 + (ts.map (·.length + 1)).sum < 4294967296 := by
    rw [← hsum]
    split <;> omega
  have htotal : totalLength ⟨id', ls.map some ++ rest⟩ ls.length 0 0 =
      some (0 + (ts.map (·.length + 1)).sum) := totalLength_eq hf [] 0 rfl hbound
  rw [hf.length_eq, ← hn, Nat.zero_add] at htotal
  unfold fileLength textLength
  rw [hlines]
  simp only [htotal, Option.bind_eq_bind, Option.bind_some]
  rw [← hsum]
  cases he : ed.fileEndsWithNewline with
  | true => simp
  | false =>
    rw [he] at hlt
    simpa using wsub_of_le (Nat.le_add_left 1 (Document.text ⟨ts, false⟩).length) hlt

end

/-! ### Saving -/

theorem stringOf_eq (k : Nat) {s : Bytes} (h : 0 ∉ s) :
    stringOf ⟨k, s.map some ++ [some 0]⟩ = some s := by
  have htake : (s.map some ++ [some 0]).takeWhile (· != some 0) = s.map some := by
    rw [List.takeWhile_append_of_pos]
    · simp
    · intro c hc
      obtain ⟨b, hb, rfl⟩ := List.mem_map.mp hc
      have hne : b ≠ 0 := fun he => h (he ▸ hb)
      simpa using hne
  unfold stringOf
  rw [if_pos (by simp), htake, mapM_written]

/-- The document is what is in the file that `fs_write_file` finds or creates. -/
def Saves (ed : Editor) (fs fs' : Fs) (answer : Option Nat) : Prop :=
  ∃ filename path, ed.filename = some filename ∧ stringOf filename = some path ∧
    Ramfs.WritesFile fs fs' path ed.document.text answer

section

variable {w : World} {ed : Editor} {fs : Fs} {r : Nat} {ts : List Text}

theorem kmalloc_unwritten {α : Type} (item size : Nat) :
    Leads (kmalloc (α := α) item size) w (fun b _ =>
    ∀ b', b = some b' → ∃ k n, b' = ⟨k, List.replicate n none⟩) := by
  refine Leads.of_meets (Meets.request (fun k w1 _ _ _ b' hb => ?_) fun w1 _ b' hb => ?_)
  · exact ⟨k, _, (Option.some.inj hb).symm⟩
  · cases hb

/-- **A successful `editor_save`** leaves the document in the file. -/
theorem editorSave_writes (h : HoldLines ed.lines ed.numLines ts) (hne : ts ≠ [])
    (hfs : Ramfs.Rooted fs r) (answer data : Option Nat) :
    Leads (editorSave ed fs answer data) w (fun x _ =>
      x.1 = true → Saves ed fs x.2.2 answer) := by
  have hfail : ∀ {w1 : World}, Leads (pure (false, ed, fs)) w1 (fun (x : Bool × Editor × Fs) _ =>
      x.1 = true → Saves ed fs x.2.2 answer) := Leads.pure fun hf => absurd hf (by simp)
  unfold editorSave
  cases hname : ed.filename with
  | none => exact hfail
  | some filename =>
    refine Leads.lift fun total _ => Leads.bind (kmalloc_unwritten _ _) fun buf w1 hbuf => ?_
    cases buf with
    | none => exact hfail
    | some buf =>
      obtain ⟨k, n, rfl⟩ := hbuf buf rfl
      refine Leads.lift fun x htext => Leads.lift fun path hpath => ?_
      rw [fileText_eq h hne] at htext
      split at htext
      · obtain rfl := Option.some.inj htext
        refine Leads.lift fun text hbytes => Leads.lift fun y hwrite => ?_
        obtain rfl : ed.document.text = text := by
          have hrest := bytesOf_eq k ed.document.text
            (some 0 :: (List.replicate n none).drop (ed.document.text.length + 1))
          exact Option.some.inj (hrest.symm.trans hbytes)
        obtain ⟨ret, fs'⟩ := y
        refine Leads.bind Leads.any fun _ w2 _ => Leads.ite (fun hret => ?_) fun _ => ?_
        · obtain ⟨y, hy, -, hzero⟩ := Ramfs.fsWriteFile_spec hfs path ed.document.text answer data
          obtain rfl := Option.some.inj (hwrite.symm.trans hy)
          exact Leads.pure fun _ => ⟨filename, path, hname, hpath, hzero hret⟩
        · exact Leads.pure fun hf => absurd hf (by simp)
      · cases htext

/-- The path leads to the file `node`, which has the bytes `c`. -/
structure FileAt (fs : Fs) (path : Bytes) (node : Nat) (c : Bytes) : Prop where
  resolved : ∃ printed, Ramfs.ramfsResolve fs path = some (printed, some node)
  file : Ramfs.Flagged Ramfs.fsFile fs node
  bytes : Ramfs.dataOf fs node = c

/-- The heap grants `size` bytes for the data of the file, after it has taken back the old data. -/
def Granted (fs : Fs) (node size : Nat) (data : Option Nat) : Prop :=
  ∃ n fs₁, fs.nodes node = some n ∧ fs.freeData n.data = some fs₁ ∧ (fs₁.granted size data).isSome

/-- **`fs_write_file`** on a file that is there. -/
theorem fsWriteFile_at {path buf c : Bytes} {node : Nat} (hfs : Ramfs.Rooted fs r)
    (hfile : FileAt fs path node c) (answer : Option Nat) {data : Option Nat}
    (hdata : buf ≠ [] → Granted fs node buf.length data) :
    ∃ fs', Ramfs.fsWriteFile fs path buf answer data = some (0, fs') ∧
      Ramfs.Written fs fs' node buf := by
  obtain ⟨printed, hres⟩ := hfile.resolved
  have hwhere : Ramfs.fileToWrite fs path answer = some (some node, fs) := by
    unfold Ramfs.fileToWrite
    rw [hres]
    rfl
  obtain ⟨n, hn⟩ := Ramfs.live_iff.mp hfile.file.live
  obtain ⟨kids, ht⟩ := hfs.tree
  obtain ⟨ret, fs', hwrite, hcase⟩ := Ramfs.fsWriteFile_at_node buf data ht.owned hwhere hn
  obtain ⟨hflag, -⟩ | ⟨-, -, rfl, hw⟩ | ⟨-, hbuf, hrefused, -⟩ := hcase
  · rw [(Ramfs.flagged_iff hn).mp hfile.file] at hflag
    cases hflag
  · exact ⟨fs', hwrite, hw⟩
  · obtain ⟨n', fs₁, hn', hfree, hgrant⟩ := hdata hbuf
    obtain rfl := Option.some.inj (hn.symm.trans hn')
    rw [Ramfs.freeData_spec ht.owned hn] at hfree
    rw [Ramfs.granted_cleared hn, Option.some.inj hfree] at hrefused
    rw [hrefused] at hgrant
    cases hgrant

/-- **`editor_save` over the file that was loaded.** -/
theorem editorSave_at {path c : Bytes} {node k : Nat} (h : HoldLines ed.lines ed.numLines ts)
    (hne : ts ≠ []) (hname : ed.filename = some ⟨k, path.map some ++ [some 0]⟩) (hpath : 0 ∉ path)
    (hfs : Ramfs.Rooted fs r) (hfile : FileAt fs path node c)
    (hsize : ed.document.text.length < maxRequest) (answer data : Option Nat)
    (hdata : ed.document.text ≠ [] → Granted fs node ed.document.text.length data) :
    Meets (editorSave ed fs answer data) w (fun x w' => w.refusals ≤ w'.refusals ∧
      (w'.refusals = w.refusals → x.1 = true ∧ Ramfs.Written fs x.2.2 node ed.document.text)) := by
  obtain ⟨fs', hwrite, hw⟩ := fsWriteFile_at hfs hfile answer hdata
  have hlt : ed.document.text.length + 1 < 4294967296 := by
    unfold maxRequest at hsize
    omega
  unfold editorSave
  rw [hname]
  refine Meets.lift (fileLength_eq h hne hlt) ?_
  unfold kmalloc
  rw [Nat.mod_eq_of_lt hlt]
  refine Meets.seq (Meets.request (fun id w1 _ _ hw1 => ?_) fun w1 hw1 =>
    Meets.pure ⟨by omega, fun hf => absurd hf (by omega)⟩)
  have htext : fileText ed ⟨id, List.replicate (ed.document.text.length + 1) none⟩ = _ :=
    fileText_eq h hne
  rw [List.length_replicate, if_pos le_rfl] at htext
  rw [Nat.div_one]
  refine Meets.lift htext (Meets.lift (stringOf_eq k hpath) (Meets.lift (bytesOf_eq id _ _) ?_))
  refine Meets.lift hwrite (Meets.seq (Meets.release fun w2 hw2 => ?_))
  exact Meets.pure ⟨by omega, fun _ => ⟨rfl, hw⟩⟩

end

/-! ### Loading -/

section

variable {w : World} {ed newEd : Editor} {fs : Fs} {r node : Nat} {path c : Bytes}

theorem readInto_at (id : Nat) {n : Ramfs.VfsNode} (h : Ramfs.Owned (Ramfs.contents fs) fs.buffers)
    (hn : fs.nodes node = some n) (hc : Ramfs.dataOf fs node = c) :
    ∃ b, readInto fs n ⟨id, List.replicate (n.size + 1) none⟩ = some b ∧
      b.set n.size 0 = some ⟨id, c.map some ++ [some 0]⟩ := by
  have hsize : c.length = n.size := by rw [← hc, Ramfs.dataOf_length h hn]
  have hempty : n.size = 0 →
      ∃ b, some (⟨id, List.replicate (n.size + 1) none⟩ : Block UInt8) = some b ∧
      b.set n.size 0 = some ⟨id, c.map some ++ [some 0]⟩ := by
    intro h0
    obtain rfl : c = [] := List.length_eq_zero_iff.mp (hsize.trans h0)
    rw [h0]
    exact ⟨_, rfl, rfl⟩
  unfold readInto
  cases hd : n.data with
  | none => exact hempty (h.null node n.bare (Ramfs.contents_eq hn) hd)
  | some d =>
    obtain ⟨bytes, hbytes, -⟩ := h.held node n.bare d (Ramfs.contents_eq hn) hd
    obtain rfl : c = bytes := hc.symm.trans (Ramfs.dataOf_eq (Ramfs.contents_eq hn) hd hbytes)
    dsimp only
    split
    · have hlen : (c.map some).length = n.size := by rw [List.length_map, hsize]
      have hcopy := Block.copy_fresh (i := 0) id
        (show (⟨d, c.map some⟩ : Block UInt8).cells = [] ++ (c.map some ++ []) by simp) rfl hlen
      have hset := Block.set_fresh id (c.map some) (0 : UInt8) hlen
      rw [hbytes]
      exact ⟨_, hcopy, hset⟩
    · exact hempty (by omega)

/-- **`fs_read_file`** on a file that is there. -/
theorem fsReadFile_at (hfs : Ramfs.Rooted fs r) (hfile : FileAt fs path node c) :
    Meets (fsReadFile fs path) w (fun x w' =>
      (w'.refusals = w.refusals ∧ c.length < maxRequest ∧
        ∃ id, x = some (⟨id, c.map some ++ [some 0]⟩, c.length)) ∨
      x = none ∧ w.refusals < w'.refusals) := by
  obtain ⟨printed, hres⟩ := hfile.resolved
  obtain ⟨n, hn⟩ := Ramfs.live_iff.mp hfile.file.live
  have hflag := (Ramfs.flagged_iff hn).mp hfile.file
  obtain ⟨kids, ht⟩ := hfs.tree
  have hsize : n.size = c.length := by rw [← hfile.bytes, Ramfs.dataOf_length ht.owned hn]
  have hsmall : n.size ≤ 4194288 := ht.owned.small node n.bare (Ramfs.contents_eq hn)
  unfold fsReadFile
  refine Meets.lift hres (Meets.lift hn ?_)
  rw [hflag]
  unfold kmalloc
  rw [Nat.mod_eq_of_lt (by omega)]
  refine Meets.seq (Meets.request (fun id w1 _ hmax hw1 => ?_) fun w1 hw1 =>
    Meets.pure (Or.inr ⟨rfl, by omega⟩))
  rw [Nat.div_one]
  obtain ⟨b, hread, hset⟩ := readInto_at id ht.owned hn hfile.bytes
  refine Meets.lift hread (Meets.lift hset (Meets.pure (Or.inl ⟨hw1, by omega, id, ?_⟩)))
  rw [hsize]

theorem kmalloc_outcome {α : Type} (item size : Nat) :
    Meets (kmalloc (α := α) item size) w (fun b w' => Outcome w w' b.isSome) :=
  Meets.request (fun _ _ _ _ hw => Or.inl ⟨rfl, hw⟩) fun _ hw => Or.inr ⟨rfl, by omega⟩

theorem kmalloc_refused {α : Type} {item size : Nat} {w' : World}
    (h : kmalloc (α := α) item size w = some (none, w')) : w.refusals < w'.refusals := by
  obtain ⟨hf, -⟩ | ⟨-, hlt⟩ := Leads.of_meets (kmalloc_outcome item size) _ _ h
  · cases hf
  · exact hlt

theorem Outcome.le {w w' : World} {ok : Bool} (h : Outcome w w' ok) : w.refusals ≤ w'.refusals := by
  obtain ⟨-, h⟩ | ⟨-, h⟩ := h <;> omega

/-- `editor_init` leaves the stacks null when a request is refused, if they were. -/
theorem editorInit_stacks (ed : Editor) (w : World) (hu : ed.undoStack = none)
    (hr : ed.redoStack = none) :
    Leads (editorInit ed) w (fun ed' w' =>
      w'.refusals = w.refusals ∨ ed'.undoStack = none ∧ ed'.redoStack = none) := by
  unfold editorInit
  refine Leads.bind (Leads.of_meets (kmalloc_outcome _ _)) fun lines w1 hw1 => ?_
  cases lines with
  | none => exact Leads.pure (Or.inr ⟨hu, hr⟩)
  | some lines =>
    refine Leads.bind (Leads.of_meets (kmalloc_outcome _ _)) fun data w2 hw2 => ?_
    cases data with
    | none => exact Leads.bind Leads.any fun _ _ _ => Leads.pure (Or.inr ⟨hu, hr⟩)
    | some data =>
      refine Leads.lift fun _ _ => Leads.lift fun _ _ => ?_
      refine Leads.bind (Leads.of_meets (kmalloc_outcome _ _)) fun undo w3 hw3 => ?_
      refine Leads.bind (Leads.of_meets (kmalloc_outcome _ _)) fun redo w4 hw4 => ?_
      refine Leads.ite (fun _ => ?_) fun hsome => Leads.pure (Or.inl ?_)
      · exact Leads.bind Leads.any fun _ _ _ => Leads.bind Leads.any fun _ _ _ =>
          Leads.pure (Or.inr ⟨rfl, rfl⟩)
      · simp only [Option.isNone_iff_eq_none, not_or, ← Option.isSome_iff_ne_none] at hsome
        simp only [Outcome, hsome, Option.isSome_some, true_and, Bool.true_eq_false, false_and,
          or_false] at hw1 hw2 hw3 hw4
        omega

/-- `editor_init` sets everything when no request is refused, so it does not matter what was in
memory. -/
theorem editorInit_unset (u : Editor) : Leads (editorInit ed) w (fun ed' w' =>
    w'.refusals = w.refusals → editorInit u w = some (ed', w')) := by
  unfold editorInit
  refine Leads.bind_congr (C := fun w' => w'.refusals = w.refusals) fun lines w1 h1 => ?_
  cases lines with
  | none =>
    have hlt := kmalloc_refused h1
    exact Leads.pure fun hw => absurd hw (by omega)
  | some lines =>
    have hle := (Leads.of_meets (kmalloc_outcome lineSize lineSize) _ _ h1).le
    refine Leads.bind_congr fun data w2 h2 => ?_
    cases data with
    | none =>
      have hlt := kmalloc_refused h2
      refine Leads.bind (Leads.of_meets (Meets.release (Q := fun _ w' => w'.refusals = w2.refusals)
        fun _ hw => hw)) fun _ w3 hw3 => Leads.pure fun hw => absurd hw ?_
      omega
    | some data => exact fun _ _ hr _ => hr

/-- The part of `editor_load` that comes after `editor_init`. -/
def loadInto (ed newEd : Editor) (path : Bytes) (buf : Block UInt8) (len : Nat) :
    Alloc (Bool × Editor) := do
  let ends ← endsWithNewline buf len
  let (ok, newEd) ← editorParseBuffer newEd buf len ends
  kfree (some buf)
  if ok then do
    let _ ← editorFree ed
    let filename ← myStrdup path
    pure (true, { newEd with filename := filename, modified := false })
  else do
    let _ ← editorFree newEd
    pure (false, ed)

theorem editorLoad_eq (ed unset : Editor) (fs : Fs) (path : Bytes) : editorLoad ed unset fs path =
    fsReadFile fs path >>= fun file => match file with
    | none => pure (false, ed)
    | some (buf, len) => editorInit unset >>= fun newEd => loadInto ed newEd path buf len := rfl

/-- The editor has the lines of the file, and its path if there was memory for it. -/
structure Opened (ed : Editor) (path c : Bytes) : Prop where
  lines : HoldLines ed.lines ed.numLines (fileLines c)
  newline : ed.fileEndsWithNewline = decide (c.getLast? = some newlineChar)
  filename : ∀ b ∈ ed.filename, ∃ k, b = ⟨k, path.map some ++ [some 0]⟩

/-- **The document of a file without `'\r'` is the file.** -/
theorem Opened.text (h : Opened ed path c) (hcr : carriageReturn ∉ c) : ed.document.text = c := by
  rw [document_eq h.lines, h.newline]
  exact fileLines_text hcr

theorem myStrdup_at (hpath : path.length + 1 < 4294967296) : Meets (myStrdup path) w (fun b w' =>
    Outcome w w' b.isSome ∧ ∀ b' ∈ b, ∃ k, b' = ⟨k, path.map some ++ [some 0]⟩) := by
  unfold myStrdup kmalloc
  rw [Nat.mod_eq_of_lt hpath]
  refine Meets.seq (Meets.request (fun id w1 _ _ hw1 => ?_) fun w1 hw1 =>
    Meets.pure ⟨Or.inr ⟨rfl, by omega⟩, fun _ hb => by cases hb⟩)
  rw [Nat.div_one]
  have hcopy := Block.copy_mid (n := path.length + 1) (i := 0) (j := 0)
    (show (⟨id, List.replicate (path.length + 1) none⟩ : Block UInt8).cells =
      [] ++ (List.replicate (path.length + 1) none ++ []) by simp)
    (show (stringBlock path).cells =
      [] ++ ((path.map some ++ [some 0]) ++ []) by simp [stringBlock])
    rfl rfl (by simp) (List.length_replicate ..)
  refine Meets.lift hcopy (Meets.pure ⟨Or.inl ⟨rfl, hw1⟩, fun b hb => ⟨id, ?_⟩⟩)
  obtain rfl := Option.some.inj hb
  simp

theorem loadInto_spec (id : Nat) (hsize : c.length < maxRequest)
    (hed : ∀ w, Meets (editorFree ed) w (fun _ w' => w'.refusals = w.refusals))
    (hpath : path.length + 1 < 4294967296) (hundo : FreeableStack newEd.undoStack newEd.undoTop)
    (hredo : FreeableStack newEd.redoStack newEd.redoTop) :
    Meets (loadInto ed newEd path ⟨id, c.map some ++ [some 0]⟩ c.length) w (fun x w' =>
      w.refusals ≤ w'.refusals ∧ (x.1 = true → Opened x.2 path c) ∧
        (w'.refusals = w.refusals → x.1 = true ∧ x.2.filename.isSome)) := by
  unfold loadInto
  refine Meets.lift (endsWithNewline_spec rfl)
    (Meets.bind (editorParseBuffer_spec newEd rfl hsize _) ?_)
  rintro ⟨ok, newEd'⟩ w1 ⟨ho, hfree, lines, n, nl, hed, hok⟩
  refine Meets.seq (Meets.release fun w2 hw2 => ?_)
  obtain rfl : newEd' = _ := hed
  cases ok with
  | true =>
    obtain ⟨hlines, hnl⟩ := hok rfl
    refine Meets.bind (hed w2) fun _ w3 hw3 => ?_
    refine Meets.bind (myStrdup_at hpath) fun filename w4 ⟨ho4, hname⟩ => Meets.pure ?_
    have hle1 := ho.le
    have hle4 := ho4.le
    refine ⟨by omega, fun _ => ⟨hlines, hnl, hname⟩, fun hw => ⟨rfl, ?_⟩⟩
    obtain ⟨h, -⟩ | ⟨-, h⟩ := ho4
    · exact h
    · exact absurd h (by omega)
  | false =>
    refine Meets.bind (editorFree_of hfree hundo hredo) fun _ w3 hw3 => Meets.pure ?_
    obtain ⟨hf, -⟩ | ⟨-, hlt⟩ := ho
    · cases hf
    · exact ⟨by omega, fun hf => absurd hf (by simp), fun hw => absurd hw (by omega)⟩

theorem freeableStack_null (top : Int) : FreeableStack none top := fun _ => Meets.pure rfl

/-- **`editor_load`** of a file that is there.  It returns whatever is refused when the memory of
`new_ed` was clear, and that does not matter when nothing is refused. -/
theorem editorLoad_at {s : Session} (hs : ed.Holds s) (hfs : Ramfs.Rooted fs r)
    (hfile : FileAt fs path node c) (hpath : path.length + 1 < 4294967296) :
    Meets (editorLoad ed unset fs path) w (fun x w' => w.refusals ≤ w'.refusals ∧
      (x.1 = true → Opened x.2 path c ∧ c.length < maxRequest) ∧ (w'.refusals = w.refusals →
        (∀ u, editorLoad ed u fs path w = some (x, w')) ∧ x.1 = true ∧ x.2.filename.isSome)) := by
  obtain ⟨file, w1, h1, hread⟩ := fsReadFile_at (w := w) hfs hfile
  obtain ⟨hw1, hsize, id, rfl⟩ | ⟨rfl, hlt⟩ := hread
  · obtain ⟨newEd, w2, h2, ⟨hw2, hinit⟩, hnull⟩ :=
      (editorInit_stacks unset w1 rfl rfl).meets (editorInit_spec unset w1)
    have hstacks : FreeableStack newEd.undoStack newEd.undoTop ∧
        FreeableStack newEd.redoStack newEd.redoTop := by
      obtain hw | ⟨hu, hr⟩ := hnull
      · have hstart := hinit hw
        exact ⟨fun _ => freeStack_spec hstart.undo, fun _ => freeStack_spec hstart.redo⟩
      · rw [hu, hr]
        exact ⟨freeableStack_null _, freeableStack_null _⟩
    obtain ⟨x, w3, h3, hw3, hopened, hnone⟩ :=
      loadInto_spec (w := w2) id hsize (fun _ => editorFree_spec hs) hpath hstacks.1 hstacks.2
    have hrun : ∀ u, editorInit u w1 = some (newEd, w2) →
        editorLoad ed u fs path w = some (x, w3) := by
      intro u hu
      rw [editorLoad_eq]
      simp only [Bind.bind, StateT.bind, h1, hu, h3, Option.bind_some]
    refine ⟨x, w3, hrun _ h2, by omega, fun hok => ⟨hopened hok, hsize⟩,
      fun hw => ⟨fun u => ?_, hnone (by omega)⟩⟩
    exact hrun u (editorInit_unset u _ _ h2 (by omega))
  · refine ⟨(false, ed), w1, ?_, by omega, fun hf => absurd hf (by simp),
      fun hw => absurd hw (by omega)⟩
    rw [editorLoad_eq]
    simp only [Bind.bind, StateT.bind, h1, Option.bind_some]
    rfl

end

/-! ### Both -/

/-- `editor_load`, and `editor_save` when it succeeds. -/
def loadAndSave (ed unset : Editor) (fs : Fs) (path : Bytes) (answer data : Option Nat) :
    Alloc (Bool × Editor × Fs) := do
  let (loaded, ed) ← editorLoad ed unset fs path
  if loaded then editorSave ed fs answer data else pure (false, ed, fs)

theorem loadAndSave_run {ed ed' u : Editor} {fs : Fs} {path : Bytes} {answer data : Option Nat}
    {w w' : World} {loaded : Bool} (h : editorLoad ed u fs path w = some ((loaded, ed'), w')) :
    loadAndSave ed u fs path answer data w =
      (if loaded then editorSave ed' fs answer data else pure (false, ed', fs)) w' := by
  unfold loadAndSave
  simp only [Bind.bind, StateT.bind, h, Option.bind_some]

/-- **Saving what was loaded changes nothing.**  From every editor that is reached, a save that
succeeds leaves the document in the file; and a file without `'\r'` that is loaded and saved keeps
its bytes, as all others do, when nothing is refused. -/
theorem save_loaded {p : Editor × World} (h : documents.Reach p) {fs : Fs} {r : Nat}
    (hfs : Ramfs.Rooted fs r) (answer data : Option Nat) :
    (∀ w, Leads (editorSave p.1 fs answer data) w (fun x _ =>
      x.1 = true → Saves p.1 fs x.2.2 answer)) ∧
    ∀ path node c w, FileAt fs path node c → 0 ∉ path → path.length + 1 < 4294967296 →
      carriageReturn ∉ c → (c ≠ [] → Granted fs node c.length data) →
      Meets (loadAndSave p.1 unset fs path answer data) w (fun x w' => w'.refusals = w.refusals →
        (∀ u, loadAndSave p.1 u fs path answer data w = some (x, w')) ∧ x.1 = true ∧
          Ramfs.Written fs x.2.2 node c) := by
  obtain ⟨s, hs⟩ := documents_holds h
  refine ⟨fun w => ?_, fun path node c w hfile h0 hpath hcr hdata => ?_⟩
  · have hlines : HoldLines p.1.lines p.1.numLines s.view.caret.lines := hs.state.lines
    refine editorSave_writes hlines (fun hnil => ?_) hfs answer data
    have hrow := s.view.caret.row_lt
    rw [hnil] at hrow
    exact absurd hrow (by simp)
  · obtain ⟨⟨loaded, ed⟩, w1, h1, hle, hopened, hno⟩ := editorLoad_at (w := w) hs hfs hfile hpath
    have hstop :
      ∀ ok : Bool, (if loaded then editorSave ed fs answer data else pure (false, ed, fs)) w1 =
        some ((ok, ed, fs), w1) → (w1.refusals = w.refusals → False) →
        Meets (loadAndSave p.1 unset fs path answer data) w (fun x w' => w'.refusals = w.refusals →
          (∀ u, loadAndSave p.1 u fs path answer data w = some (x, w')) ∧ x.1 = true ∧
            Ramfs.Written fs x.2.2 node c) :=
      fun _ hr hf => ⟨_, w1, (loadAndSave_run h1).trans hr, fun hw => (hf hw).elim⟩
    cases loaded with
    | false => exact hstop false rfl fun hw => absurd (hno hw).2.1 (by simp)
    | true =>
      obtain ⟨ho, hsize⟩ := hopened rfl
      have htext := ho.text hcr
      cases hname : ed.filename with
      | none =>
        refine hstop false ?_ fun hw => absurd (hno hw).2.2 (by simp [hname])
        unfold editorSave
        rw [hname]
        rfl
      | some b =>
        obtain ⟨k, rfl⟩ := ho.filename b hname
        obtain ⟨x, w2, h2, hle2, hsaved⟩ :=
          editorSave_at (w := w1) ho.lines (fileLines_ne_nil c) hname h0 hfs
          hfile (by rwa [htext]) answer data (by rwa [htext])
        refine ⟨x, w2, (loadAndSave_run h1).trans h2, fun hw => ?_⟩
        obtain ⟨hok, hw'⟩ := hsaved (by omega)
        rw [htext] at hw'
        exact ⟨fun u => (loadAndSave_run ((hno (by omega)).1 u)).trans h2, hok, hw'⟩

/-! ### A file -/

theorem boot_write_rooted {path buffer : Bytes} {answer data : Option Nat} {y : Int × Fs}
    (hy : Ramfs.fsWriteFile (Ramfs.boot 4096).fs path buffer answer data = some y) :
    Ramfs.Rooted y.2 4096 := by
  have hgood : Ramfs.Good (Ramfs.boot 4096) 4096 4096 := Ramfs.boot_good (by decide)
  have hboot : Ramfs.Rooted (Ramfs.boot 4096).fs 4096 := ⟨hgood.tree, Ramfs.cwd_live hgood⟩
  obtain ⟨y', hy', heff, -⟩ := Ramfs.fsWriteFile_spec hboot path buffer answer data
  obtain rfl : y' = y := Option.some.inj (hy'.symm.trans hy)
  exact hboot.effect heff

/-- A file `f` with the character `a` and a newline. -/
def noted : Fs :=
  ((Ramfs.fsWriteFile (Ramfs.boot 4096).fs [102] [97, 10] (some 8192) (some 16384)).get
    (by decide +kernel)).2

theorem noted_rooted : Ramfs.Rooted noted 4096 := boot_write_rooted (Option.some_get _).symm

theorem granted_of {fs : Fs} {node size : Nat} {data : Option Nat}
    (h : ((fs.nodes node).bind fun n => (fs.freeData n.data).bind fun fs =>
      fs.granted size data).isSome = true) :
    Granted fs node size data := by
  obtain ⟨d, hd⟩ := Option.isSome_iff_exists.mp h
  obtain ⟨n, hn, hd⟩ := Option.bind_eq_some_iff.mp hd
  obtain ⟨fs₁, hfree, hd⟩ := Option.bind_eq_some_iff.mp hd
  exact ⟨n, fs₁, hn, hfree, Option.isSome_iff_exists.mpr ⟨d, hd⟩⟩

theorem noted_file : FileAt noted [102] 8192 [97, 10] where
  resolved := ⟨[], by decide +kernel⟩
  file := ⟨(Ramfs.contents noted 8192).get (by decide +kernel), (Option.some_get _).symm,
    by decide +kernel⟩
  bytes := by decide +kernel

/-- The file has been loaded and saved. -/
def savedAgain : (Bool × Editor × Fs) × World :=
  (loadAndSave (emptyText 1000).1 unset noted [102] none (some 20480) (emptyText 1000).2).get
    (by decide +kernel)

theorem save_loaded_noted : savedAgain.1.1 = true ∧ Ramfs.dataOf savedAgain.1.2.2 8192 =
    [97, 10] := by
  have hreach : documents.Reach (emptyText 1000) := .init ⟨unset, refusing 1000, rfl, rfl⟩
  obtain ⟨x, w', hrun, hsaved⟩ :=
    (save_loaded hreach noted_rooted none (some 20480)).2 [102] 8192 [97, 10]
    (emptyText 1000).2 noted_file (by decide) (by decide) (by decide) fun _ =>
      granted_of (by decide +kernel)
  have hagain : savedAgain = (x, w') := by
    unfold savedAgain
    simp only [hrun, Option.get_some]
  have hw : savedAgain.2.refusals = (emptyText 1000).2.refusals := by decide +kernel
  rw [hagain] at hw ⊢
  obtain ⟨-, hok, hw'⟩ := hsaved hw
  exact ⟨hok, hw'.data⟩

end CobraOS.Snake
