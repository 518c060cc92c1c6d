import CobraOS.Snake.Unsaved
import CobraOS.Snake.Owners
import CobraOS.Snake.RoundTrip

/-!
# The blocks that stay behind

`editor_load` makes a new editor with `editor_init`, and `editor_parse_buffer` begins by forgetting
the array of lines of this editor.  So each file that is opened leaves two blocks behind, the array
and the buffer of its one line, and everything else is freed: after a run the live blocks are those
from before it exactly when the run opened no file (`nothing_leaked_iff`).
-/

namespace CobraOS.Snake

open Base
open Ramfs (Fs Bytes)

/-! ### Loading -/

/-- There is a file at `path`. -/
def NamesFile (fs : Fs) (path : Bytes) : Prop :=
  ∃ r n, Ramfs.ramfsResolve fs path = some r ∧ r.2.bind fs.nodes = some n ∧
    Ramfs.hasFlag n.type Ramfs.fsFile = true

section

variable {i : Nat} {w : World} {ed : Editor} {fs : Fs} {path : Bytes}

theorem accounts {α : Type} {m : Alloc α} {δ : Nat → α → Int} (h : ∀ i, Account i m w (δ i)) :
    Leads m w (fun a w' => Later w w' ∧ ∀ i, w'.balance i = w.balance i + δ i a) :=
  fun a w' hr => ⟨(h 0 a w' hr).1, fun i => (h i a w' hr).2⟩

theorem readInto_owned {n : Ramfs.VfsNode} {b b' : Block UInt8} (h : readInto fs n b = some b') :
    owned i (some b') = owned i (some b) := by
  obtain rfl | ⟨bytes, -, -, rfl⟩ := readInto_some h <;> rfl

theorem fsReadFile_account (fs : Fs) (path : Bytes) :
    Account i (fsReadFile fs path) w (fun r => owned i (r.map Prod.fst)) := by
  unfold fsReadFile
  refine Account.lift fun r _ => ?_
  obtain ⟨fs', node⟩ := r
  cases node with
  | none => exact Account.pure rfl
  | some node =>
    refine Account.lift fun n _ => Account.ite (fun _ => Account.pure rfl) fun _ => ?_
    refine kmalloc_account (fun buf w1 _ _ => ?_) fun w1 => Account.pure rfl
    refine Account.lift fun b hread => Account.lift fun b' hset => Account.pure ?_
    rw [Option.map_some, owned_set hset, readInto_owned hread]
    ring

theorem fsReadFile_found (fs : Fs) (path : Bytes) : Leads (fsReadFile fs path) w (fun r w' =>
    w'.refusals = w.refusals → (r.isSome = true ↔ NamesFile fs path)) := by
  unfold fsReadFile
  refine Leads.lift fun r hr => ?_
  obtain ⟨fs', node⟩ := r
  cases node with
  | none =>
    refine Leads.pure fun _ => ⟨fun hf => absurd hf (by simp), ?_⟩
    intro ⟨r', n, hr', hn, _⟩
    obtain rfl := Option.some.inj (hr.symm.trans hr')
    cases hn
  | some node =>
    refine Leads.lift fun n hn => Leads.ite (fun hno => ?_) fun hfile => ?_
    · refine Leads.pure fun _ => ⟨fun hf => absurd hf (by simp), ?_⟩
      intro ⟨r', n', hr', hn', hyes⟩
      obtain rfl := Option.some.inj (hr.symm.trans hr')
      obtain rfl := Option.some.inj (hn.symm.trans hn')
      rw [hyes] at hno
      cases hno
    · refine Leads.bind (Leads.of_meets (kmalloc_outcome _ _)) fun buf w1 hw1 => ?_
      cases buf with
      | none =>
        refine Leads.pure fun hw => absurd hw ?_
        obtain ⟨hf, -⟩ | ⟨-, hlt⟩ := hw1
        · cases hf
        · omega
      | some buf =>
        refine Leads.lift fun b _ => Leads.lift fun b' _ => Leads.pure fun _ =>
          ⟨fun _ => ?_, fun _ => rfl⟩
        exact ⟨_, n, hr, hn, by simpa using hfile⟩

theorem moveLines_account (ed : Editor) {new : Block Line}
    (hnew : ∀ (g : Line → Int) n, total g (new.cells.take n) = 0) :
    Account i (moveLines ed new) w (fun b =>
      linesOwn i (some b) ed.numLines - owned i (some new) - ed.ownsText i) := by
  unfold moveLines Editor.ownsText
  cases ed.lines with
  | none => exact Account.pure (by simp [hnew])
  | some lines =>
    refine Account.lift fun b hcopy => Account.bind Account.release fun _ w1 _ => Account.pure ?_
    have htotal := total_copy (f := Line.owns i) hcopy
    rw [Nat.zero_add, List.take_zero, total_nil, List.drop_zero] at htotal
    rw [linesOwn_some, linesOwn_some, htotal, owned_copy hcopy]
    ring

theorem addLine_account (ed : Editor) (buf : Block UInt8) (start len : Nat) :
    Account i (addLine ed buf start len) w (fun r => r.2.owns i - ed.owns i) := by
  unfold addLine
  refine kmalloc_account (fun new w1 _ hnew => ?_) fun w1 => Account.pure (Int.sub_self _)
  refine Account.bind (moveLines_account ed hnew) fun b w2 _ => ?_
  refine kmalloc_account (fun data w3 _ _ => ?_) fun w3 => Account.pure ?_
  · refine Account.lift fun data1 h1 => Account.lift fun data2 h2 => Account.lift fun b' hset =>
      Account.pure ?_
    have hdata : owned i (some data2) = owned i (some data) := (owned_set h2).trans (owned_copy h1)
    simp only [Editor.owns, Editor.ownsText, linesOwn_some, total_set_next hset, owned_set hset,
      Line.owns, hdata]
    ring
  · simp only [Editor.owns, Editor.ownsText]
    ring

theorem parseLines_account (buf : Block UInt8) (stop : Nat) : ∀ (n i' start : Nat) (ed : Editor)
    {w : World},
    Account i (parseLines buf stop n i' start ed) w (fun r => r.2.owns i - ed.owns i) := by
  intro n
  induction n with
  | zero => exact fun i' start ed w => Account.pure (by simp)
  | succ n ih =>
    intro i' start ed w
    refine Account.lift fun ends _ => Account.ite (fun _ => ?_) fun _ => ih (i' + 1) start ed
    refine Account.lift fun len _ => Account.bind (addLine_account ed buf start len) fun r w1 _ =>
      ?_
    refine Account.ite (fun _ => (ih (i' + 1) (i' + 1) r.2).of_eq fun r' => ?_) fun _ =>
      Account.pure ?_
    all_goals ring

/-- **`editor_parse_buffer`** forgets the text that was in the editor. -/
theorem editorParseBuffer_account (ed : Editor) {buf : Block UInt8} {bytes : Text}
    (hbuf : buf.cells = bytes.map some ++ [some 0]) (hsize : bytes.length < maxRequest)
    (ends : Bool) :
    Account i (editorParseBuffer ed buf bytes.length ends) w
      (fun r => r.2.owns i - ed.owns i + ed.ownsText i) := by
  have hle : stopOf bytes ≤ bytes.length := by
    unfold stopOf
    split <;> omega
  unfold editorParseBuffer
  refine Account.lift fun e he => Account.bind (parseLines_account buf _ _ 0 0 _) fun r w1 hr => ?_
  refine Account.ite (fun hok => ?_) fun _ => Account.pure ?_
  · -- a line was found, so that none is made up
    have hstop : (if e then bytes.length - 1 else bytes.length) = stopOf bytes := by
      obtain rfl := Option.some.inj ((endsWithNewline_spec hbuf).symm.trans he)
      simp [stopOf]
    rw [hstop] at hr
    obtain ⟨-, -, -, hparsed⟩ :=
      Leads.of_meets (parseLines_spec (w := w) hbuf hsize hle (Nat.zero_add _) le_rfl
      (show Parsed { ed with numLines := 0, lines := none } [] from Or.inl ⟨rfl, rfl, rfl⟩)) _ _ hr
    have hpos : r.2.numLines ≠ 0 := by
      rw [(hparsed hok).count.1]
      exact fun h0 => fileLines_ne_nil bytes (List.length_eq_zero_iff.mp h0)
    have hone : orOneLine r.2 = pure (true, r.2) := if_neg hpos
    rw [hone, pure_bind]
    refine Account.pure ?_
    simp only [Editor.owns, Editor.ownsText, if_true, linesOwn_none]
    ring
  · simp only [Editor.owns, Editor.ownsText, linesOwn_none]
    ring

theorem editorFree_account (ed : Editor) : Account i (editorFree ed) w (fun _ => -ed.owns i) := by
  unfold editorFree
  refine Account.bind (freeText_account ed) fun _ w1 _ => Account.bind Account.release fun _ w2 _ =>
    ?_
  refine Account.bind (freeStack_account _ _) fun _ w3 _ => Account.bind (freeStack_account _ _)
    fun _ w4 _ => ?_
  refine Account.pure ?_
  simp only [Editor.owns]
  ring

theorem myStrdup_account (s : Bytes) : Account i (myStrdup s) w (fun b => owned i b) := by
  unfold myStrdup
  refine kmalloc_account (fun b w1 _ _ => ?_) fun w1 => Account.pure rfl
  refine Account.lift fun b' hcopy => Account.pure ?_
  rw [owned_copy hcopy]
  ring

theorem kmalloc_later {α : Type} (item size : Nat) :
    Leads (kmalloc (α := α) item size) w (fun r w' =>
    Later w w' ∧ (r = none → w.refusals < w'.refusals) ∧ ∀ b, r = some b →
      w.calls ≤ b.id ∧ ∀ (g : α → Int) n, total g (b.cells.take n) = 0) := by
  intro r w' hr
  have hlater : Later w w' := by
    have hledger : Account 0 (kmalloc (α := α) item size >>= pure) w (fun r => owned 0 r) :=
      kmalloc_account (fun b w1 _ _ => Account.pure (Int.sub_self _)) fun w1 => Account.pure rfl
    rw [bind_pure] at hledger
    exact (hledger r w' hr).1
  refine ⟨hlater, fun hnone => kmalloc_refused (hnone ▸ hr), fun b hb => ?_⟩
  subst hb
  unfold kmalloc request at hr
  split at hr
  · cases hr
    exact ⟨le_rfl, fun g n => by rw [List.take_replicate, total_unwritten]⟩
  · cases hr

/-- A block that is granted or not, and does not own anything yet. -/
theorem kmalloc_either {α β : Type} {item size : Nat} {f : Option (Block α) → Alloc β} {ε : β → Int}
    (h : ∀ b w', (∀ (g : α → Int) n, b.elim 0 (fun b => total g (b.cells.take n)) = 0) →
      Account i (f b) w' (fun c => ε c - owned i b)) : Account i (kmalloc item size >>= f) w ε :=
  kmalloc_account (fun b w' _ hb => h (some b) w' hb) fun w' =>
    (h none w' fun _ _ => rfl).of_eq fun c => by rw [owned_none, Int.sub_zero]

/-- **`editor_init`**: what was in memory stays there only when there is no memory for the text. -/
theorem editorInit_account (unset : Editor) : Account i (editorInit unset) w (fun ed =>
    ed.owns i - if ed.lines.isNone then unset.owns i - unset.ownsText i else 0) := by
  unfold editorInit
  refine kmalloc_account (fun lines w1 _ hlines => ?_) fun w1 => Account.pure ?_
  · refine kmalloc_account (fun data w2 _ hdata => ?_) fun w2 => ?_
    · refine Account.lift fun data' h1 => Account.lift fun lines' h2 => ?_
      refine kmalloc_either fun undo w3 hundo => kmalloc_either fun redo w4 hredo => ?_
      have htext : linesOwn i (some lines') 1 = owned i (some lines) + owned i (some data) := by
        rw [linesOwn_some, total_set_next h2, owned_set h2, List.take_zero, total_nil, Line.owns,
          owned_set h1]
        ring
      refine Account.ite (fun _ => ?_) fun hsome => Account.pure ?_
      · refine Account.bind Account.release fun _ w5 _ => Account.bind Account.release fun _ w6 _ =>
          Account.pure ?_
        simp only [Editor.owns, Editor.ownsText, htext, Option.isNone_some, owned_none,
          stackOwns_none, Bool.false_eq_true, if_false]
        ring
      · have hstack : ∀ b : Option (Block EditorState), b ≠ none →
            (∀ (g : EditorState → Int) n, b.elim 0 (fun b => total g (b.cells.take n)) = 0) →
            stackOwns i b (-1) = owned i b := by
          intro b hb hcells
          cases b with
          | none => exact absurd rfl hb
          | some b =>
            have hnil : total (EditorState.owns i) (b.cells.take (-1 + 1 : Int).toNat) = 0 :=
              hcells _ _
            rw [stackOwns_some, hnil, Int.add_zero]
        simp only [Option.isNone_iff_eq_none, not_or] at hsome
        simp only [Editor.owns, Editor.ownsText, htext, Option.isNone_some, owned_none,
          hstack undo hsome.1 hundo, hstack redo hsome.2 hredo, Bool.false_eq_true, if_false]
        ring
    · refine Account.bind Account.release fun _ w3 _ => Account.pure ?_
      simp only [Editor.owns, Editor.ownsText, linesOwn_none, Option.isNone_none, if_true]
      ring
  · simp only [Editor.owns, Editor.ownsText, linesOwn_none, Option.isNone_none, if_true]
    ring

theorem editorInit_ledger (unset : Editor) :
    Ledger i (editorInit unset) w (fun ed => ed.owns i) := by
  intro ed w' hr
  obtain ⟨hlater, hbal⟩ := editorInit_account unset ed w' hr
  refine ⟨hlater, fun hw => ?_⟩
  obtain ⟨-, hstart⟩ := Leads.of_meets (editorInit_spec unset w) ed w' hr
  obtain ⟨id, ls, rest, hlines, -⟩ := (hstart hw).state.lines
  have hsome : ed.lines = some ⟨id, ls.map some ++ rest⟩ := hlines
  simp only [hsome, Option.isNone_some, Bool.false_eq_true, if_false, Int.sub_zero] at hbal
  exact hbal

/-- What `editor_init` makes: its text is in two new blocks. -/
structure New (w : World) (ed : Editor) (a b : Nat) : Prop where
  fresh : w.calls ≤ a ∧ w.calls ≤ b
  filename : ed.filename = none
  text : ∀ i, ed.ownsText i = ([a, b].count i : Nat)

theorem editorInit_new (unset : Editor) : Leads (editorInit unset) w (fun ed w' =>
    w'.refusals = w.refusals → ∃ a b, New w ed a b) := by
  have hnew : ∀ {lines lines' : Block Line} {data data' : Block UInt8} {ed : Editor},
      w.calls ≤ lines.id → w.calls ≤ data.id → lines.set 0 ⟨some data', 0, 1⟩ = some lines' →
      data.set 0 0 = some data' → ed.lines = some lines' → ed.numLines = 1 → ed.filename = none →
      ∃ a b, New w ed a b := by
    intro lines lines' data data' ed hlines hdata hset hset' htext hn hname
    refine ⟨lines.id, data.id, ⟨hlines, hdata⟩, hname, fun i => ?_⟩
    have htotal := total_set_next (f := Line.owns i) hset
    rw [List.take_zero, total_nil] at htotal
    rw [Editor.ownsText, htext, hn, linesOwn_some, htotal, owned_set hset, Line.owns,
      owned_set hset']
    simp only [owned, Option.elim_some, List.count_cons, List.count_nil, beq_iff_eq]
    split <;> split <;> rfl
  unfold editorInit
  refine Leads.bind (kmalloc_later _ _) fun lines w1 h => ?_
  obtain ⟨h1, hno1, hsome1⟩ := h
  cases lines with
  | none =>
    have := hno1 rfl
    exact Leads.pure fun hw => absurd hw (by omega)
  | some lines =>
    refine Leads.bind (kmalloc_later _ _) fun data w2 h => ?_
    obtain ⟨h2, hno2, hsome2⟩ := h
    have hle1 := h1.refusals
    cases data with
    | none =>
      have := hno2 rfl
      refine Leads.bind (Account.release (i := 0)).later fun _ w3 h3 => Leads.pure fun hw => ?_
      have := h3.refusals
      exact absurd hw (by omega)
    | some data =>
      have hlines := (hsome1 lines rfl).1
      have hdata := h1.calls.trans (hsome2 data rfl).1
      refine Leads.lift fun data' hset' => Leads.lift fun lines' hset => ?_
      refine Leads.bind Leads.any fun undo w3 _ => Leads.bind Leads.any fun redo w4 _ => ?_
      refine Leads.ite (fun _ => ?_) fun _ => ?_
      · exact Leads.bind Leads.any fun _ _ _ => Leads.bind Leads.any fun _ _ _ =>
          Leads.pure fun _ => hnew hlines hdata hset hset' rfl rfl rfl
      · exact Leads.pure fun _ => hnew hlines hdata hset hset' rfl rfl rfl

theorem loadInto_account (ed : Editor) {newEd : Editor} (path : Bytes) {buf : Block UInt8}
    {bytes : Text} (hbuf : buf.cells = bytes.map some ++ [some 0])
    (hsize : bytes.length < maxRequest) :
    Account i (loadInto ed newEd path buf bytes.length) w
      (fun r => r.2.owns i - ed.owns i - newEd.owns i +
      newEd.ownsText i - owned i (some buf) + if r.1 then owned i newEd.filename else 0) := by
  unfold loadInto
  refine Account.lift fun ends _ => Account.bind (editorParseBuffer_account newEd hbuf hsize ends)
    fun r w1 hr => ?_
  obtain ⟨-, -, lines, n, nl, hed, -⟩ :=
    Leads.of_meets (editorParseBuffer_spec newEd hbuf hsize ends) _ _ hr
  refine Account.bind Account.release fun _ w2 _ => Account.ite (fun _ => ?_) fun _ => ?_
  · refine Account.bind (editorFree_account ed) fun _ w3 _ => Account.bind (myStrdup_account path)
      fun b w4 _ => ?_
    refine Account.pure ?_
    simp only [hed, Editor.owns, Editor.ownsText, if_true]
    ring
  · refine Account.bind (editorFree_account r.2) fun _ w3 _ => Account.pure ?_
    simp only [Bool.false_eq_true, if_false]
    ring

/-- What stays behind when a file is opened. -/
structure Lost (fs : Fs) (path : Bytes) (w : World) (lost : List Nat) : Prop where
  fresh : ∀ id ∈ lost, w.calls ≤ id
  opened : lost = [] ↔ ¬ NamesFile fs path

/-- **`editor_load`** loses two blocks when there is a file, and otherwise none. -/
theorem editorLoad_balance (ed unset : Editor) (fs : Fs) (path : Bytes) :
    Leads (editorLoad ed unset fs path) w (fun r w' => Later w w' ∧ (w'.refusals = w.refusals →
      ∃ lost, Lost fs path w lost ∧
        ∀ i, w'.balance i = w.balance i + (r.2.owns i - ed.owns i) + (lost.count i : Nat))) := by
  rw [editorLoad_eq]
  refine Leads.bind (Leads.self) fun file w1 hread => ?_
  obtain ⟨hlater1, hbal1⟩ := accounts (fun i => fsReadFile_account fs path) _ _ hread
  have hfound := fsReadFile_found fs path _ _ hread
  cases file with
  | none =>
    refine Leads.pure ⟨hlater1, fun hw => ⟨[], ⟨by simp, ?_⟩, fun i => ?_⟩⟩
    · have hno : ¬ NamesFile fs path := fun hyes => absurd ((hfound hw).mpr hyes) (by simp)
      exact iff_of_true rfl hno
    · rw [hbal1 i]
      simp
  | some file =>
    obtain ⟨buf, len⟩ := file
    obtain ⟨-, hsize, hbuf⟩ := fsReadFile_spec fs path _ _ hread buf len rfl
    refine Leads.bind Leads.self fun newEd w2 hinit => ?_
    have hledger := fun i => editorInit_ledger (i := i) unset _ _ hinit
    have hlater2 := (hledger 0).1
    have hnew := editorInit_new unset _ _ hinit
    obtain ⟨bytes, hcells, rfl⟩ | ⟨hpos, hget⟩ := hbuf
    · intro r w3 hr
      obtain ⟨hlater3, hbal3⟩ := accounts (fun i => loadInto_account ed path hcells hsize) _ _ hr
      refine ⟨(hlater1.trans hlater2).trans hlater3, fun hw => ?_⟩
      have := hlater1.refusals
      have := hlater2.refusals
      have := hlater3.refusals
      obtain ⟨a, b, hab⟩ := hnew (by omega)
      have hyes : NamesFile fs path := (hfound (by omega)).mp rfl
      refine ⟨[a, b], ⟨?_, iff_of_false (List.cons_ne_nil _ _) (not_not.mpr hyes)⟩, fun i => ?_⟩
      · have := hlater1.calls
        have := hab.fresh
        intro id hid
        obtain rfl | rfl : id = a ∨ id = b := by simpa using hid
        all_goals omega
      · rw [hbal3 i, (hledger i).2 (by omega), hbal1 i, hab.filename, owned_none, ite_self,
          ← hab.text i, Option.map_some]
        ring
    · -- a buffer that was not filled is not read any further
      refine Leads.lift fun ends hends => ?_
      unfold endsWithNewline at hends
      rw [if_pos hpos, hget] at hends
      cases hends

/-! ### Saving -/

theorem writeNewline_id {ed : Editor} {i pos : Nat} {buf : Block UInt8} {r : Block UInt8 × Nat}
    (h : writeNewline ed i pos buf = some r) : r.1.id = buf.id := by
  unfold writeNewline at h
  split at h
  · obtain ⟨buf', hset, h⟩ := Option.bind_eq_some_iff.mp h
    obtain rfl := Option.some.inj h
    obtain ⟨-, rfl⟩ := Block.set_some hset
    rfl
  · obtain rfl := Option.some.inj h
    rfl

theorem writeLines_id {ed : Editor} {lines : Block Line} : ∀ {n i pos : Nat} {buf : Block UInt8}
    {r : Block UInt8 × Nat}, writeLines ed lines n i pos buf = some r → r.1.id = buf.id := by
  intro n
  induction n with
  | zero =>
    intro i pos buf r h
    obtain rfl := Option.some.inj h
    rfl
  | succ n ih =>
    intro i pos buf r h
    rw [writeLines] at h
    obtain ⟨line, -, h⟩ := Option.bind_eq_some_iff.mp h
    obtain ⟨data, -, h⟩ := Option.bind_eq_some_iff.mp h
    obtain ⟨buf1, hcopy, h⟩ := Option.bind_eq_some_iff.mp h
    obtain ⟨⟨buf2, pos2⟩, hnl, h⟩ := Option.bind_eq_some_iff.mp h
    have hrest : writeLines ed lines n (i + 1) pos2 buf2 = some r := h
    have hid : buf2.id = buf1.id := writeNewline_id hnl
    have hid1 : buf1.id = buf.id := by
      obtain ⟨-, rfl⟩ := Block.copy_some hcopy
      rfl
    exact (ih hrest).trans (hid.trans hid1)

theorem textInto_id {buf : Block UInt8} {r : Block UInt8 × Nat} (h : textInto ed buf = some r) :
    r.1.id = buf.id := by
  unfold textInto at h
  cases hlines : ed.lines with
  | none =>
    simp only [hlines] at h
    split at h
    · obtain rfl := Option.some.inj h
      rfl
    · cases h
  | some lines =>
    simp only [hlines] at h
    exact writeLines_id h

theorem fileText_id {buf : Block UInt8} {r : Block UInt8 × Nat} (h : fileText ed buf = some r) :
    r.1.id = buf.id := by
  obtain ⟨r1, htext, h⟩ := Option.bind_eq_some_iff.mp h
  obtain ⟨buf1, hset, h⟩ := Option.bind_eq_some_iff.mp h
  obtain rfl := Option.some.inj h
  have hid : buf1.id = r1.1.id := by
    obtain ⟨-, rfl⟩ := Block.set_some hset
    rfl
  exact hid.trans (textInto_id htext)

theorem editorSave_account (ed : Editor) (fs : Fs) (answer data : Option Nat) :
    Account i (editorSave ed fs answer data) w (fun r => r.2.1.owns i - ed.owns i) := by
  unfold editorSave
  cases hname : ed.filename with
  | none => exact Account.pure (Int.sub_self _)
  | some filename =>
    refine Account.lift fun total _ => kmalloc_account (fun buf w1 _ _ => ?_) fun w1 =>
      Account.pure (Int.sub_self _)
    refine Account.lift fun r htext => Account.lift fun path _ => Account.lift fun text _ => ?_
    refine Account.lift fun r' _ => Account.bind Account.release fun _ w2 _ => ?_
    have hbuf : owned i (some r.1) = owned i (some buf) := owned_of_id (fileText_id htext)
    refine Account.ite (fun _ => Account.pure ?_) fun _ => Account.pure ?_
    · simp only [hbuf, Editor.owns, Editor.ownsText, hname]
      ring
    · simp only [hbuf]
      ring

end

/-! ### Runs -/

/-- The runs that begin with `editor_init` in `w₀`.  No request is refused. -/
def visits (w₀ : World) : System (Editor × World) Action where
  init p := ∃ unset, editorInit unset w₀ = some p ∧ p.2.refusals = w₀.refusals
  step p a p' := p'.2.refusals = p.2.refusals ∧ documents.step p a p'

/-- A file is opened. -/
def Action.Opens : Action → Prop
  | .load _ fs path => NamesFile fs path
  | _ => False

/-- The live blocks are those from before, those of the editor and the `lost` ones. -/
structure Balanced (w₀ : World) (p : Editor × World) (lost : List Nat) : Prop where
  reach : documents.Reach p
  calls : w₀.calls ≤ p.2.calls
  fresh : ∀ id ∈ lost, w₀.calls ≤ id
  balance : ∀ i, p.2.balance i = w₀.balance i + p.1.owns i + (lost.count i : Nat)

section

variable {w₀ : World} {p p' : Editor × World} {lost : List Nat}

theorem visits_init (h : (visits w₀).init p) : Balanced w₀ p [] := by
  obtain ⟨unset, hr, hw⟩ := h
  have hledger := fun i => editorInit_ledger (i := i) unset _ _ hr
  exact ⟨.init ⟨unset, w₀, hr, hw⟩, (hledger 0).1.calls, by simp,
    fun i => by simp [(hledger i).2 hw]⟩

theorem Balanced.kept (h : Balanced w₀ p lost) (hreach : documents.Reach p')
    (hlater : Later p.2 p'.2)
    (hbal : ∀ i, p'.2.balance i = p.2.balance i + (p'.1.owns i - p.1.owns i)) :
    Balanced w₀ p' lost where
  reach := hreach
  calls := h.calls.trans hlater.calls
  fresh := h.fresh
  balance i := by
    rw [hbal i, h.balance i]
    ring

/-- **One step** loses blocks when it opens a file, and only then. -/
theorem Balanced.step (h : Balanced w₀ p lost) {a : Action} (hs : (visits w₀).step p a p') :
    ∃ more, Balanced w₀ p' (lost ++ more) ∧ (more = [] ↔ ¬ a.Opens) := by
  obtain ⟨hw, hstep⟩ := hs
  have hreach := h.reach.step hstep
  cases a with
  | op op =>
    obtain ⟨s, hs⟩ := documents_holds h.reach
    obtain ⟨hlater, hbal⟩ := accounts (fun i => exec_account hs.state op) _ _ hstep
    exact ⟨[], by simpa using h.kept hreach hlater hbal, iff_of_true rfl id⟩
  | load unset fs path =>
    obtain ⟨-, ok, hr⟩ := hstep
    obtain ⟨hlater, hlost⟩ := editorLoad_balance p.1 unset fs path _ _ hr
    obtain ⟨more, hmore, hbal⟩ := hlost hw
    refine ⟨more, ⟨hreach, h.calls.trans hlater.calls, fun id hid => ?_, fun i => ?_⟩, hmore.opened⟩
    · obtain hid | hid := List.mem_append.mp hid
      · exact h.fresh id hid
      · exact h.calls.trans (hmore.fresh id hid)
    · rw [hbal i, h.balance i, List.count_append]
      push_cast
      ring
  | save fs answer data =>
    obtain ⟨ok, fs', hr⟩ := hstep
    obtain ⟨hlater, hbal⟩ := accounts (fun i => editorSave_account p.1 fs answer data) _ _ hr
    exact ⟨[], by simpa using h.kept hreach hlater hbal, iff_of_true rfl id⟩

theorem Balanced.run {acts : List Action} (hrun : (visits w₀).Run p acts p') :
    ∀ {lost : List Nat}, Balanced w₀ p lost →
      ∃ more, Balanced w₀ p' (lost ++ more) ∧ (more = [] ↔ ∀ a ∈ acts, ¬ a.Opens) := by
  induction hrun with
  | nil p => exact fun h => ⟨[], by simpa using h, by simp⟩
  | cons hs _ ih =>
    intro lost h
    obtain ⟨more, h1, hmore⟩ := h.step hs
    obtain ⟨more', h2, hmore'⟩ := ih h1
    refine ⟨more ++ more', by rwa [← List.append_assoc], ?_⟩
    rw [List.append_eq_nil_iff, hmore, hmore', List.forall_mem_cons]

/-- **The editor frees every block exactly when it opened no file.** -/
theorem nothing_leaked_iff {w₀ : World} (hw : w₀.Proper) {p₀ p : Editor × World}
    {acts : List Action} (hinit : (visits w₀).init p₀) (hrun : (visits w₀).Run p₀ acts p) :
    ∃ ed' w', editorFree p.1 p.2 = some (ed', w') ∧
      ((∀ i, w'.Live i ↔ w₀.Live i) ↔ ∀ a ∈ acts, ¬ a.Opens) := by
  obtain ⟨lost, h, hlost⟩ := Balanced.run hrun (visits_init hinit)
  rw [List.nil_append] at h
  obtain ⟨s, hs⟩ := documents_holds h.reach
  obtain ⟨ed', w', hr, -⟩ := editorFree_spec (w := p.2) hs
  have hbal : ∀ i, w'.balance i = w₀.balance i + (lost.count i : Nat) := by
    intro i
    rw [(editorFree_account p.1 _ _ hr).2, h.balance i]
    ring
  refine ⟨ed', w', hr, ?_⟩
  rw [← hlost]
  constructor
  · intro hsame
    -- a block that was lost is live, and was not there before
    cases lost with
    | nil => rfl
    | cons id rest =>
      have hbefore : w₀.balance id = 0 := hw id (h.fresh id List.mem_cons_self)
      have hlive : w'.Live id := by
        unfold World.Live
        rw [hbal id, hbefore, List.count_cons_self]
        omega
      have hold := (hsame id).mp hlive
      unfold World.Live at hold
      omega
  · intro hnil i
    unfold World.Live
    rw [hbal i, hnil]
    simp

end

/-! ### A run -/

theorem visits_load {w₀ w w' : World} {ed ed' unset : Editor} {fs : Fs} {path : Bytes} {ok : Bool}
    (hw : w'.refusals = w.refusals) (hload : editorLoad ed unset fs path w = some ((ok, ed'), w')) :
    (visits w₀).step (ed, w) (.load unset fs path) (ed', w') := ⟨hw, hw, ok, hload⟩

/-- The editor has been freed. -/
def freed : Editor × World := (editorFree loadedFile.1.2 loadedFile.2).get (by decide +kernel)

theorem emptyText_visits : (visits (refusing 1000)).init (emptyText 1000) := ⟨unset, rfl, rfl⟩

theorem loadedFile_visits : (visits (refusing 1000)).Run (emptyText 1000)
    [.load unset oneFile (Ramfs.text "f")] (loadedFile.1.2, loadedFile.2) := by
  have hok : loadedFile.1.1 = true := by decide +kernel
  have hw : loadedFile.2.refusals = (emptyText 1000).2.refusals := by decide +kernel
  exact .cons (visits_load hw (loadedFile_eq.trans (congrArg some (result_eq hok)))) (.nil _)

theorem refusing_proper (n : Nat) : (refusing n).Proper := fun _ _ => rfl

theorem nothing_leaked_iff_loadedFile : ∃ ed' w', editorFree loadedFile.1.2 loadedFile.2 =
    some (ed', w') ∧
    ((∀ i, w'.Live i ↔ (refusing 1000).Live i) ↔
      ∀ a ∈ [Action.load unset oneFile (Ramfs.text "f")], ¬ a.Opens) := by
  have hrun : ∀ ed w acts, (visits (refusing 1000)).Run (emptyText 1000) acts (ed, w) →
      ∃ ed' w', editorFree ed w = some (ed', w') ∧
        ((∀ i, w'.Live i ↔ (refusing 1000).Live i) ↔ ∀ a ∈ acts, ¬ a.Opens) :=
    fun ed w acts h => nothing_leaked_iff (refusing_proper 1000) emptyText_visits h
  exact hrun loadedFile.1.2 loadedFile.2 _ loadedFile_visits

/-- **A file is opened and the editor is left**: two blocks stay behind. -/
theorem load_leaks : (visits (refusing 1000)).init (emptyText 1000) ∧
    (visits (refusing 1000)).Run (emptyText 1000) [.load unset oneFile (Ramfs.text "f")]
      (loadedFile.1.2, loadedFile.2) ∧
    editorFree loadedFile.1.2 loadedFile.2 = some freed ∧
    ∀ i ∈ [5, 6], freed.2.Live i ∧ ¬ (refusing 1000).Live i :=
  ⟨emptyText_visits, loadedFile_visits, (Option.some_get _).symm, by decide +kernel⟩

end CobraOS.Snake
