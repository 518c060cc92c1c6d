import CobraOS.Snake.RoundTrip

/-!
# The lines of a file

`editor_load` splits a file at its newlines and takes a `'\r'` off the end of a line.  Whether there
is one it looks up at the length of the line, counted from the start of the buffer and not of the
line.  So the first line is right, and every other line loses its last character when the file
happens to have a `'\r'` at that place, and keeps its `'\r'` when it has not (`load_lines_iff`).
-/

namespace CobraOS.Snake

open Base
open Ramfs (Fs Bytes)

variable {text p : Text}

/-- The pieces between newlines.  A last newline ends the last piece. -/
def pieces (text : Text) : List Text :=
  (if text.getLast? = some newlineChar then text.dropLast else text).splitOn newlineChar

/-- The piece without a `'\r'` at its end. -/
def stripReturn (p : Text) : Text := if p.getLast? = some carriageReturn then p.dropLast else p

/-- The file has a `'\r'` at the place of the length of a piece exactly when the piece ends in
one. -/
def ReturnsAligned (text : Text) : Prop :=
  ∀ p ∈ pieces text, p ≠ [] →
    (text[p.length - 1]? = some carriageReturn ↔ p.getLast? = some carriageReturn)

theorem fileLines_pieces (text : Text) : fileLines text = (pieces text).map (cutLine text) := by
  have hbody : text.take (stopOf text) = if text.getLast? = some newlineChar then text.dropLast
      else text := by
    unfold stopOf
    split
    · exact List.dropLast_eq_take.symm
    · exact List.take_length
  rw [fileLines_eq, hbody, pieces]

/-- **One line is right** exactly when the two places agree. -/
theorem cutLine_iff (hp : p ≠ []) : cutLine text p = stripReturn p ↔
    (text[p.length - 1]? = some carriageReturn ↔ p.getLast? = some carriageReturn) := by
  have hshort : p.dropLast ≠ p := by
    intro he
    have hlen := congrArg List.length he
    have hpos := List.length_pos_iff.mpr hp
    rw [List.length_dropLast] at hlen
    omega
  unfold cutLine stripReturn lengthOf
  rw [Nat.sub_zero]
  by_cases hcut : text[p.length - 1]? = some carriageReturn <;> by_cases hlast :
    p.getLast? = some carriageReturn
  · rw [if_pos hcut, if_pos hlast]
    exact iff_of_true List.dropLast_eq_take.symm (iff_of_true hcut hlast)
  · rw [if_pos hcut, if_neg hlast, ← List.dropLast_eq_take]
    exact iff_of_false hshort fun h => hlast (h.mp hcut)
  · rw [if_neg hcut, if_pos hlast, List.take_length]
    exact iff_of_false (fun h => hshort h.symm) fun h => hcut (h.mpr hlast)
  · rw [if_neg hcut, if_neg hlast, List.take_length]
    exact iff_of_true rfl (iff_of_false hcut hlast)

theorem fileLines_iff : fileLines text = (pieces text).map stripReturn ↔ ReturnsAligned text := by
  rw [fileLines_pieces, List.map_inj_left]
  refine forall₂_congr fun p _ => ?_
  by_cases hp : p = []
  · have hnil : cutLine text [] = stripReturn [] := List.take_nil
    rw [hp]
    exact iff_of_true hnil fun h => absurd rfl h
  · rw [cutLine_iff hp]
    exact ⟨fun h _ => h, fun h => h hp⟩

/-- **When loading a file loses no text.**  When no request is refused, `editor_load` succeeds
whatever was in the memory of `new_ed`, and the document has the lines of the file exactly when the
two places agree for every line. -/
theorem load_lines_iff {x : Editor × World} (h : documents.Reach x) {fs : Fs} {r node : Nat}
    {path : Bytes} (hfs : Ramfs.Rooted fs r) (hfile : FileAt fs path node text)
    (hpath : path.length + 1 < 4294967296) (w : World) :
    Meets (editorLoad x.1 unset fs path) w (fun y w' => w'.refusals = w.refusals →
      (∀ u, editorLoad x.1 u fs path w = some (y, w')) ∧ y.1 = true ∧
        y.2.fileEndsWithNewline = decide (text.getLast? = some newlineChar) ∧
        (y.2.document.lines = (pieces text).map stripReturn ↔ ReturnsAligned text)) := by
  obtain ⟨s, hs⟩ := documents_holds h
  obtain ⟨y, w', hrun, -, hopened, hdone⟩ := editorLoad_at (w := w) hs hfs hfile hpath
  refine ⟨y, w', hrun, fun hw => ?_⟩
  obtain ⟨hall, hok, -⟩ := hdone hw
  obtain ⟨ho, -⟩ := hopened hok
  refine ⟨hall, hok, ho.newline, ?_⟩
  rw [document_eq ho.lines]
  exact fileLines_iff

/-- A file `f` with the lines `a`, `b` and `c`, of which the first two end in `'\r'`. -/
def threeLines : Fs :=
  ((Ramfs.fsWriteFile (Ramfs.boot 4096).fs [102] [97, 13, 10, 98, 13, 10, 99, 10] (some 8192)
    (some 16384)).get (by decide +kernel)).2

theorem threeLines_file : FileAt threeLines [102] 8192 [97, 13, 10, 98, 13, 10, 99, 10] where
  resolved := ⟨[], by decide +kernel⟩
  file := ⟨(Ramfs.contents threeLines 8192).get (by decide +kernel), (Option.some_get _).symm,
    by decide +kernel⟩
  bytes := by decide +kernel

theorem load_lines_iff_threeLines : ∃ y w', editorLoad (emptyText 1000).1 unset threeLines [102]
      (emptyText 1000).2 = some (y, w') ∧
    y.2.document.lines = [[97], [98], [99]] ∧ y.2.fileEndsWithNewline = true := by
  have hreach : documents.Reach (emptyText 1000) := .init ⟨unset, refusing 1000, rfl, rfl⟩
  have hrooted : Ramfs.Rooted threeLines 4096 := boot_write_rooted (Option.some_get _).symm
  obtain ⟨y, w', hrun, hloaded⟩ :=
    load_lines_iff hreach hrooted threeLines_file (by decide) (emptyText 1000).2
  have hw : ((editorLoad (emptyText 1000).1 unset threeLines [102] (emptyText 1000).2).map
      fun z => z.2.refusals) = some (emptyText 1000).2.refusals := by decide +kernel
  rw [hrun, Option.map_some, Option.some.injEq] at hw
  obtain ⟨-, -, hnewline, hlines⟩ := hloaded hw
  have haligned : ReturnsAligned [97, 13, 10, 98, 13, 10, 99, 10] := by
    unfold ReturnsAligned
    decide
  exact ⟨y, w', hrun, hlines.mpr haligned, hnewline⟩

/-- A file `f` with the lines `a` and `bc`, of which the first ends in `'\r'`. -/
def dosFile : Fs :=
  ((Ramfs.fsWriteFile (Ramfs.boot 4096).fs [102] [97, 13, 10, 98, 99] (some 8192) (some 16384)).get
    (by decide +kernel)).2

theorem dosFile_file : FileAt dosFile [102] 8192 [97, 13, 10, 98, 99] where
  resolved := ⟨[], by decide +kernel⟩
  file := ⟨(Ramfs.contents dosFile 8192).get (by decide +kernel), (Option.some_get _).symm,
    by decide +kernel⟩
  bytes := by decide +kernel

/-- **The second line loses its last character.** -/
theorem load_loses_text : FileAt dosFile [102] 8192 [97, 13, 10, 98, 99] ∧
    (pieces [97, 13, 10, 98, 99]).map stripReturn = [[97], [98, 99]] ∧
    ∃ y w', editorLoad (emptyText 1000).1 unset dosFile [102] (emptyText 1000).2 = some (y, w') ∧
      w'.refusals = (emptyText 1000).2.refusals ∧ y.1 = true ∧
        y.2.document.lines = [[97], [98]] := by
  have hrun : (editorLoad (emptyText 1000).1 unset dosFile [102] (emptyText 1000).2).map
      (fun z => (z.2.refusals, z.1.1, z.1.2.document.lines)) =
      some ((emptyText 1000).2.refusals, true, [[97], [98]]) := by decide +kernel
  obtain ⟨⟨y, w'⟩, hy, heq⟩ := Option.map_eq_some_iff.mp hrun
  simp only [Prod.mk.injEq] at heq
  exact ⟨dosFile_file, by decide, y, w', hy, heq⟩

end CobraOS.Snake
