import CobraOS.Base.Memory
import CobraOS.Snake.Memory

/-!
# The editor in the bytes of the memory

In the other modules a pointer carries the block that it points to, so a pointer that was never
written has no meaning.  Here the memory is bytes: an `Editor` is 48 of them at an address, a
pointer is a word, and a store through any word goes to that address.  `editorInsertChar` is
`editor_insert_char` on these bytes, with all that it calls.  `kmalloc` gives memory that is not in
use, and `kfree` takes only what is.

`Represents` says that bytes are those of an `EditorMemory`: a field that was never written may hold
anything.  The lines of the editor can be read off the bytes (`Represents.document`).
-/

namespace CobraOS.Snake

open Base
open Ramfs (Bytes)

namespace Pointers

/-- The bytes, the blocks in use with their sizes, and what `kmalloc` answers next, where `0` is the
null pointer. -/
structure State where
  mem : Mem
  blocks : List (Nat × Nat)
  answers : List Nat

abbrev Program := StateT State Option

/-- A block has no byte in common with `[a, a + n)`. -/
def Apart (a n : Nat) (b : Nat × Nat) : Prop := a + n ≤ b.1 ∨ b.1 + b.2 ≤ a

instance (a n : Nat) (b : Nat × Nat) : Decidable (Apart a n b) :=
  inferInstanceAs (Decidable (_ ∨ _))

def kmalloc (size : Nat) : Program Nat := fun s =>
  match s.answers with
  | [] => none
  | a :: answers =>
    if a = 0 then some (0, { s with answers := answers })
    else if 0 < size ∧ size ≤ maxRequest ∧ a + size ≤ 4294967296 ∧
      ∀ b ∈ s.blocks, Apart a size b then
      some (a, { s with answers := answers, blocks := (a, size) :: s.blocks })
    else none

def kfree (p : Nat) : Program Unit := fun s =>
  if p = 0 then some ((), s)
  else if p ∈ s.blocks.map Prod.fst then
    some ((), { s with blocks := s.blocks.filter fun b => b.1 ≠ p })
  else none

/-- An address is a word. -/
def load (a : Nat) : Program Nat := fun s => some (load32 s.mem (a % 4294967296), s)

def store (a w : Nat) : Program Unit := fun s =>
  some ((), { s with mem := store32 s.mem (a % 4294967296) w })

def storeByte (a : Nat) (c : UInt8) : Program Unit := fun s =>
  some ((), { s with mem := store8 s.mem (a % 4294967296) c })

/-- `memmove`, and `memcpy` where nothing overlaps. -/
def copy (dst src n : Nat) : Program Unit := fun s =>
  some ((), { s with mem := fun x =>
    if dst ≤ x ∧ x < dst + n then s.mem ((src + (x - dst)) % 4294967296) else s.mem x })

/-- `&array[i]` for items of `size` bytes. -/
def item (array size : Nat) (i : Int) : Nat := ((array + size * i) % 4294967296).toNat

/-- An `int` in memory. -/
def loadInt (a : Nat) : Program Int := do
  let w ← load a
  pure (BitVec.ofNat 32 w).toInt

def storeInt (a : Nat) (i : Int) : Program Unit := store a (BitVec.ofInt 32 i).toNat

/-! ### Saved states -/

/-- `for (size_t j = 0; j < n; j++) kfree(lines[j].data);` from `j` on. -/
def freeLines (lines : Nat) : Nat → Nat → Program Unit
  | 0, _ => pure ()
  | n + 1, j => do
    let data ← load (item lines lineSize j)
    kfree data
    freeLines lines n (j + 1)

/-- The loop of `editor_state_clone`, with the number of lines left, from line `i` on. -/
def cloneLines (ed lines : Nat) : Nat → Nat → Program Bool
  | 0, _ => pure true
  | n + 1, i => do
    let edLines ← load ed
    let src := item edLines lineSize i
    let dst := item lines lineSize i
    let len ← load (src + 4)
    store (dst + 4) len
    store (dst + 8) (len + 1)
    let data ← kmalloc ((len + 1) % 4294967296)
    store dst data
    if data = 0 then do
      freeLines lines i 0
      kfree lines
      pure false
    else do
      let from' ← load src
      let len ← load (src + 4)
      copy data from' len
      let data ← load dst
      let len ← load (dst + 4)
      storeByte (data + len) 0
      cloneLines ed lines n (i + 1)

/-- The words of an `EditorState`. -/
structure Words where
  lines : Nat
  numLines : Nat
  cursorX : Nat
  cursorY : Nat
  scrollX : Nat
  scrollY : Nat

/-- The fields that the source leaves unset when it fails are `0`; they are not read then. -/
def editorStateClone (ed : Nat) : Program Words := do
  let numLines ← load (ed + 4)
  let lines ← kmalloc (numLines * lineSize % 4294967296)
  if lines = 0 then pure ⟨0, 0, 0, 0, 0, 0⟩
  else do
    let ok ← cloneLines ed lines numLines 0
    if ok then do
      let cursorX ← load (ed + 8)
      let cursorY ← load (ed + 12)
      let scrollX ← load (ed + 16)
      let scrollY ← load (ed + 20)
      pure ⟨lines, numLines, cursorX, cursorY, scrollX, scrollY⟩
    else pure ⟨0, 0, 0, 0, 0, 0⟩

def storeState (a : Nat) (st : Words) : Program Unit := do
  store a st.lines
  store (a + 4) st.numLines
  store (a + 8) st.cursorX
  store (a + 12) st.cursorY
  store (a + 16) st.scrollX
  store (a + 20) st.scrollY

/-- `editor_state_free` on a local variable. -/
def freeState (lines numLines : Nat) : Program Unit :=
  if lines = 0 then pure ()
  else do
    freeLines lines numLines 0
    kfree lines

/-- `editor_state_free` on a state in memory. -/
def editorStateFree (st : Nat) : Program Unit := do
  let lines ← load st
  let numLines ← load (st + 4)
  if lines = 0 then pure ()
  else do
    freeState lines numLines
    store st 0
    store (st + 4) 0

/-! ### The stacks -/

/-- `for (int i = 1; i <= *top; i++) stack[i - 1] = stack[i];` with the number of steps left, from
`i` on. -/
def shiftDown (stack : Nat) : Nat → Nat → Program Unit
  | 0, _ => pure ()
  | n + 1, i => do
    copy (item stack editorStateSize (i - 1)) (item stack editorStateSize i) editorStateSize
    shiftDown stack n (i + 1)

/-- `top` is the address of the index. -/
def undoStackPush (stack top : Nat) (st : Words) : Program Unit := do
  let i ← loadInt top
  if (maxUndoLevels : Int) - 1 ≤ i then do
    editorStateFree (item stack editorStateSize 0)
    shiftDown stack i.toNat 1
    storeInt top (i - 1)
  let i ← loadInt top
  storeInt top (i + 1)
  storeState (item stack editorStateSize (i + 1)) st

/-- `for (int i = 0; i <= *top; i++) editor_state_free(&stack[i]);` with the number of steps left,
from `i` on. -/
def clearStates (stack : Nat) : Nat → Nat → Program Unit
  | 0, _ => pure ()
  | n + 1, i => do
    editorStateFree (item stack editorStateSize i)
    clearStates stack n (i + 1)

def undoStackClear (stack top : Nat) : Program Unit := do
  let i ← loadInt top
  clearStates stack (i + 1).toNat 0
  storeInt top (-1)

def editorPushUndo (ed : Nat) : Program Bool := do
  let st ← editorStateClone ed
  if st.lines = 0 then pure false
  else do
    let stack ← load (ed + 32)
    undoStackPush stack (ed + 36) st
    pure true

def editorDiscardLastUndo (ed : Nat) : Program Unit := do
  let top ← loadInt (ed + 36)
  if top < 0 then pure ()
  else do
    let stack ← load (ed + 32)
    let st := item stack editorStateSize top
    let lines ← load st
    let numLines ← load (st + 4)
    storeInt (ed + 36) (top - 1)
    freeState lines numLines

def editorClearRedo (ed : Nat) : Program Unit := do
  let stack ← load (ed + 40)
  undoStackClear stack (ed + 44)

/-! ### Lines -/

def lineReserve (line needed : Nat) : Program Bool := do
  let cap ← load (line + 8)
  if needed ≤ cap then pure true
  else do
    let newCap ← doubled needed 33 (if cap = 0 then 16 else cap * 2 % 4294967296)
    let newData ← kmalloc newCap
    if newData = 0 then pure false
    else do
      let data ← load line
      if data ≠ 0 then do
        let len ← load (line + 4)
        copy newData data (len + 1)
        kfree data
      store line newData
      store (line + 8) newCap
      pure true

def lineInsertChar (line pos : Nat) (c : UInt8) : Program Bool := do
  let len ← load (line + 4)
  if len < pos then pure false
  else do
    let ok ← lineReserve line ((len + 2) % 4294967296)
    if ok then do
      let data ← load line
      let len ← load (line + 4)
      copy (data + pos + 1) (data + pos) (len - pos + 1)
      storeByte (data + pos) c
      store (line + 4) (len + 1)
      pure true
    else pure false

/-! ### The editor -/

/-- One axis of `editor_scroll_to_cursor`, with the addresses of its fields. -/
def scrollTo (size cursor scroll : Nat) : Program Unit := do
  let c ← load cursor
  let s ← load scroll
  if c < s then store scroll c
  let s ← load scroll
  if (s + size) % 4294967296 ≤ c then store scroll (wsub c size + 1)

def editorScrollToCursor (ed : Nat) : Program Unit := do
  scrollTo screenWidth (ed + 8) (ed + 16)
  scrollTo textHeight (ed + 12) (ed + 20)

def editorInsertChar (ed : Nat) (c : UInt8) : Program Unit := do
  let undoPushed ← editorPushUndo ed
  let lines ← load ed
  let y ← load (ed + 12)
  let x ← load (ed + 8)
  let ok ← lineInsertChar (item lines lineSize y) x c
  if ok then do
    let x ← load (ed + 8)
    store (ed + 8) (x + 1)
    storeByte (ed + 28) 1
    editorClearRedo ed
    editorScrollToCursor ed
  else if undoPushed then editorDiscardLastUndo ed
  else pure ()

/-! ### What the bytes are -/

/-- The text of the line at `line`. -/
def textAt (mem : Mem) (line : Nat) : Text :=
  (List.range (load32 mem (line + 4))).map fun k => mem (load32 mem line + k)

/-- What a file would keep of the editor at `ed`. -/
def documentAt (mem : Mem) (ed : Nat) : Document where
  lines := (List.range (load32 mem (ed + 4))).map fun i => textAt mem (load32 mem ed + lineSize * i)
  endsWithNewline := mem (ed + 29) != 0

/-- The word for a pointer, where `addr` gives the addresses of blocks. -/
def pointer {α : Type} (addr : Nat → Nat) (b : Option (Block α)) : Nat :=
  b.elim 0 fun b => addr b.id

/-- The bytes at `p` are those of a `char` array. -/
def BytesAt (addr : Nat → Nat) (mem : Mem) (b : Block UInt8) : Prop :=
  ∀ k < b.cells.length, ∀ c ∈ b.get k, mem (addr b.id + k) = c

structure LineAt (addr : Nat → Nat) (mem : Mem) (a : Nat) (l : Line) : Prop where
  data : load32 mem a = pointer addr l.data
  len : load32 mem (a + 4) = l.len
  cap : load32 mem (a + 8) = l.cap
  bytes : ∀ b ∈ l.data, BytesAt addr mem b

/-- The lines of an array that were written. -/
def LinesAt (addr : Nat → Nat) (mem : Mem) (b : Block Line) : Prop :=
  ∀ i < b.cells.length, ∀ l ∈ b.get i, LineAt addr mem (addr b.id + lineSize * i) l

structure StateAt (addr : Nat → Nat) (mem : Mem) (a : Nat) (st : EditorState) : Prop where
  lines : load32 mem a = pointer addr st.lines
  numLines : load32 mem (a + 4) = st.numLines
  cursorX : load32 mem (a + 8) = st.cursorX
  cursorY : load32 mem (a + 12) = st.cursorY
  scrollX : load32 mem (a + 16) = st.scrollX
  scrollY : load32 mem (a + 20) = st.scrollY
  array : ∀ b ∈ st.lines, LinesAt addr mem b

def StackAt (addr : Nat → Nat) (mem : Mem) (b : Block EditorState) : Prop :=
  ∀ i < b.cells.length, ∀ st ∈ b.get i, StateAt addr mem (addr b.id + editorStateSize * i) st

/-- **The bytes at `ed` are those of the editor**, as far as it was written. -/
structure Represents (addr : Nat → Nat) (mem : Mem) (ed : Nat) (m : EditorMemory) : Prop where
  lines : ∀ p ∈ m.lines, load32 mem ed = pointer addr p ∧ ∀ b ∈ p, LinesAt addr mem b
  numLines : ∀ n ∈ m.numLines, load32 mem (ed + 4) = n
  cursorX : ∀ x ∈ m.cursorX, load32 mem (ed + 8) = x
  cursorY : ∀ y ∈ m.cursorY, load32 mem (ed + 12) = y
  scrollX : ∀ x ∈ m.scrollX, load32 mem (ed + 16) = x
  scrollY : ∀ y ∈ m.scrollY, load32 mem (ed + 20) = y
  filename : ∀ p ∈ m.filename, load32 mem (ed + 24) = pointer addr p ∧ ∀ b ∈ p, BytesAt addr mem b
  modified : ∀ b ∈ m.modified, (mem (ed + 28) != 0) = b
  endsWithNewline : ∀ b ∈ m.fileEndsWithNewline, (mem (ed + 29) != 0) = b
  undoStack : ∀ p ∈ m.undoStack, load32 mem (ed + 32) = pointer addr p ∧ ∀ b ∈ p, StackAt addr mem b
  undoTop : ∀ i ∈ m.undoTop, (BitVec.ofNat 32 (load32 mem (ed + 36))).toInt = i
  redoStack : ∀ p ∈ m.redoStack, load32 mem (ed + 40) = pointer addr p ∧ ∀ b ∈ p, StackAt addr mem b
  redoTop : ∀ i ∈ m.redoTop, (BitVec.ofNat 32 (load32 mem (ed + 44))).toInt = i

section

variable {addr : Nat → Nat} {mem : Mem} {ed : Nat} {m : EditorMemory}

theorem LineAt.text {a : Nat} {l : Line} {t : Text} (h : LineAt addr mem a l) (hl : l.Holds t) :
    textAt mem a = t := by
  obtain ⟨id, rest, hdata, -⟩ := hl.data
  unfold textAt
  rw [h.data, h.len, hl.len, hdata]
  refine List.ext_getElem (by simp) fun k hk hk' => ?_
  rw [List.getElem_map, List.getElem_range]
  refine h.bytes _ hdata k (by simp; omega) _ (Block.get_eq_some.mpr ?_)
  rw [List.getElem?_append_left (by simpa using hk'), List.getElem?_map,
    List.getElem?_eq_getElem hk']
  rfl

theorem LinesAt.texts {b : Block Line} (h : LinesAt addr mem b) {n : Nat} {ts : List Text}
    (hholds : HoldLines (some b) n ts) :
    (List.range n).map (fun i => textAt mem (addr b.id + lineSize * i)) = ts := by
  obtain ⟨id, ls, rest, hb, hls, rfl, -⟩ := hholds
  obtain rfl := Option.some.inj hb
  refine List.ext_getElem (by simp) fun i hi hi' => ?_
  have hlen := hls.length_eq
  have hil : i < ls.length := by omega
  rw [List.getElem_map, List.getElem_range]
  refine (h i (by simp; omega) ls[i] (Block.get_eq_some.mpr ?_)).text (hls.get hil hi')
  rw [List.getElem?_append_left (by simpa using hil), List.getElem?_map,
    List.getElem?_eq_getElem hil]
  rfl

/-- **The text of the bytes** is the one that the editor holds. -/
theorem Represents.document (h : Represents addr mem ed m) {lines : Option (Block Line)} {n : Nat}
    {ts : List Text} {ends : Bool} (hlines : m.lines = some lines) (hn : m.numLines = some n)
    (hholds : HoldLines lines n ts) (hends : m.fileEndsWithNewline = some ends) :
    documentAt mem ed = ⟨ts, ends⟩ := by
  obtain ⟨hpointer, harray⟩ := h.lines lines hlines
  have hall := hholds
  obtain ⟨id, ls, rest, rfl, -⟩ := hall
  unfold documentAt
  rw [hpointer, h.numLines n hn, h.endsWithNewline ends hends]
  exact congrArg (Document.mk · ends) ((harray _ rfl).texts hholds)

end

end Pointers

end CobraOS.Snake
