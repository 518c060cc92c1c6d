import CobraOS.Base.Chain
import CobraOS.Base.System
import CobraOS.Base.Word
import CobraOS.Heap.Alloc

/-!
# The file system, `arch/x86/fs/ramfs.c`

Nodes, open files and buffers of data are known by their addresses, and an address without one has
been freed or was never allocated.  A function that follows a pointer to such an address, or
accesses a buffer outside its bounds, has no result.  The functions follow the source statement by
statement; what `kmalloc` answers is a parameter of the functions that call it.

Texts and file contents are lists of bytes, texts without their zero byte.  `vfs_resolve_path` also
returns what it prints, and how it is printed (`Print`).
-/

namespace CobraOS.Ramfs

open Base

abbrev Bytes := List UInt8

def text (s : String) : Bytes := s.toList.map (fun c => UInt8.ofNat c.toNat)

/-- What is printed: a text that is the format of `viprint`, characters for `cprint`, or a buffer
with digits that is given to `viprint` as well although there is no zero byte behind them. -/
inductive Print
  | viprint (format : Bytes)
  | cprint (chars : Bytes)
  | lenbuf (digits : Bytes)
  deriving DecidableEq

def say (s : String) : Print := .viprint (text s)

/-- `'/'` -/
def slash : UInt8 := 47

/-- `FS_FILE` -/
def fsFile : Nat := 1

/-- `FS_DIRECTORY` -/
def fsDirectory : Nat := 2

/-- `O_READ` -/
def oRead : Nat := 1

/-- `O_WRITE` -/
def oWrite : Nat := 2

/-- `O_APPEND` -/
def oAppend : Nat := 4

/-- `sizeof(vfs_node_t)` -/
def nodeBytes : Nat := 292

/-- `sizeof(vfs_file_t)` -/
def fileBytes : Nat := 12

/-- `VFS_NAME_MAX` -/
def vfsNameMax : Nat := 255

/-- `flags & bit` -/
def hasFlag (flags bit : Nat) : Bool := flags &&& bit != 0

/-- `vfs_node_t`.  The three function pointers are always those that `create_vfs_node` sets. -/
structure VfsNode where
  name : Bytes
  type : Nat
  size : Nat
  data : Option Nat
  parent : Option Nat
  children : Option Nat
  next : Option Nat

/-- `vfs_file_t` -/
structure VfsFile where
  node : Nat
  flags : Nat
  position : Nat

/-- What `kmalloc` can grant. -/
def maxRequest : Nat := 4194288

/-- The heap grants no other requests. -/
theorem heap_grants {h h' : Heap.State} {n p : Nat} (hr : Heap.kmalloc h n = .ok (p, h'))
    (hp : p ≠ 0) : 0 < n ∧ n ≤ maxRequest := Heap.kmalloc_le hr hp

/-- The nodes, the open files and the buffers by address, `ramfs_root` and `ramfs_cwd`. -/
structure Fs where
  nodes : Nat → Option VfsNode
  files : Nat → Option VfsFile
  buffers : Nat → Option Bytes
  root : Option Nat
  cwd : Option Nat

namespace Fs

def setNode (fs : Fs) (a : Nat) (n : VfsNode) : Fs :=
  { fs with nodes := Function.update fs.nodes a (some n) }

/-- A write to fields of the node at `a`. -/
def modify (fs : Fs) (a : Nat) (f : VfsNode → VfsNode) : Option Fs := do
  let n ← fs.nodes a
  some (fs.setNode a (f n))

def setFile (fs : Fs) (a : Nat) (f : Option VfsFile) : Fs :=
  { fs with files := Function.update fs.files a f }

def setBuffer (fs : Fs) (d : Nat) (b : Option Bytes) : Fs :=
  { fs with buffers := Function.update fs.buffers d b }

/-- `kfree(node)` -/
def freeNode (fs : Fs) (a : Nat) : Fs := { fs with nodes := Function.update fs.nodes a none }

/-- `if (data) kfree(data);`, for a buffer that has not been freed. -/
def freeData (fs : Fs) (data : Option Nat) : Option Fs :=
  match data with
  | none => some fs
  | some d => if (fs.buffers d).isSome then some (fs.setBuffer d none) else none

/-- What `kmalloc(size)` answers: it never gives memory that is in use. -/
def granted (fs : Fs) (size : Nat) (answer : Option Nat) : Option Nat :=
  answer.filter (fun a => decide (0 < size ∧ size ≤ maxRequest ∧ a < 4294967296) &&
    (fs.nodes a).isNone && (fs.files a).isNone && (fs.buffers a).isNone)

end Fs

/-- The `next` pointers of the nodes. -/
def links (fs : Fs) (a : Nat) : Option Nat := (fs.nodes a).bind VfsNode.next

/-- More than there are addresses. -/
def nodeFuel : Nat := 4294967297

/-- The walk along a list of children to the first that meets `stop`, and the one before it. -/
def walk (fs : Fs) (stop : Nat → VfsNode → Bool) : Nat → Option Nat → Option Nat →
    Option (Option Nat × Option Nat)
  | _, prev, none => some (prev, none)
  | 0, _, some _ => none
  | fuel + 1, prev, some cur => do
    let n ← fs.nodes cur
    if stop cur n then some (prev, some cur) else walk fs stop fuel (some cur) n.next

/-! ### Nodes -/

def createVfsNode (name : Bytes) (type : Nat) : VfsNode where
  name := name.take vfsNameMax
  type := type
  size := 0
  data := none
  parent := none
  children := none
  next := none

/-- The bytes of a buffer that `memcpy` reads, if any. -/
def readData (fs : Fs) (data : Option Nat) (offset size : Nat) : Option Bytes :=
  if size = 0 then some []
  else do
    let d ← data
    let bytes ← fs.buffers d
    if offset + size ≤ bytes.length then some ((bytes.drop offset).take size) else none

def defaultRead (fs : Fs) (node offset size : Nat) : Option (Int × Bytes) := do
  let n ← fs.nodes node
  if !hasFlag n.type fsFile then some (-1, [])
  else if n.size ≤ offset then some (0, [])
  else
    let size := if n.size < (offset + size) % 4294967296 then n.size - offset else size
    if size = 0 then some (0, [])
    else do
      let bytes ← readData fs n.data offset size
      some (wint size, bytes)

/-- `if (new_size > node->size) { ... }`; `answer` is that of `kmalloc`. -/
def expand (fs : Fs) (node : Nat) (n : VfsNode) (newSize : Nat) (answer : Option Nat) :
    Option (Bool × Fs) :=
  if n.size < newSize then
    match fs.granted newSize answer with
    | none => some (false, fs)
    | some d => do
      let old ← readData fs n.data 0 n.size
      let fs ← fs.freeData n.data
      let fs := fs.setBuffer d (some (old ++ List.replicate (newSize - n.size) 0))
      some (true, fs.setNode node { n with data := some d, size := newSize })
  else some (true, fs)

/-- `memcpy(node->data + offset, buffer, size)` -/
def writeData (fs : Fs) (data : Option Nat) (offset : Nat) (buffer : Bytes) : Option Fs :=
  if buffer = [] then some fs
  else do
    let d ← data
    let bytes ← fs.buffers d
    if offset + buffer.length ≤ bytes.length then
      some (fs.setBuffer d
        (some (bytes.take offset ++ buffer ++ bytes.drop (offset + buffer.length))))
    else none

/-- The buffer has the length `size`. -/
def defaultWrite (fs : Fs) (node offset : Nat) (buffer : Bytes) (answer : Option Nat) :
    Option (Int × Fs) := do
  let n ← fs.nodes node
  if !hasFlag n.type fsFile then some (-1, fs)
  else do
    let (grown, fs) ← expand fs node n ((offset + buffer.length) % 4294967296) answer
    if grown then do
      let n ← fs.nodes node
      let fs ← writeData fs n.data offset buffer
      some (wint buffer.length, fs)
    else some (-1, fs)

def defaultFinddir (fs : Fs) (node : Nat) (name : Bytes) : Option (Option Nat) := do
  let n ← fs.nodes node
  if !hasFlag n.type fsDirectory then some none
  else do
    let (_, child) ← walk fs (fun _ c => c.name == name) nodeFuel none n.children
    some child

/-- `child` is a node that is not yet in the tree. -/
def addChild (fs : Fs) (parent child : Nat) (c : VfsNode) : Option Fs := do
  let p ← fs.nodes parent
  (fs.setNode child { c with parent := some parent, next := p.children }).modify parent
    (fun p => { p with children := some child })

/-- `if (prev) prev->next = cur->next; else parent->children = cur->next;` -/
def unlink (fs : Fs) (parent : Nat) (prev next : Option Nat) : Option Fs :=
  match prev with
  | some q => fs.modify q (fun n => { n with next := next })
  | none => fs.modify parent (fun n => { n with children := next })

def removeChild (fs : Fs) (child : Nat) : Option Fs := do
  let c ← fs.nodes child
  match c.parent with
  | none => some fs
  | some parent => do
    let p ← fs.nodes parent
    let (prev, cur) ← walk fs (fun a _ => a == child) nodeFuel none p.children
    match cur with
    | none => some fs
    | some _ => do
      let fs ← unlink fs parent prev c.next
      fs.modify child (fun n => { n with parent := none, next := none })

/-! ### The interface -/

def ramfsFind (fs : Fs) (dir : Option Nat) (name : Bytes) : Option (Option Nat) :=
  match dir with
  | none => some none
  | some dir => defaultFinddir fs dir name

def ramfsCreate (fs : Fs) (parent : Option Nat) (name : Bytes) (type : Nat) (answer : Option Nat) :
    Option (Int × Fs) :=
  match parent with
  | none => some (-1, fs)
  | some parent => do
    let p ← fs.nodes parent
    if !hasFlag p.type fsDirectory then some (-1, fs)
    else do
      let found ← ramfsFind fs (some parent) name
      if found.isSome then some (-2, fs)
      else
        match fs.granted nodeBytes answer with
        | none => some (-3, fs)
        | some a => do
          let fs ← addChild fs parent a (createVfsNode name type)
          some (0, fs)

def ramfsDelete (fs : Fs) (node : Option Nat) : Option (Int × Fs) :=
  match node with
  | none => some (-1, fs)
  | some a =>
    if node = fs.root then some (-1, fs)
    else do
      let n ← fs.nodes a
      if hasFlag n.type fsDirectory && n.children.isSome then some (-2, fs)
      else do
        let fs ← fs.freeData n.data
        let fs := fs.setNode a { n with data := none }
        let fs ← removeChild fs a
        some (0, fs.freeNode a)

def ramfsOpen (fs : Fs) (node : Option Nat) (flags : Nat) (answer : Option Nat) :
    Option (Option Nat × Fs) :=
  match node with
  | none => some (none, fs)
  | some node => do
    let n ← fs.nodes node
    if !hasFlag n.type fsFile then some (none, fs)
    else
      match fs.granted fileBytes answer with
      | none => some (none, fs)
      | some f =>
        some (some f,
          fs.setFile f (some ⟨node, flags, if hasFlag flags oAppend then n.size else 0⟩))

def ramfsClose (fs : Fs) (file : Option Nat) : Option Fs :=
  match file with
  | none => some fs
  | some f => do
    let _ ← fs.files f
    some (fs.setFile f none)

/-- `file->position += n`, when `n` is positive. -/
def advance (fs : Fs) (f : Nat) (file : VfsFile) (n : Int) : Fs :=
  if 0 < n then fs.setFile f (some { file with position := (file.position + n.toNat) % 4294967296 })
  else fs

def ramfsRead (fs : Fs) (file : Option Nat) (size : Nat) : Option (Int × Bytes × Fs) :=
  match file with
  | none => some (-1, [], fs)
  | some f => do
    let file ← fs.files f
    if !hasFlag file.flags oRead then some (-1, [], fs)
    else do
      let (n, bytes) ← defaultRead fs file.node file.position size
      some (n, bytes, advance fs f file n)

def ramfsWrite (fs : Fs) (file : Option Nat) (buffer : Bytes) (answer : Option Nat) :
    Option (Int × Fs) :=
  match file with
  | none => some (-1, fs)
  | some f => do
    let file ← fs.files f
    if !hasFlag file.flags oWrite then some (-1, fs)
    else do
      let (n, fs) ← defaultWrite fs file.node file.position buffer answer
      some (n, advance fs f file n)

/-! ### Paths -/

/-- `while (value > 0) { tmp[len++] = '0' + (value % 10); value /= 10; }` -/
def tmpDigits : Nat → Int → Bytes
  | 0, _ => []
  | fuel + 1, value =>
    if 0 < value then UInt8.ofNat (48 + (value % 10).toNat) :: tmpDigits fuel (value / 10) else []

/-- `int_to_str`: what it writes, without a zero byte.  An `int` has at most ten digits. -/
def intToStr (value : Int) : Bytes := if value = 0 then [48] else (tmpDigits 16 value).reverse

/-- One component of a path: the node it leads to and what is printed. -/
def stepInto (fs : Fs) (current : Nat) (token : Bytes) : Option (List Print × Option Nat) :=
  if token = text "." then some ([], some current)
  else if token = text ".." then do
    let n ← fs.nodes current
    match n.parent with
    | some parent => do
      let p ← fs.nodes parent
      some ([say "vfs_resolve_path: .. -> '", .viprint p.name, say "'\n"], some parent)
    | none => some ([say "vfs_resolve_path: .. but no parent, stay at root\n"], some current)
  else do
    let child ← defaultFinddir fs current token
    some ([], child)

/-- The loop of `vfs_resolve_path` at `p`, where a component starts.  The length of `p` is fuel
enough. -/
def resolveLoop (fs : Fs) : Nat → Nat → Bytes → Option (List Print × Option Nat)
  | _, current, [] => some ([], some current)
  | 0, _, _ :: _ => none
  | fuel + 1, current, p@(_ :: _) =>
    let token := p.takeWhile (· != slash)
    let rest := p.dropWhile (· != slash)
    if token = [] then resolveLoop fs fuel current (rest.drop 1)
    else if vfsNameMax < token.length then
      some ([say "vfs_resolve_path: token too long (",
        .lenbuf (intToStr (BitVec.ofNat 32 token.length).toInt), say ")\n"], none)
    else do
      let (printed, next) ← stepInto fs current token
      match next with
      | none => some (printed, none)
      | some next => do
        let (printed', result) ← resolveLoop fs fuel next (rest.dropWhile (· == slash))
        some (printed ++ printed', result)

def vfsResolvePath (fs : Fs) (root : Option Nat) (path : Bytes) (cwd : Option Nat) :
    Option (List Print × Option Nat) :=
  match root with
  | none => some ([say "vfs_resolve_path: root is NULL\n"], none)
  | some root =>
    if path = [] then some ([say "vfs_resolve_path: path empty\n"], none)
    else
      let current := if path.head? = some slash then root else cwd.getD root
      let p := path.dropWhile (· == slash)
      if p = [] then some ([say "vfs_resolve_path: path is root only\n"], some current)
      else resolveLoop fs p.length current p

def ramfsSetCwd (fs : Fs) (dir : Option Nat) : Fs := { fs with cwd := dir }

def ramfsResolve (fs : Fs) (path : Bytes) : Option (List Print × Option Nat) :=
  vfsResolvePath fs fs.root path fs.cwd

/-- `ramfs_init` before which there is no root. -/
def ramfsInit (fs : Fs) (answer : Option Nat) : Fs :=
  if fs.root.isSome then fs
  else
    match fs.granted nodeBytes answer with
    | none => fs
    | some a => { fs.setNode a (createVfsNode (text "/") fsDirectory) with root := some a }

end CobraOS.Ramfs
