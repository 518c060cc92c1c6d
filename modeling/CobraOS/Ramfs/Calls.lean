import CobraOS.Ramfs.Model

/-!
# Runs of calls to the file system

The calls that programs make once `ramfs_init` has created the root.  Nodes that are passed are live
and files are open; what a call does with the node of an open file that has been deleted meanwhile
is not excluded.
-/

namespace CobraOS.Ramfs

open Base

inductive Call
  | create (parent : Nat) (name : Bytes) (type : Nat) (answer : Option Nat)
  | delete (node : Nat)
  | open (node flags : Nat) (answer : Option Nat)
  | read (file size : Nat)
  | write (file : Nat) (buffer : Bytes) (answer : Option Nat)
  | close (file : Nat)

/-- The state after a call. -/
def call (fs : Fs) : Call → Option Fs
  | .create parent name type answer => (ramfsCreate fs (some parent) name type answer).map Prod.snd
  | .delete node => (ramfsDelete fs (some node)).map Prod.snd
  | .open node flags answer => (ramfsOpen fs (some node) flags answer).map Prod.snd
  | .read file size => (ramfsRead fs (some file) size).map (fun r => r.2.2)
  | .write file buffer answer => (ramfsWrite fs (some file) buffer answer).map Prod.snd
  | .close file => ramfsClose fs (some file)

def Allowed (fs : Fs) : Call → Prop
  | .create parent _ _ _ => (fs.nodes parent).isSome
  | .delete node => (fs.nodes node).isSome
  | .open node _ _ => (fs.nodes node).isSome
  | .read file _ => (fs.files file).isSome
  | .write file _ _ => (fs.files file).isSome
  | .close file => (fs.files file).isSome

/-- The file system before `ramfs_init`. -/
def empty : Fs := ⟨fun _ => none, fun _ => none, fun _ => none, none, none⟩

/-- The runs that start when `ramfs_init` has been given memory for the root. -/
def calls : System Fs Call where
  init fs := ∃ a < 4294967296, fs = ramfsInit empty (some a)
  step fs c fs' := Allowed fs c ∧ call fs c = some fs'

end CobraOS.Ramfs
