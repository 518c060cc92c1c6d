import CobraOS.Base.Stack

/-!
# A part of the 32-bit x86 processor

The registers, the flags and the instructions of routines that save and restore them.  `EFlags` has
a field for every flag that `popf` can change in the kernel; the other bits of the word are constant
there, so a word that is popped is always well formed (`EFlags.ofWord_toWord`).  `exec` runs a
routine with forward jumps from one of its instructions up to `ret`.
-/

namespace Base.X86

inductive Reg
  | eax | ecx | edx | ebx | esp | ebp | esi | edi
  deriving DecidableEq

structure EFlags where
  cf : Bool
  pf : Bool
  af : Bool
  zf : Bool
  sf : Bool
  tf : Bool
  intf : Bool
  df : Bool
  ovf : Bool
  iopl : BitVec 2
  nt : Bool
  ac : Bool
  idf : Bool

/-- The word that `pushf` stores. -/
def EFlags.toWord (f : EFlags) : Word :=
  0#10 ++ BitVec.ofBool f.idf ++ 0#2 ++ BitVec.ofBool f.ac ++ 0#3 ++ BitVec.ofBool f.nt ++ f.iopl ++
    BitVec.ofBool f.ovf ++ BitVec.ofBool f.df ++ BitVec.ofBool f.intf ++ BitVec.ofBool f.tf ++
    BitVec.ofBool f.sf ++ BitVec.ofBool f.zf ++ 0#1 ++ BitVec.ofBool f.af ++ 0#1 ++
      BitVec.ofBool f.pf ++
    1#1 ++ BitVec.ofBool f.cf

/-- The flags that `popf` takes from a word. -/
def EFlags.ofWord (w : Word) : EFlags where
  cf := w.getLsbD 0
  pf := w.getLsbD 2
  af := w.getLsbD 4
  zf := w.getLsbD 6
  sf := w.getLsbD 7
  tf := w.getLsbD 8
  intf := w.getLsbD 9
  df := w.getLsbD 10
  ovf := w.getLsbD 11
  iopl := w.extractLsb' 12 2
  nt := w.getLsbD 14
  ac := w.getLsbD 18
  idf := w.getLsbD 21

theorem EFlags.iopl_toWord (f : EFlags) : f.toWord.extractLsb' 12 2 = f.iopl := by
  apply BitVec.eq_of_getLsbD_eq
  intro i hi
  have hcases : i = 0 ∨ i = 1 := by omega
  rcases hcases with rfl | rfl
  all_goals
    simp only [toWord, BitVec.getLsbD_extractLsb', BitVec.getLsbD_append]
    simp

/-- **What `pushf` stores `popf` restores.** -/
@[simp] theorem EFlags.ofWord_toWord (f : EFlags) : ofWord f.toWord = f := by
  have hiopl := f.iopl_toWord
  unfold ofWord
  rw [hiopl]
  cases f with
  | mk cf pf af zf sf tf intf df ovf iopl nt ac idf =>
    simp only [toWord, BitVec.getLsbD_append, BitVec.getLsbD_ofBool]
    simp

/-- The flags after `a - b`. -/
def EFlags.sub (f : EFlags) (a b : Word) : EFlags :=
  { f with
    cf := decide (a.toNat < b.toNat)
    pf := decide (((List.range 8).countP (fun i => (a - b).getLsbD i)) % 2 = 0)
    af := decide (a.toNat % 16 < b.toNat % 16)
    zf := decide (a = b)
    sf := (a - b).msb
    ovf := (a.msb != b.msb) && (a.msb != (a - b).msb) }

/-- `eip` is the address of the next instruction. -/
structure Machine where
  reg : Reg → Word
  eflags : EFlags
  eip : Word
  cr3 : Word
  mem : Bytes32

/-- In the order of the routine they are from; `je n` jumps over the next `n` instructions. -/
inductive Instr
  | pusha
  | pushf
  | loadAbs (r : Reg) (a : Word)
  | store (b r : Reg)
  | load (r b : Reg) (d : Word)
  | cmp (r r' : Reg)
  | je (n : Nat)
  | movCr3 (r : Reg)
  | storeAbs (a : Word) (r : Reg)
  | popf
  | popa
  | ret

namespace Machine

def set (m : Machine) (r : Reg) (w : Word) : Machine := { m with reg := Function.update m.reg r w }

/-- Words go on the stack, the last one on its top. -/
def pushAll (m : Machine) (ws : List Word) : Machine :=
  { m with
    reg := Function.update m.reg .esp (pushes (m.mem, m.reg .esp) ws).2
    mem := (pushes (m.mem, m.reg .esp) ws).1 }

theorem pushAll_append (m : Machine) (ws vs : List Word) :
    (m.pushAll ws).pushAll vs = m.pushAll (ws ++ vs) := by
  unfold pushAll pushes
  simp

theorem pushAll_esp (m : Machine) (ws : List Word) :
    (m.pushAll ws).reg .esp = m.reg .esp - BitVec.ofNat 32 (4 * ws.length) :=
  (Function.update_self Reg.esp _ m.reg).trans (pushes_sp _ _)

/-- `call`, up to the first instruction of the routine. -/
def call (m : Machine) : Machine := m.pushAll [m.eip]

/-- The registers in the order in which `pusha` stores them. -/
def registers (m : Machine) : List Word :=
  [m.reg .eax, m.reg .ecx, m.reg .edx, m.reg .ebx, m.reg .esp, m.reg .ebp, m.reg .esi, m.reg .edi]

def popf (m : Machine) : Machine :=
  { m with
    eflags := .ofWord (load m.mem (m.reg .esp))
    reg := Function.update m.reg .esp (m.reg .esp + 4) }

/-- The word for `esp` is skipped. -/
def popa (m : Machine) : Machine :=
  let sp := m.reg .esp
  { m with
    reg := fun r => match r with
      | .edi => load m.mem sp
      | .esi => load m.mem (sp + 4)
      | .ebp => load m.mem (sp + 8)
      | .ebx => load m.mem (sp + 16)
      | .edx => load m.mem (sp + 20)
      | .ecx => load m.mem (sp + 24)
      | .eax => load m.mem (sp + 28)
      | .esp => sp + 32 }

def ret (m : Machine) : Machine :=
  { m with
    eip := load m.mem (m.reg .esp)
    reg := Function.update m.reg .esp (m.reg .esp + 4) }

end Machine

/-- What an instruction does that is not a jump. -/
def Instr.effect (m : Machine) : Instr → Machine
  | .pusha => m.pushAll m.registers
  | .pushf => m.pushAll [m.eflags.toWord]
  | .loadAbs r a => m.set r (Base.load m.mem a)
  | .store b r => { m with mem := Base.store m.mem (m.reg b) (m.reg r) }
  | .load r b d => m.set r (Base.load m.mem (m.reg b + d))
  | .cmp r r' => { m with eflags := m.eflags.sub (m.reg r) (m.reg r') }
  | .movCr3 r => { m with cr3 := m.reg r }
  | .storeAbs a r => { m with mem := Base.store m.mem a (m.reg r) }
  | .popf => m.popf
  | .popa => m.popa
  | .je _ | .ret => m

/-- The rest of a routine, without its next `skip` instructions; no result if there is no `ret`. -/
def exec : List Instr → Nat → Machine → Option Machine
  | [], _, _ => none
  | _ :: is, skip + 1, m => exec is skip m
  | .ret :: _, 0, m => some m.ret
  | .je n :: is, 0, m => exec is (if m.eflags.zf then n else 0) m
  | i :: is, 0, m => exec is 0 (i.effect m)

end Base.X86
