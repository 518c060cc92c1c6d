import CobraOS.Base.X86

/-!
# Interrupts of the 32-bit x86 processor

The segment registers, the gates of the interrupt descriptor table (IDT), what the processor pushes
when it takes an interrupt, and the instructions of handlers that save the registers, call a
function, and return with `iret`.  Handlers and what they interrupt have the same privilege level,
so there is one stack.

`Cpu.interrupt` reads its gate from the table in memory.  A table is written with `writeGate`, entry
after entry, and every entry is read back (`gateAt_writeGates`).
-/

namespace Base.X86

inductive Seg
  | cs | ds | es | fs | gs
  deriving DecidableEq

/-- The processor with its segment registers. -/
structure Cpu extends Machine where
  seg : Seg → BitVec 16

/-! ### Gates -/

structure Gate where
  offset : Word
  selector : BitVec 16
  typeAttr : BitVec 8

/-- The gate is present, and a 32-bit interrupt or trap gate. -/
def Gate.valid (g : Gate) : Bool :=
  g.typeAttr.getLsbD 7 && (g.typeAttr.extractLsb' 0 5 == 0xE || g.typeAttr.extractLsb' 0 5 == 0xF)

/-- An interrupt gate turns interrupts off. -/
def Gate.masks (g : Gate) : Bool := g.typeAttr.extractLsb' 0 5 == 0xE

/-- The least privilege that may use the gate with `int`. -/
def Gate.dpl (g : Gate) : BitVec 2 := g.typeAttr.extractLsb' 5 2

/-- The two words of an entry. -/
def Gate.words (g : Gate) : Word × Word :=
  (g.selector ++ g.offset.extractLsb' 0 16, g.offset.extractLsb' 16 16 ++ g.typeAttr ++ 0#8)

def Gate.ofWords (low high : Word) : Gate :=
  ⟨high.extractLsb' 16 16 ++ low.extractLsb' 0 16, low.extractLsb' 16 16, high.extractLsb' 8 8⟩

/-- **A gate is read back from its words.** -/
theorem Gate.ofWords_words (g : Gate) : ofWords g.words.1 g.words.2 = g := by
  obtain ⟨offset, selector, typeAttr⟩ := g
  unfold ofWords words
  simp only [Gate.mk.injEq]
  refine ⟨?_, ?_, ?_⟩
  all_goals
    refine BitVec.eq_of_getLsbD_eq fun i hi => ?_
    simp only [BitVec.getLsbD_append, BitVec.getLsbD_extractLsb']
    grind

/-- The address of an entry. -/
def entry (idt : Word) (v : Nat) : Word := idt + BitVec.ofNat 32 (8 * v)

def gateAt (mem : Bytes32) (idt : Word) (v : Nat) : Gate :=
  .ofWords (load mem (entry idt v)) (load mem (entry idt v + 4))

def writeGate (idt : Word) (mem : Bytes32) (v : Nat) (g : Gate) : Bytes32 :=
  store (store mem (entry idt v) g.words.1) (entry idt v + 4) g.words.2

/-- The first `n` entries, one after the other. -/
def writeGates (idt : Word) (g : Nat → Gate) (n : Nat) (mem : Bytes32) : Bytes32 :=
  (List.range n).foldl (fun mem v => writeGate idt mem v (g v)) mem

section

variable {idt : Word} {mem : Bytes32} {v v' n : Nat} {g : Gate}

theorem words_disjoint {i j : Nat} (h : i + 4 ≤ j) (hj : j + 4 ≤ 4294967296) (a : Word) :
    Disjoint (range (a + BitVec.ofNat 32 i) 4) (range (a + BitVec.ofNat 32 j) 4) :=
    range_add_disjoint h hj

theorem gateAt_writeGate : gateAt (writeGate idt mem v g) idt v = g := by
  have hparts : Disjoint (range (entry idt v) 4) (range (entry idt v + 4) 4) := by
    have hw := words_disjoint (i := 0) (j := 4) (by decide) (by decide) (entry idt v)
    rwa [show entry idt v + BitVec.ofNat 32 0 = entry idt v by simp] at hw
  unfold gateAt writeGate
  rw [load_store, load_store_of_disjoint _ hparts, load_store, Gate.ofWords_words]

theorem gateAt_writeGate_ne (hv : v < 256) (hv' : v' < 256) (hne : v ≠ v') :
    gateAt (writeGate idt mem v g) idt v' = gateAt mem idt v' := by
  have hfour : ∀ u, entry idt u + 4 = idt + BitVec.ofNat 32 (8 * u + 4) := fun u => by
    unfold entry
    bv_omega
  have happart : ∀ i j, i + 4 ≤ j ∨ j + 4 ≤ i → i < 2048 → j < 2048 →
      Disjoint (range (idt + BitVec.ofNat 32 i) 4) (range (idt + BitVec.ofNat 32 j) 4) := by
    rintro i j (h | h) hi hj
    · exact words_disjoint h (by omega) idt
    · exact (words_disjoint h (by omega) idt).symm
  unfold gateAt writeGate
  rw [hfour, hfour]
  unfold entry
  rw [load_store_of_disjoint _ (happart _ _ (by omega) (by omega) (by omega)),
    load_store_of_disjoint _ (happart _ _ (by omega) (by omega) (by omega)),
    load_store_of_disjoint _ (happart _ _ (by omega) (by omega) (by omega)),
    load_store_of_disjoint _ (happart _ _ (by omega) (by omega) (by omega))]

theorem writeGates_succ (f : Nat → Gate) (n : Nat) (mem : Bytes32) :
    writeGates idt f (n + 1) mem = writeGate idt (writeGates idt f n mem) n (f n) := by
  unfold writeGates
  rw [List.range_succ, List.foldl_append]
  rfl

/-- **Every entry that was written is read back.** -/
theorem gateAt_writeGates (f : Nat → Gate) (mem : Bytes32) (hn : n ≤ 256) (hv : v < n) :
    gateAt (writeGates idt f n mem) idt v = f v := by
  induction n with
  | zero => omega
  | succ n ih =>
    rw [writeGates_succ]
    by_cases h : v = n
    · subst h
      exact gateAt_writeGate
    · rw [gateAt_writeGate_ne (by omega) (by omega) (Ne.symm h), ih (by omega) (by omega)]

end

/-! ### Taking an interrupt and returning -/

/-- The register of the IDT. -/
structure Idtr where
  limit : BitVec 16
  base : Word

namespace Cpu

def push (c : Cpu) (ws : List Word) : Cpu := { c with toMachine := c.toMachine.pushAll ws }

def setReg (c : Cpu) (r : Reg) (w : Word) : Cpu := { c with toMachine := c.toMachine.set r w }

def setSeg (c : Cpu) (s : Seg) (w : BitVec 16) : Cpu := { c with seg := Function.update c.seg s w }

/-- A selector on the stack takes a word. -/
def selectorWord (w : BitVec 16) : Word := w.zeroExtend 32

/-- The processor takes an interrupt; some have an error code. -/
def interrupt (c : Cpu) (r : Idtr) (v : Nat) (error : Option Word) : Option Cpu :=
  let g := gateAt c.mem r.base v
  if 8 * v + 7 ≤ r.limit.toNat ∧ g.valid = true then
    let pushed := c.push ([c.eflags.toWord, selectorWord (c.seg .cs), c.eip] ++ error.toList)
    some { pushed with
      eflags := { c.eflags with tf := false, nt := false, intf := !g.masks && c.eflags.intf }
      eip := g.offset
      seg := Function.update c.seg .cs g.selector }
  else none

/-- `iret` to the same privilege level. -/
def iret (c : Cpu) : Cpu :=
  let sp := c.reg .esp
  { c with
    eip := load c.mem sp
    eflags := .ofWord (load c.mem (sp + 8))
    reg := Function.update c.reg .esp (sp + 12)
    seg := Function.update c.seg .cs ((load c.mem (sp + 4)).extractLsb' 0 16) }

end Cpu

/-- The instructions of handlers; `call` is a call of the function that the handler is for. -/
inductive IntInstr
  | cli
  | push (w : Word)
  | pusha
  | pushSeg (s : Seg)
  | movAx (w : BitVec 16)
  | movSeg (s : Seg)
  | pushEsp
  | call
  | addEsp (w : Word)
  | popSeg (s : Seg)
  | popa
  | iret

/-- The flags after `a + b`. -/
def EFlags.add (f : EFlags) (a b : Word) : EFlags :=
  { f with
    cf := decide (2 ^ 32 ≤ a.toNat + b.toNat)
    pf := decide (((List.range 8).countP (fun i => (a + b).getLsbD i)) % 2 = 0)
    af := decide (16 ≤ a.toNat % 16 + b.toNat % 16)
    zf := decide (a + b = 0)
    sf := (a + b).msb
    ovf := (a.msb == b.msb) && (a.msb != (a + b).msb) }

/-- What an instruction does that is neither `call` nor `iret`. -/
def IntInstr.effect (c : Cpu) : IntInstr → Cpu
  | .cli => { c with eflags := { c.eflags with intf := false } }
  | .push w => c.push [w]
  | .pusha => c.push c.registers
  | .pushSeg s => c.push [Cpu.selectorWord (c.seg s)]
  | .movAx w => c.setReg .eax ((c.reg .eax).extractLsb' 16 16 ++ w)
  | .movSeg s => c.setSeg s ((c.reg .eax).extractLsb' 0 16)
  | .pushEsp => c.push [c.reg .esp]
  | .addEsp w => { c.setReg .esp (c.reg .esp + w) with eflags := c.eflags.add (c.reg .esp) w }
  | .popSeg s =>
    (c.setSeg s ((load c.mem (c.reg .esp)).extractLsb' 0 16)).setReg .esp (c.reg .esp + 4)
  | .popa => { c with toMachine := c.toMachine.popa }
  | .call | .iret => c

/-- A handler up to its `iret`; no result if there is none, or if the function does not come
back. -/
def handle (f : Cpu → Option Cpu) : List IntInstr → Cpu → Option Cpu
  | [], _ => none
  | .iret :: _, c => some c.iret
  | .call :: is, c => (f c).bind (handle f is)
  | i :: is, c => handle f is (i.effect c)

end Base.X86
