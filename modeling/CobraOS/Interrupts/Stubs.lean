import CobraOS.Base.Gate
import CobraOS.Interrupts.Eoi

/-!
# The way into the dispatcher and back, `arch/x86/cpu/irq_stubs.asm` and the IDT

`init_ints` makes an entry of the IDT for each of the 256 stubs.  A stub pushes a zero where the
processor has pushed no error code, and its vector; `isr_common` pushes the registers, so the
dispatcher finds a `struct registers` on the stack (`Entered`), whatever the vector.  On the way
back everything is popped again: the interrupted program goes on with the registers that it had, but
for `eax` after a system call (`interrupt_returns`).

The dispatcher is compiled code, of which the calling convention and what `interrupt_dispatch` does
to the `struct registers` are used (`Dispatched`).
-/

namespace CobraOS.Interrupts

open Base Base.X86

variable {σ : Type}

/-! ### The IDT, `interrupts.c` -/

/-- `IDT_SIZE` -/
def idtSize : Nat := 256

/-- `INT_GATE` -/
def intGate : BitVec 8 := 0x8E

/-- `TRAP_GATE` -/
def trapGate : BitVec 8 := 0x8F

/-- `DPL3` -/
def dpl3 : BitVec 8 := 0x60

/-- What `set_idt_entry` puts into an entry; the selector is `0x08`. -/
def idtEntry (handler : Word) (typeAttr : BitVec 8) : Gate where
  offset := handler
  selector := 0x08
  typeAttr := typeAttr

/-- The attribute that `init_ints` gives an entry. -/
def attr (i : Nat) : BitVec 8 :=
  let attr := if i = 3 then trapGate ||| dpl3 else intGate
  if i = syscallVector.toNat then intGate ||| dpl3 else attr

/-- The loop of `init_ints`; `isrStubTable` is `isr_stub_table`. -/
def setIdtEntries (isrStubTable : Nat → Word) (idt : Word) (mem : Bytes32) : Bytes32 :=
  writeGates idt (fun i => idtEntry (isrStubTable i) (attr i)) idtSize mem

/-- `load_idt` -/
def idtp (idt : Word) : Idtr := ⟨BitVec.ofNat 16 (8 * idtSize - 1), idt⟩

/-! ### The stubs -/

/-- The vectors of `ISR_ERR`. -/
def errorVectors : List Nat := [8, 10, 11, 12, 13, 14, 17, 21, 29]

/-- A stub up to its jump. -/
def isr (v : Nat) : List IntInstr :=
  if v ∈ errorVectors then [.cli, .push (BitVec.ofNat 32 v)]
    else [.cli, .push 0, .push (BitVec.ofNat 32 v)]

def isrCommon : List IntInstr :=
  [.pusha, .pushSeg .ds, .pushSeg .es, .pushSeg .fs, .pushSeg .gs,
    .movAx 0x10, .movSeg .ds, .movSeg .es, .movSeg .fs, .movSeg .gs,
    .pushEsp, .call, .addEsp 4,
    .popSeg .gs, .popSeg .fs, .popSeg .es, .popSeg .ds, .popa,
    .addEsp 8, .iret]

/-- The words of `struct registers`, in the order of its fields up to `eflags`. -/
def frame (c : Cpu) (v : Nat) (error : Word) : List Word :=
  [Cpu.selectorWord (c.seg .gs), Cpu.selectorWord (c.seg .fs), Cpu.selectorWord (c.seg .es),
    Cpu.selectorWord (c.seg .ds), c.reg .edi, c.reg .esi, c.reg .ebp, c.reg .esp - 20, c.reg .ebx,
      c.reg .edx,
    c.reg .ecx, c.reg .eax, BitVec.ofNat 32 v, error, c.eip, Cpu.selectorWord (c.seg .cs),
      c.eflags.toWord]

/-- The fields of the `struct registers` at an address that the dispatcher uses. -/
def registersAt (mem : Bytes32) (r : Word) : Registers where
  intNo := ⟨load mem (r + 48)⟩
  eax := ⟨load mem (r + 44)⟩
  ebx := ⟨load mem (r + 32)⟩
  ecx := ⟨load mem (r + 40)⟩
  edx := ⟨load mem (r + 36)⟩
  esi := ⟨load mem (r + 20)⟩

/-- The registers of a processor that takes an interrupt, as the dispatcher gets them. -/
def registersOf (c : Cpu) (v : Nat) : Registers :=
  ⟨⟨BitVec.ofNat 32 v⟩, ⟨c.reg .eax⟩, ⟨c.reg .ebx⟩, ⟨c.reg .ecx⟩, ⟨c.reg .edx⟩, ⟨c.reg .esi⟩⟩

/-- The state in which the dispatcher is called for an interrupt of `c`. -/
structure Entered (c : Cpu) (v : Nat) (error : Word) (e : Cpu) : Prop where
  esp : e.reg .esp = c.reg .esp - 72
  argument : load e.mem (e.reg .esp) = c.reg .esp - 68
  words : words e.mem (c.reg .esp - 68) 17 = frame c v error
  out : ∀ x, x ∉ range (c.reg .esp - 72) 72 → e.mem x = c.mem x
  seg : ∀ s, s ≠ .cs → e.seg s = 0x10
  masked : e.eflags.intf = false
  cr3 : e.cr3 = c.cr3

/-- The dispatcher was called in `e` and has come back in `d`: with the stack pointer that it was
called with, with the `struct registers` as it was but for `eax`, and it has done what
`interrupt_dispatch` does. -/
structure Dispatched (handlers : Nat → Option (Handler σ)) (table : SyscallTable) (k k' : Kernel σ)
    (r : Word) (e d : Cpu) : Prop where
  esp : d.reg .esp = e.reg .esp
  kept : ∀ x ∈ range r 68, x ∉ range (r + 44) 4 → d.mem x = e.mem x
  result : ∃ i regs, i.regs = registersAt e.mem r ∧ interruptDispatch handlers table k i =
    some (k', regs) ∧
    load d.mem (r + 44) = regs.eax.toBitVec

variable {c d e : Cpu} {v : Nat} {error : Word}

theorem words_get {mem : Bytes32} {a : Word} {n i : Nat} (hi : i < n) :
    (words mem a n)[i]? = some (load mem (a + BitVec.ofNat 32 (4 * i))) := by
  induction n generalizing a i with
  | zero => omega
  | succ n ih =>
    cases i with
    | zero =>
      show some (load mem a) = _
      simp
    | succ i =>
      show (words mem (a + 4) n)[i]? = _
      rw [ih (by omega), show a + 4 + BitVec.ofNat 32 (4 * i) =
        a + BitVec.ofNat 32 (4 * (i + 1)) by bv_omega]

/-! ### In -/

/-- The stack of `c` with words pushed on it, and the registers of `c`. -/
structure Pushed (c : Cpu) (ws : List Word) (s : Cpu) : Prop where
  stack : (s.mem, s.reg .esp) = pushes (c.mem, c.reg .esp) ws
  reg : ∀ r, r ≠ .esp → s.reg r = c.reg r
  seg : ∀ g, g ≠ .cs → s.seg g = c.seg g
  cr3 : s.cr3 = c.cr3

variable {s : Cpu} {ws : List Word}

theorem Pushed.push (h : Pushed c ws s) (vs : List Word) : Pushed c (ws ++ vs) (s.push vs) := by
  refine ⟨?_, fun r hr => ?_, h.seg, h.cr3⟩
  · have hesp : (s.push vs).reg .esp = (pushes (s.mem, s.reg .esp) vs).2 :=
      Function.update_self Reg.esp _ s.reg
    rw [hesp]
    show ((pushes (s.mem, s.reg .esp) vs).1, _) = _
    rw [h.stack]
    unfold pushes
    rw [List.foldl_append]
  · exact (Function.update_of_ne hr _ _).trans (h.reg r hr)

theorem Pushed.esp (h : Pushed c ws s) :
    s.reg .esp = c.reg .esp - BitVec.ofNat 32 (4 * ws.length) := by
  have hsp := congrArg Prod.snd h.stack
  rw [pushes_sp] at hsp
  exact hsp

theorem Pushed.registers (h : Pushed c ws s) :
    s.registers = [c.reg .eax, c.reg .ecx, c.reg .edx, c.reg .ebx,
    c.reg .esp - BitVec.ofNat 32 (4 * ws.length), c.reg .ebp, c.reg .esi, c.reg .edi] := by
  unfold Machine.registers
  rw [h.esp, h.reg .eax (by decide), h.reg .ecx (by decide), h.reg .edx (by decide),
    h.reg .ebx (by decide), h.reg .ebp (by decide), h.reg .esi (by decide), h.reg .edi (by decide)]

theorem Pushed.pusha (h : Pushed c ws s) :
    Pushed c (ws ++ [c.reg .eax, c.reg .ecx, c.reg .edx, c.reg .ebx,
    c.reg .esp - BitVec.ofNat 32 (4 * ws.length), c.reg .ebp, c.reg .esi, c.reg .edi])
      (IntInstr.effect s .pusha) := by
  have hregisters := h.registers
  rw [show IntInstr.effect s .pusha = s.push _ from congrArg s.push hregisters]
  exact h.push _

theorem Pushed.pushSeg (h : Pushed c ws s) {g : Seg} (hg : g ≠ .cs) :
    Pushed c (ws ++ [Cpu.selectorWord (c.seg g)]) (IntInstr.effect s (.pushSeg g)) := by
  rw [← h.seg g hg]
  exact h.push _

/-- From the first instruction of the stub to the call. -/
def enter (v : Nat) (c : Cpu) : Cpu := (isr v ++ isrCommon.take 11).foldl IntInstr.effect c

/-- From the call to `iret`. -/
def leave : List IntInstr := isrCommon.drop 12

theorem handle_stub (f : Cpu → Option Cpu) (v : Nat) (c : Cpu) :
    handle f (isr v ++ isrCommon) c = (f (enter v c)).bind (handle f leave) := by
  unfold enter isr
  split <;> rfl

/-- What is on the stack when `isr_common` begins. -/
theorem isr_pushed
    (h : Pushed c ([c.eflags.toWord, Cpu.selectorWord (c.seg .cs), c.eip] ++ if v ∈
    errorVectors then
    [error] else []) s) (herror : v ∉ errorVectors → error = 0) : Pushed c
      [c.eflags.toWord, Cpu.selectorWord (c.seg .cs), c.eip, error, BitVec.ofNat 32 v]
      ((isr v).foldl IntInstr.effect s) := by
  have hcli : ∀ {ws s}, Pushed c ws s → Pushed c ws (IntInstr.effect s .cli) :=
    fun h => ⟨h.stack, h.reg, h.seg, h.cr3⟩
  unfold isr
  by_cases hv : v ∈ errorVectors
  · rw [if_pos hv] at h ⊢
    exact (hcli h).push [BitVec.ofNat 32 v]
  · rw [if_neg hv] at h ⊢
    rw [herror hv]
    exact ((hcli h).push [0]).push [BitVec.ofNat 32 v]

/-- The first five instructions of `isr_common`. -/
theorem saves
    (h : Pushed c [c.eflags.toWord, Cpu.selectorWord (c.seg .cs), c.eip, error,
      BitVec.ofNat 32 v] s) :
    ∃ s', [.pusha, .pushSeg .ds, .pushSeg .es, .pushSeg .fs, .pushSeg .gs].foldl
        IntInstr.effect s = s' ∧
      Pushed c (frame c v error).reverse s' ∧ s'.eflags = s.eflags := by
  have hds := h.pusha.pushSeg (g := .ds) (by decide)
  have hes := hds.pushSeg (g := .es) (by decide)
  have hfs := hes.pushSeg (g := .fs) (by decide)
  exact ⟨_, rfl, hfs.pushSeg (g := .gs) (by decide), rfl⟩

theorem low_append (w : BitVec 16) : (w ++ (0x10 : BitVec 16)).extractLsb' 0 16 = 0x10 := by
  refine BitVec.eq_of_getLsbD_eq fun i hi => ?_
  rw [BitVec.getLsbD_extractLsb', BitVec.getLsbD_append, decide_eq_true hi, Nat.zero_add,
    Bool.true_and, if_pos hi]

theorem kernelSegs (s : Cpu) :
    ∃ s', [.movAx 0x10, .movSeg .ds, .movSeg .es, .movSeg .fs, .movSeg .gs].foldl
    IntInstr.effect s = s' ∧ (s'.mem, s'.reg .esp) = (s.mem, s.reg .esp) ∧
      (∀ g, g ≠ .cs → s'.seg g = 0x10) ∧
    s'.eflags = s.eflags ∧ s'.cr3 = s.cr3 := by
  refine ⟨_, rfl, rfl, fun g hg => ?_, rfl, rfl⟩
  cases g with
  | cs => exact absurd rfl hg
  | ds => exact low_append _
  | es => exact low_append _
  | fs => exact low_append _
  | gs => exact low_append _

/-- **The dispatcher finds a `struct registers`.** -/
theorem enter_entered
    (h : Pushed c ([c.eflags.toWord, Cpu.selectorWord (c.seg .cs), c.eip] ++ if v ∈
    errorVectors then
    [error] else []) s) (herror : v ∉ errorVectors → error = 0) : Entered c v error
      (enter v s) := by
  have hmasked : ((isr v).foldl IntInstr.effect s).eflags.intf = false := by
    unfold isr
    split <;> rfl
  obtain ⟨s₂, hs₂, hframe, heflags₂⟩ := saves (isr_pushed h herror)
  have henter : enter v s = IntInstr.effect ([.movAx 0x10, .movSeg .ds, .movSeg .es, .movSeg .fs,
      .movSeg .gs].foldl IntInstr.effect s₂) .pushEsp := by
    rw [← hs₂]
    unfold enter
    rw [List.foldl_append]
    rfl
  rw [henter]
  obtain ⟨s₃, hs₃, hstack, hseg, heflags, hcr3⟩ := kernelSegs s₂
  rw [hs₃]
  have hesp₃ : s₃.reg .esp = c.reg .esp - 68 := (congrArg Prod.snd hstack).trans hframe.esp
  have hmem₃ : s₃.mem = (pushes (c.mem, c.reg .esp) (frame c v error).reverse).1 :=
    (congrArg Prod.fst hstack).trans (congrArg Prod.fst hframe.stack)
  have hmem : (IntInstr.effect s₃ .pushEsp).mem = store s₃.mem (s₃.reg .esp - 4) (s₃.reg .esp) :=
    rfl
  have hesp : (IntInstr.effect s₃ .pushEsp).reg .esp = s₃.reg .esp - 4 :=
    Function.update_self Reg.esp _ s₃.reg
  refine ⟨?_, ?_, ?_, fun x hx => ?_, fun g hg => hseg g hg, ?_, ?_⟩
  · rw [hesp, hesp₃]
    bv_omega
  · rw [hmem, hesp, load_store, hesp₃]
  · have hwords := words_pushes (c.mem, c.reg .esp) (frame c v error).reverse (by simp [frame])
    rw [pushes_sp, List.reverse_reverse] at hwords
    rw [hmem, hesp₃, words_congr (fun x hx => store_out _ fun hx' => ?_) (by decide), hmem₃]
    · exact hwords
    · rw [mem_range] at hx hx'
      bv_omega
  · have hout : x ∉ range (c.reg .esp - 72) 4 := fun h => hx (range_mono (by decide) h)
    rw [hmem, hesp₃, show c.reg .esp - 68 - 4 = c.reg .esp - 72 by bv_omega,
      store_out _ hout, hmem₃]
    refine pushes_out (c.mem, c.reg .esp) (frame c v error).reverse (by simp [frame]) fun h => hx ?_
    have hlength : (frame c v error).reverse.length = 17 := rfl
    rw [hlength, mem_range] at h
    rw [mem_range]
    bv_omega
  · show s₃.eflags.intf = false
    rw [heflags, heflags₂, hmasked]
  · show s₃.cr3 = c.cr3
    rw [hcr3, hframe.cr3]

/-! ### Out -/

/-- The state after `iret`, with the `struct registers` at `r`. -/
def restored (r : Word) (d : Cpu) : Cpu where
  reg
    | .eax => load d.mem (r + 44)
    | .ecx => load d.mem (r + 40)
    | .edx => load d.mem (r + 36)
    | .ebx => load d.mem (r + 32)
    | .esp => r + 68
    | .ebp => load d.mem (r + 24)
    | .esi => load d.mem (r + 20)
    | .edi => load d.mem (r + 16)
  seg
    | .cs => (load d.mem (r + 60)).extractLsb' 0 16
    | .ds => (load d.mem (r + 12)).extractLsb' 0 16
    | .es => (load d.mem (r + 8)).extractLsb' 0 16
    | .fs => (load d.mem (r + 4)).extractLsb' 0 16
    | .gs => (load d.mem r).extractLsb' 0 16
  eflags := .ofWord (load d.mem (r + 64))
  eip := load d.mem (r + 56)
  cr3 := d.cr3
  mem := d.mem

theorem handle_leave (f : Cpu → Option Cpu) (d : Cpu) :
    handle f leave d = some (restored (d.reg .esp + 4) d) := by
  have hadd (i j : Word) : d.reg .esp + i + j = d.reg .esp + (i + j) := BitVec.add_assoc _ _ _
  show some (Cpu.iret ([.addEsp 4, .popSeg .gs, .popSeg .fs, .popSeg .es, .popSeg .ds, .popa,
    .addEsp 8].foldl IntInstr.effect d)) = _
  unfold restored
  simp only [List.foldl, IntInstr.effect, Cpu.setSeg, Cpu.setReg, Machine.set, Cpu.iret,
    Machine.popa, Function.update_self, hadd]
  congr 2
  · congr 1
    funext r
    cases r <;> rfl
  · funext g
    cases g <;> rfl

/-! ### There and back -/

theorem Entered.word (h : Entered c v error e) {i : Nat} {w : Word}
    (hw : (frame c v error)[i]? = some w) :
    load e.mem (c.reg .esp - 68 + BitVec.ofNat 32 (4 * i)) = w := by
  have hi : i < 17 := (List.getElem?_eq_some_iff.mp hw).1
  have hget : (Base.words e.mem (c.reg .esp - 68) 17)[i]? = _ := words_get hi
  rw [h.words, hw] at hget
  exact (Option.some.inj hget).symm

theorem Entered.registers (h : Entered c v error e) :
    registersAt e.mem (c.reg .esp - 68) = registersOf c v := by
  unfold registersAt registersOf
  congr
  · exact h.word (i := 12) rfl
  · exact h.word (i := 11) rfl
  · exact h.word (i := 8) rfl
  · exact h.word (i := 10) rfl
  · exact h.word (i := 9) rfl
  · exact h.word (i := 5) rfl

variable {handlers : Nat → Option (Handler σ)} {table : SyscallTable} {k k' : Kernel σ}
    {i : Interrupt} {regs : Registers}

theorem interruptDispatch_eax (h : interruptDispatch handlers table k i = some (k', regs)) :
    regs.eax = if i.regs.intNo = syscallVector then syscallDispatch table i.regs
      else i.regs.eax := by
  unfold interruptDispatch at h
  dsimp only at h
  split at h
  · cases h
  · split at h
    · next hirq =>
      obtain ⟨k₁, -, he⟩ := Option.map_eq_some_iff.mp h
      cases he
      have hne : i.regs.intNo ≠ syscallVector := by
        intro heq
        rw [heq] at hirq
        exact absurd hirq (by decide)
      rw [if_neg hne]
    · split at h
      · next hcall =>
        cases h
        rw [if_pos hcall]
      · cases h

/-- A word of the `struct registers` that the dispatcher leaves as it was. -/
theorem Dispatched.word (h : Dispatched handlers table k k' (c.reg .esp - 68) e d)
    (hentered : Entered c v error e) {i : Nat} {w : Word} (hi : i ≠ 11)
    (hw : (frame c v error)[i]? = some w) :
    load d.mem (c.reg .esp - 68 + BitVec.ofNat 32 (4 * i)) = w := by
  have hlt : i < 17 := (List.getElem?_eq_some_iff.mp hw).1
  rw [← hentered.word hw]
  refine load_congr fun x hx => h.kept x (range_add_subset (by omega) (by decide) hx) fun hx' => ?_
  rw [mem_range] at hx hx'
  bv_omega

theorem selectorWord_low (w : BitVec 16) : (Cpu.selectorWord w).extractLsb' 0 16 = w := by
  refine BitVec.eq_of_getLsbD_eq fun i hi => ?_
  unfold Cpu.selectorWord
  rw [BitVec.getLsbD_extractLsb', BitVec.getLsbD_setWidth, decide_eq_true hi, Nat.zero_add,
    Bool.true_and, decide_eq_true (show i < 32 by omega), Bool.true_and]

/-- The value of `eax` that the interrupted program goes on with. -/
def eaxAfter (table : SyscallTable) (c : Cpu) (v : Nat) : Word :=
  if v = syscallVector.toNat then (syscallDispatch table (registersOf c v)).toBitVec else c.reg .eax

/-- **Everything is restored** but `eax` after a system call. -/
theorem Dispatched.restored (h : Dispatched handlers table k k' (c.reg .esp - 68) e d)
    (hentered : Entered c v error e) (hv : v < 256) : restored (c.reg .esp - 68) d =
      { reg := Function.update c.reg .eax (eaxAfter table c v)
        seg := c.seg
        eflags := c.eflags
        eip := c.eip
        cr3 := d.cr3
        mem := d.mem } := by
  have heax : load d.mem (c.reg .esp - 68 + 44) = eaxAfter table c v := by
    obtain ⟨i, regs, hregs, hdispatch, hload⟩ := h.result
    rw [hload, interruptDispatch_eax hdispatch, hregs, hentered.registers]
    unfold eaxAfter
    have hiff : (registersOf c v).intNo = syscallVector ↔ v = syscallVector.toNat := by
      rw [← UInt32.toNat_inj]
      show v % 2 ^ 32 = _ ↔ _
      rw [Nat.mod_eq_of_lt (by omega)]
    by_cases hcall : v = syscallVector.toNat
    · rw [if_pos (hiff.mpr hcall), if_pos hcall]
    · rw [if_neg (fun hc => hcall (hiff.mp hc)), if_neg hcall]
      rfl
  have hword : ∀ {i : Nat} {w : Word}, i ≠ 11 → (frame c v error)[i]? = some w →
      load d.mem (c.reg .esp - 68 + BitVec.ofNat 32 (4 * i)) = w :=
        fun hi hw => h.word hentered hi hw
  unfold Interrupts.restored
  congr 1
  · congr 1
    · funext r
      cases r with
      | eax => exact heax
      | ecx => exact hword (i := 10) (by decide) rfl
      | edx => exact hword (i := 9) (by decide) rfl
      | ebx => exact hword (i := 8) (by decide) rfl
      | esp => exact BitVec.sub_add_cancel _ _
      | ebp => exact hword (i := 6) (by decide) rfl
      | esi => exact hword (i := 5) (by decide) rfl
      | edi => exact hword (i := 4) (by decide) rfl
    · have hflags := hword (i := 16) (by decide) rfl
      exact (congrArg EFlags.ofWord hflags).trans (EFlags.ofWord_toWord _)
    · exact hword (i := 14) (by decide) rfl
  · have hseg : ∀ {i : Nat} {w : BitVec 16}, i ≠ 11 →
        (frame c v error)[i]? = some (Cpu.selectorWord w) →
        (load d.mem (c.reg .esp - 68 + BitVec.ofNat 32 (4 * i))).extractLsb' 0 16 = w :=
          fun hi hw =>
      (congrArg (BitVec.extractLsb' 0 16) (hword hi hw)).trans (selectorWord_low _)
    have hgs := hseg (i := 0) (by decide) rfl
    rw [show c.reg .esp - 68 + BitVec.ofNat 32 (4 * 0) = c.reg .esp - 68 by simp] at hgs
    funext g
    cases g with
    | cs => exact hseg (i := 15) (by decide) rfl
    | ds => exact hseg (i := 3) (by decide) rfl
    | es => exact hseg (i := 2) (by decide) rfl
    | fs => exact hseg (i := 1) (by decide) rfl
    | gs => exact hgs

/-! ### Interrupts -/

/-- Where the stubs are, and the IDT that `init_ints` has made. -/
structure Vectors where
  isrStubTable : Nat → Word
  idt : Word
  code : Word → Option (List IntInstr)
  stubs : ∀ v < idtSize, code (isrStubTable v) = some (isr v ++ isrCommon)

/-- The IDT is in memory as `init_ints` left it. -/
def Vectors.Loaded (t : Vectors) (mem : Bytes32) : Prop :=
  ∃ mem₀, ∀ x ∈ range t.idt (8 * idtSize), mem x = setIdtEntries t.isrStubTable t.idt mem₀ x

/-- The processor takes the interrupt `v`: it executes what its gate leads to, up to `iret`. -/
def Vectors.takes (t : Vectors) (f : Cpu → Option Cpu) (c : Cpu) (v : Nat) (error : Option Word) :
    Option Cpu :=
  (c.interrupt (idtp t.idt) v error).bind fun c₁ => (t.code c₁.eip).bind fun is => handle f is c₁

variable {t : Vectors} {mem : Bytes32}

/-- **Each vector has its stub**, with a gate that turns interrupts off but for the breakpoint. -/
theorem Vectors.Loaded.gate (h : t.Loaded mem) (hv : v < idtSize) :
    gateAt mem t.idt v = idtEntry (t.isrStubTable v) (attr v) := by
  obtain ⟨mem₀, hmem⟩ := h
  have hload : ∀ i, i + 4 ≤ 2048 → load mem (t.idt + BitVec.ofNat 32 i) =
      load (setIdtEntries t.isrStubTable t.idt mem₀) (t.idt + BitVec.ofNat 32 i) := fun i hi =>
    load_congr fun x hx =>
      hmem x (range_add_subset (show i + 4 ≤ 8 * idtSize from hi) (by decide) hx)
  have hfour : entry t.idt v + 4 = t.idt + BitVec.ofNat 32 (8 * v + 4) := by
    unfold entry
    bv_omega
  have hlt : v < 256 := hv
  rw [← gateAt_writeGates (fun i => idtEntry (t.isrStubTable i) (attr i)) mem₀
    (Nat.le_refl 256) hlt]
  unfold gateAt
  rw [hfour]
  exact congrArg₂ Gate.ofWords (hload _ (by omega)) (hload _ (by omega))

theorem attr_valid : ∀ v < idtSize, (idtEntry 0 (attr v)).valid = true := by decide +kernel

/-- The processor gets to the stub with an error code where the stub expects one. -/
theorem Vectors.Loaded.interrupt (h : t.Loaded c.mem) (hv : v < idtSize) {error : Option Word}
    (herror : error.isSome = decide (v ∈ errorVectors)) :
    ∃ c₁, c.interrupt (idtp t.idt) v error = some c₁ ∧
      c₁.eip = t.isrStubTable v ∧
        Pushed c ([c.eflags.toWord, Cpu.selectorWord (c.seg .cs), c.eip] ++
        if v ∈ errorVectors then [error.getD 0] else []) c₁ := by
  have hlt : v < 256 := hv
  have hgate := h.gate hv
  have hvalid : 8 * v + 7 ≤ (idtp t.idt).limit.toNat ∧
      (gateAt c.mem (idtp t.idt).base v).valid = true := by
    refine ⟨?_, ?_⟩
    · show 8 * v + 7 ≤ 2047
      omega
    · show (gateAt c.mem t.idt v).valid = true
      rw [hgate]
      exact attr_valid v hv
  have hlist : (if v ∈ errorVectors then [error.getD 0] else []) = error.toList := by
    by_cases hmem : v ∈ errorVectors
    · rw [decide_eq_true hmem] at herror
      obtain ⟨w, rfl⟩ := Option.isSome_iff_exists.mp herror
      rw [if_pos hmem]
      rfl
    · rw [decide_eq_false hmem, Option.isSome_eq_false_iff, Option.isNone_iff_eq_none] at herror
      rw [if_neg hmem, herror]
      rfl
  rw [hlist]
  have hinit : Pushed c [] c := ⟨rfl, fun _ _ => rfl, fun _ _ => rfl, rfl⟩
  have hpushed :=
    hinit.push ([c.eflags.toWord, Cpu.selectorWord (c.seg .cs), c.eip] ++ error.toList)
  unfold Cpu.interrupt
  dsimp only
  rw [if_pos hvalid]
  refine ⟨_, rfl, ?_, ⟨hpushed.stack, hpushed.reg, fun g hg => ?_, hpushed.cr3⟩⟩
  · show (gateAt c.mem t.idt v).offset = _
    rw [hgate]
    rfl
  · exact (Function.update_of_ne hg _ _).trans (hpushed.seg g hg)

/-- **An interrupt and the return from it.**  For each of the 256 vectors the dispatcher gets the
registers of the interrupted program and the vector; when it comes back, the program goes on with
its registers, flags and stack, but for `eax` after a system call. -/
theorem interrupt_returns (h : t.Loaded c.mem) (hv : v < idtSize) {error : Option Word}
    (herror : error.isSome = decide (v ∈ errorVectors)) (f : Cpu → Option Cpu) :
    ∃ e, Entered c v (error.getD 0) e ∧ registersAt e.mem (c.reg .esp - 68) = registersOf c v ∧
      (f e = none → t.takes f c v error = none) ∧
      ∀ (handlers : Nat → Option (Handler σ)) (table : SyscallTable) (k k' : Kernel σ)
        (d : Cpu), f e = some d →
        Dispatched handlers table k k' (c.reg .esp - 68) e d → t.takes f c v error = some
          { reg := Function.update c.reg .eax (eaxAfter table c v)
            seg := c.seg
            eflags := c.eflags
            eip := c.eip
            cr3 := d.cr3
            mem := d.mem } := by
  obtain ⟨c₁, hint, heip, hpushed⟩ := h.interrupt hv herror
  have hzero : v ∉ errorVectors → error.getD 0 = 0 := fun hmem => by
    rw [decide_eq_false hmem, Option.isSome_eq_false_iff, Option.isNone_iff_eq_none] at herror
    rw [herror]
    rfl
  have hentered := enter_entered hpushed hzero
  have htakes : t.takes f c v error = (f (enter v c₁)).bind (handle f leave) := by
    unfold Vectors.takes
    rw [hint, Option.bind_some, heip, t.stubs v hv, Option.bind_some, handle_stub]
  refine ⟨enter v c₁, hentered, hentered.registers, fun hnone => ?_,
    fun handlers table k k' d hd hdispatched => ?_⟩
  · rw [htakes, hnone, Option.bind_none]
  · have hesp : d.reg .esp + 4 = c.reg .esp - 68 := by
      rw [hdispatched.esp, hentered.esp]
      bv_omega
    rw [htakes, hd, Option.bind_some, handle_leave, hesp, hdispatched.restored hentered hv]

/-- Stubs of sixteen bytes. -/
def tableVectors : Vectors where
  isrStubTable v := BitVec.ofNat 32 (0x100000 + 16 * v)
  idt := 0x8000
  code w := some (isr ((w.toNat - 0x100000) / 16) ++ isrCommon)
  stubs v hv := by
    have hlt : v < 256 := hv
    have hstub : ((BitVec.ofNat 32 (0x100000 + 16 * v)).toNat - 0x100000) / 16 = v := by
      rw [BitVec.toNat_ofNat]
      omega
    rw [hstub]

/-- A program that runs with interrupts on. -/
def running : Cpu where
  reg r := if r = .esp then 0x90000 else 7
  eflags := ⟨true, false, false, true, false, false, true, false, false, 0, false, false, false⟩
  eip := 0x200000
  cr3 := 0
  mem := setIdtEntries tableVectors.isrStubTable tableVectors.idt fun _ => 0
  seg s := if s = .cs then 0x08 else 0x10

theorem running_loaded : tableVectors.Loaded running.mem := by
  refine ⟨fun _ => 0, fun x _ => ?_⟩
  unfold running
  dsimp only

/-- A page fault halts, and from the interrupt of a key the program goes on where it was. -/
theorem interrupt_returns_key :
    (∃ e, Entered running 14 2 e ∧
      registersAt e.mem (running.reg .esp - 68) = registersOf running 14 ∧
      tableVectors.takes (fun _ => none) running 14 (some 2) = none) ∧
    ∃ e, Entered running 33 0 e ∧
      registersAt e.mem (running.reg .esp - 68) = registersOf running 33 ∧
      tableVectors.takes some running 33 none = some { running with mem := e.mem } := by
  have herror : (some (2 : Word)).isSome = decide (14 ∈ errorVectors) := by decide
  have hnoError : (none : Option Word).isSome = decide (33 ∈ errorVectors) := by decide
  obtain ⟨e, hentered, hregs, hnone, -⟩ :=
    interrupt_returns (σ := Unit) running_loaded (by decide) herror fun _ => none
  obtain ⟨e', hentered', hregs', -, hsome⟩ :=
    interrupt_returns (σ := Unit) running_loaded (by decide) hnoError some
  refine ⟨⟨e, hentered, hregs, hnone rfl⟩, e', hentered', hregs', ?_⟩
  have hresult :
      Dispatched (σ := Unit) (fun _ => some fun k _ => some k) (fun _ => none) quietKernel
      (picSendEoi quietKernel 1) (running.reg .esp - 68) e' e' :=
    ⟨rfl, fun _ _ _ => rfl, ⟨registersOf running 33, 2, 0, Keyboard.ready 0x1E⟩,
      registersOf running 33, hentered'.registers.symm, rfl, hentered'.word (i := 11) rfl⟩
  rw [hsome _ _ _ _ e' rfl hresult]
  have hcr3 : e'.cr3 = running.cr3 := hentered'.cr3
  have hreg : Function.update running.reg .eax (eaxAfter (fun _ => none) running 33) =
      running.reg :=
    Function.update_eq_self _ _
  rw [hcr3, hreg]

end CobraOS.Interrupts
