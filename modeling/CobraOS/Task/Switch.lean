import CobraOS.Base.X86

/-!
# `task_switch`, `arch/x86/cpu/task_switch.asm`

The routine as the list of its instructions.  A task that calls it leaves a frame of ten words on
its stack (`Saved`), and the task that it switches to takes such a frame from its own (`Resumed`).
`switch_spec` says that the routine does both.  Page directories map the kernel alike, so one memory
is modelled.
-/

namespace CobraOS.Task

open Base Base.X86

/-- `task_switch`; `currentTask` is the address of the variable. -/
def taskSwitch (currentTask : Word) : List Instr :=
  [.pusha, .pushf,
    .loadAbs .eax currentTask,
    .store .eax .esp,
    .load .ebx .esp 40,
    .load .esp .ebx 0,
    .loadAbs .eax currentTask,
    .load .ecx .eax 4,
    .load .edx .ebx 4,
    .cmp .ecx .edx,
    .je 1,
    .movCr3 .edx,
    .storeAbs currentTask .ebx,
    .popf, .popa, .ret]

/-- The words that are saved, from the top of the stack on. -/
def frame (m : Machine) : List Word :=
  [m.eflags.toWord, m.reg .edi, m.reg .esi, m.reg .ebp, m.reg .esp - 4, m.reg .ebx, m.reg .edx,
    m.reg .ecx, m.reg .eax, m.eip]

/-- The memory once they are. -/
def savedMem (m : Machine) : Bytes32 := (pushes (m.mem, m.reg .esp) (frame m).reverse).1

/-- The registers that `popf`, `popa` and `ret` leave. -/
def popped (mem : Bytes32) (sp : Word) : Reg → Word
  | .eax => load mem (sp + 32)
  | .ecx => load mem (sp + 28)
  | .edx => load mem (sp + 24)
  | .ebx => load mem (sp + 20)
  | .esp => sp + 40
  | .ebp => load mem (sp + 12)
  | .esi => load mem (sp + 8)
  | .edi => load mem (sp + 4)

/-- What the routine does, with every word it reads and writes. -/
def switched (currentTask : Word) (m : Machine) : Machine :=
  let sp := m.reg .esp - 40
  let mem := store (savedMem m) (load (savedMem m) currentTask) sp
  let next := load mem (sp + 40)
  let dir := load mem (next + 4)
  let mem' := store mem currentTask next
  { reg := popped mem' (load mem next)
    eflags := .ofWord (load mem' (load mem next))
    eip := load mem' (load mem next + 36)
    cr3 := if load mem (load mem currentTask + 4) = dir then m.cr3 else dir
    mem := mem' }

variable {m m' : Machine} {currentTask : Word}

theorem save_eq (m : Machine) :
    Instr.pushf.effect (Instr.pusha.effect m.call) =
      { m with reg := Function.update m.reg .esp (m.reg .esp - 40), mem := savedMem m } := by
  have hregs :
    m.call.registers = [m.reg .eax, m.reg .ecx, m.reg .edx, m.reg .ebx, m.reg .esp - 4, m.reg .ebp,
      m.reg .esi, m.reg .edi] := by
    unfold Machine.registers Machine.call
    rw [Machine.pushAll_esp]
    rfl
  have hall : Instr.pushf.effect (Instr.pusha.effect m.call) = m.pushAll (frame m).reverse := by
    show ((m.pushAll [m.eip]).pushAll m.call.registers).pushAll [m.eflags.toWord] = _
    rw [hregs, Machine.pushAll_append, Machine.pushAll_append]
    rfl
  rw [hall]
  unfold Machine.pushAll savedMem
  rw [pushes_sp]
  rfl

theorem restore_eq (m : Machine) :
    (Instr.popa.effect (Instr.popf.effect m)).ret =
      { m with
        reg := popped m.mem (m.reg .esp)
        eflags := .ofWord (load m.mem (m.reg .esp))
        eip := load m.mem (m.reg .esp + 36) } := by
  have hadd (i j : Word) : m.reg .esp + i + j = m.reg .esp + (i + j) := BitVec.add_assoc _ _ _
  simp only [Instr.effect, Machine.popf, Machine.popa, Machine.ret, Function.update_self, hadd]
  congr 1
  funext r
  cases r <;> rfl

/-- **The routine, executed.** -/
theorem exec_taskSwitch (currentTask : Word) (m : Machine) :
    exec (taskSwitch currentTask) 0 m.call = some (switched currentTask m) := by
  unfold taskSwitch switched
  simp only [exec, save_eq]
  split
  case isTrue h =>
    simp only [exec, restore_eq]
    simp [Instr.effect, Machine.set, EFlags.sub] at h ⊢
    exact fun hne => absurd h hne
  case isFalse h =>
    simp only [exec, restore_eq]
    simp [Instr.effect, Machine.set, EFlags.sub] at h ⊢
    exact fun heq => absurd heq h

/-! ### A call by a task -/

/-- The task `cur` is about to call `task_switch(next)`.  Its frame and the argument, its `task_t`,
the variable `current_task` and the `task_t` of `next` are different objects. -/
structure Calls (currentTask : Word) (m : Machine) (cur next : Word) : Prop where
  current : load m.mem currentTask = cur
  argument : load m.mem (m.reg .esp) = next
  stack_task : Disjoint (range (m.reg .esp - 40) 44) (range cur 24)
  stack_var : Disjoint (range (m.reg .esp - 40) 44) (range currentTask 4)
  task_var : Disjoint (range cur 24) (range currentTask 4)
  next_var : Disjoint (range next 24) (range currentTask 4)

/-- The task `t` has called in the state `m`, and its frame is on its stack. -/
structure Saved (mem : Bytes32) (t : Word) (m : Machine) : Prop where
  esp : load mem t = m.reg .esp - 40
  words : words mem (m.reg .esp - 40) 10 = frame m

/-- The task `t` runs with the frame that is on its stack. -/
structure Resumed (currentTask : Word) (m : Machine) (t : Word) : Prop where
  reg : m.reg = popped m.mem (load m.mem t)
  eflags : m.eflags = .ofWord (load m.mem (load m.mem t))
  eip : m.eip = load m.mem (load m.mem t + 36)
  current : load m.mem currentTask = t

variable {cur next t : Word} {mem : Bytes32}

theorem savedMem_words (m : Machine) : words (savedMem m) (m.reg .esp - 40) 10 = frame m := by
  have h := words_pushes (m.mem, m.reg .esp) (frame m).reverse (by simp [frame])
  rw [pushes_sp, List.reverse_reverse] at h
  exact h

theorem savedMem_out (m : Machine) {x : Word} (h : x ∉ range (m.reg .esp - 40) 40) :
    savedMem m x = m.mem x :=
  pushes_out (m.mem, m.reg .esp) (frame m).reverse (by simp [frame]) h

theorem load_savedMem (m : Machine) {a : Word}
    (h : Disjoint (range a 4) (range (m.reg .esp - 40) 40)) :
    load (savedMem m) a = load m.mem a :=
  load_congr (fun _ hx => savedMem_out m (fun hx' => Set.disjoint_left.mp h hx hx'))

theorem field_subset (t : Word) {i : Nat} (h : i + 4 ≤ 24) :
    range (t + BitVec.ofNat 32 i) 4 ⊆ range t 24 :=
  range_add_subset h (by decide)

/-- The memory before `current_task` is written: what is read from it. -/
structure Reads (currentTask : Word) (m : Machine) (cur next : Word) (mem : Bytes32) : Prop where
  current : load mem currentTask = cur
  argument : load mem (m.reg .esp) = next
  esp : load mem cur = m.reg .esp - 40
  words : words mem (m.reg .esp - 40) 10 = frame m
  dir : load mem (cur + 4) = load m.mem (cur + 4)
  out : ∀ x, x ∉ range (m.reg .esp - 40) 40 → x ∉ range cur 4 → mem x = m.mem x

theorem Calls.reads (h : Calls currentTask m cur next) :
    Reads currentTask m cur
      next (store (savedMem m) (load (savedMem m) currentTask) (m.reg .esp - 40)) := by
  have hframe : range (m.reg .esp - 40) 40 ⊆ range (m.reg .esp - 40) 44 := range_mono (by decide)
  have hesp : range cur 4 ⊆ range cur 24 := range_mono (by decide)
  have hdir : range (cur + 4) 4 ⊆ range cur 24 := field_subset cur (show 4 + 4 ≤ 24 by decide)
  have hdiresp : Disjoint (range (cur + 4) 4) (range cur 4) := by
    have hparts :=
      range_add_disjoint (a := cur) (i := 0) (n := 4) (j := 4) (k := 4) (by decide) (by decide)
    rw [show cur + BitVec.ofNat 32 0 = cur by bv_omega] at hparts
    exact hparts.symm
  have harg : range (m.reg .esp) 4 ⊆ range (m.reg .esp - 40) 44 := by
    have hsub :=
      range_add_subset (a := m.reg .esp - 40) (i := 40) (n := 4) (k := 44) (by decide) (by decide)
    rwa [show m.reg .esp - 40 + BitVec.ofNat 32 40 = m.reg .esp by bv_omega] at hsub
  have hargframe : Disjoint (range (m.reg .esp) 4) (range (m.reg .esp - 40) 40) := by
    have hparts :=
      range_add_disjoint (a := m.reg .esp - 40) (i := 0) (n := 40) (j := 40) (k := 4) (by decide)
      (by decide)
    rw [show m.reg .esp - 40 + BitVec.ofNat 32 0 = m.reg .esp - 40 by bv_omega,
      show m.reg .esp - 40 + BitVec.ofNat 32 40 = m.reg .esp by bv_omega] at hparts
    exact hparts.symm
  have hcur : load (savedMem m) currentTask = cur := by
    rw [load_savedMem m (h.stack_var.mono_left hframe).symm, h.current]
  rw [hcur]
  refine ⟨?_, ?_, load_store _ _ _, ?_, ?_, fun x hx hx' => ?_⟩
  · rw [load_store_of_disjoint _ (h.task_var.mono_left hesp).symm, hcur]
  · rw [load_store_of_disjoint _ (h.stack_task.mono harg hesp), load_savedMem m hargframe,
      h.argument]
  · rw [words_congr (fun x hx => store_out _ (fun hx' => ?_)) (by decide), savedMem_words]
    exact Set.disjoint_left.mp (h.stack_task.mono hframe hesp) hx hx'
  · rw [load_store_of_disjoint _ hdiresp, load_savedMem m (h.stack_task.mono hframe hdir).symm]
  · rw [store_out _ hx', savedMem_out m hx]

theorem Calls.switched (h : Calls currentTask m cur next) :
    ∃ mem, Reads currentTask m cur next mem ∧
    switched currentTask m =
      { reg := popped (store mem currentTask next) (load mem next)
        eflags := .ofWord (load (store mem currentTask next) (load mem next))
        eip := load (store mem currentTask next) (load mem next + 36)
        cr3 := if load m.mem (cur + 4) = load mem (next + 4) then m.cr3 else load mem (next + 4)
        mem := store mem currentTask next } := by
  have hreads := h.reads
  have hsp : m.reg .esp - 40 + 40 = m.reg .esp := by bv_omega
  refine ⟨_, hreads, ?_⟩
  unfold Task.switched
  simp only [hsp, hreads.argument, hreads.current, hreads.dir]

/-- **A call saves one task and resumes the other**, and writes to nothing but the frame, the field
`esp` of the task and `current_task`. -/
theorem switch_spec (h : Calls currentTask m cur next) :
    ∃ m', exec (taskSwitch currentTask) 0 m.call = some m' ∧
    Saved m'.mem cur m ∧ Resumed currentTask m' next ∧
    (∀ x, x ∉ range (m.reg .esp - 40) 40 → x ∉ range cur 4 → x ∉ range currentTask 4 →
      m'.mem x = m.mem x) ∧
    (m.cr3 = load m.mem (cur + 4) → m'.cr3 = load m'.mem (next + 4)) := by
  obtain ⟨mem, hreads, heq⟩ := h.switched
  -- the last write is to `current_task`, which none of the words read after it are in
  have hnext : load (store mem currentTask next) next = load mem next :=
    load_store_of_disjoint _ (h.next_var.mono_left (range_mono (by decide)))
  have hnextdir : load (store mem currentTask next) (next + 4) = load mem (next + 4) :=
    load_store_of_disjoint _ (h.next_var.mono_left (field_subset next (show 4 + 4 ≤ 24 by decide)))
  refine ⟨_, exec_taskSwitch currentTask m, ?_⟩
  rw [heq]
  refine ⟨⟨?_, ?_⟩, ⟨?_, ?_, ?_, load_store _ _ _⟩, fun x h1 h2 h3 => ?_, fun hcr3 => ?_⟩
  · exact (load_store_of_disjoint _ (h.task_var.mono_left (range_mono (by decide)))).trans
      hreads.esp
  · have hframe : words (store mem currentTask next) (m.reg .esp - 40) 10 =
        words mem (m.reg .esp - 40) 10 := by
      refine words_congr (fun x hx => store_out _ (fun hx' => ?_)) (by decide)
      exact Set.disjoint_left.mp (h.stack_var.mono_left (range_mono (by decide))) hx hx'
    exact hframe.trans hreads.words
  · simp only [hnext]
  · simp only [hnext]
  · simp only [hnext]
  · exact (store_out _ h3).trans (hreads.out x h1 h2)
  · simp only [hnextdir, hcr3]
    split
    · assumption
    · rfl

/-- **A saved task is resumed with the registers, the flags and the return address it had.** -/
theorem Saved.resumed (hs : Saved m'.mem t m) (hr : Resumed currentTask m' t) :
    m'.reg = m.reg ∧ m'.eflags = m.eflags ∧ m'.eip = m.eip := by
  have hwords := hs.words
  simp only [Base.words, frame, BitVec.add_assoc, List.cons.injEq] at hwords
  obtain ⟨hflags, hedi, hesi, hebp, -, hebx, hedx, hecx, heax, heip, -⟩ := hwords
  refine ⟨?_, ?_, ?_⟩
  · rw [hr.reg, hs.esp]
    funext r
    cases r with
    | eax => exact heax
    | ecx => exact hecx
    | edx => exact hedx
    | ebx => exact hebx
    | esp => exact BitVec.sub_add_cancel _ _
    | ebp => exact hebp
    | esi => exact hesi
    | edi => exact hedi
  · rw [hr.eflags, hs.esp, hflags, EFlags.ofWord_toWord]
  · rw [hr.eip, hs.esp]
    exact heip

end CobraOS.Task
