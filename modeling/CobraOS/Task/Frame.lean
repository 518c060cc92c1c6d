import CobraOS.Task.Transparent

/-!
# The first switch to a task, `task_create`

`task_create` builds by hand the frame that `task_switch` will pop.  It pushes `0x202` next to the
entry address, but `task_switch` pops the flags first and the registers after them: the flags are
the last zero that has been pushed, and `0x202` ends up in `eax`.  So a new task starts with
interrupts off (`never_starts`).
-/

namespace CobraOS.Task

open Base Base.X86

/-- What `task_create` pushes. -/
def newFrame (entry : Word) : List Word := [entry, 0x202, 0, 0, 0, 0, 0, 0, 0, 0]

/-- What `task_create` writes to the `task_t` and to the stack that it has allocated; `TASK_READY`
is 1. -/
def buildTask (mem : Bytes32) (task stack entry pageDir pid : Word) : Bytes32 :=
  let mem := fill mem task 0 24
  let mem := store mem (task + 8) stack
  let mem := store mem (task + 12) 1
  let mem := store mem (task + 16) pid
  let mem := store mem (task + 4) pageDir
  let s := pushes (mem, stack + 4096) (newFrame entry)
  store s.1 task s.2

/-- The task starts as `task_create` says. -/
structure StartsAs (m : Machine) (entry stack : Word) : Prop where
  eip : m.eip = entry
  eflags : m.eflags.toWord = 0x202
  zero : ∀ r, r ≠ .esp → m.reg r = 0
  esp : m.reg .esp = stack + 4096

/-- The frame of the new task, and the fields `esp` and `page_dir` of its `task_t`. -/
def newMemory (task stack : Word) : Set Word := range (stack + 4056) 40 ∪ range task 8

/-- The first call of `task_switch` for the new task: what it reads of the task is as it was built,
and the running task `cur` has its frame and its `task_t` elsewhere.  The other fields of the new
`task_t` may have changed: `schedule` sets its state, and a task that is created later is linked
behind it. -/
structure FirstCall (currentTask : Word) (m : Machine) (cur task stack entry : Word) : Prop where
  calls : Calls currentTask m cur task
  built : ∃ mem pageDir pid, ∀ x ∈ newMemory task stack,
    m.mem x = buildTask mem task stack entry pageDir pid x
  separate : Disjoint (range stack 4096) (range task 24)
  frame_apart : Disjoint (range (m.reg .esp - 40) 40) (newMemory task stack)
  task_apart : Disjoint (range cur 4) (newMemory task stack)
  var_apart : Disjoint (range currentTask 4) (newMemory task stack)

variable {currentTask cur task stack entry : Word} {m : Machine}

/-- **The frame that is built.** -/
theorem buildTask_frame (mem : Bytes32) (entry pageDir pid : Word)
    (h : Disjoint (range stack 4096) (range task 24)) :
    let mem' := buildTask mem task stack entry pageDir pid
    load mem' task = stack + 4056 ∧ words mem' (stack + 4056) 10 = (newFrame entry).reverse := by
  have hsp : stack + 4096 - BitVec.ofNat 32 (4 * (newFrame entry).length) = stack + 4056 := by
    show stack + 4096 - 40 = stack + 4056
    bv_omega
  have hsub : range (stack + 4056) 40 ⊆ range stack 4096 :=
    range_add_subset (show 4056 + 40 ≤ 4096 by decide)
    (by decide)
  unfold buildTask
  simp only [pushes_sp, hsp]
  refine ⟨load_store _ _ _, ?_⟩
  rw [words_congr (fun x hx => store_out _ (fun hx' => ?_)) (by decide)]
  · have hwords :=
      words_pushes (store (store (store (store (fill mem task 0 24) (task + 8) stack) (task + 12) 1)
      (task + 16) pid) (task + 4) pageDir, stack + 4096) (newFrame entry) (by simp [newFrame])
    rwa [pushes_sp, hsp] at hwords
  · exact Set.disjoint_left.mp (h.mono hsub (range_mono (by decide))) hx hx'

/-- **What the first switch does.** -/
theorem FirstCall.spec (h : FirstCall currentTask m cur task stack entry) :
    ∃ m', exec (taskSwitch currentTask) 0 m.call = some m' ∧ m'.eip = entry ∧
      m'.reg .esp = stack + 4096 ∧
      m'.eflags = .ofWord 0 ∧ m'.reg .eax = 0x202 := by
  obtain ⟨m', hexec, -, hres, hout, -⟩ := switch_spec h.calls
  obtain ⟨mem, pageDir, pid, hbuilt⟩ := h.built
  obtain ⟨hesp, hwords⟩ := buildTask_frame mem entry pageDir pid h.separate
  have hown : ∀ x ∈ newMemory task stack, m'.mem x = buildTask mem task stack entry pageDir
      pid x := by
    intro x hx
    rw [hout x (Set.disjoint_right.mp h.frame_apart hx) (Set.disjoint_right.mp h.task_apart hx)
      (Set.disjoint_right.mp h.var_apart hx), hbuilt x hx]
  have hesp' : load m'.mem task = stack + 4056 :=
    (load_congr (fun x hx => hown x (Or.inr (range_mono (by decide) hx)))).trans hesp
  have hwords' : words m'.mem (stack + 4056) 10 = (newFrame entry).reverse :=
    (words_congr (fun x hx => hown x (Or.inl hx)) (by decide)).trans hwords
  simp only [words, newFrame, BitVec.add_assoc, List.reverse_cons, List.reverse_nil,
    List.nil_append, List.cons_append, List.cons.injEq] at hwords'
  obtain ⟨hflags, -, -, -, -, -, -, -, heax, heip, -⟩ := hwords'
  refine ⟨m', hexec, ?_, ?_, ?_, ?_⟩
  · rw [hres.eip, hesp', BitVec.add_assoc]
    exact heip
  · rw [hres.reg, hesp']
    show stack + 4056 + 40 = stack + 4096
    bv_omega
  · rw [hres.eflags, hesp', hflags]
  · rw [hres.reg, hesp']
    show load m'.mem (stack + 4056 + 32) = 0x202
    rw [BitVec.add_assoc]
    exact heax

/-- **A new task never starts as `task_create` says**: at its entry, interrupts are off and `eax` is
`0x202`. -/
theorem never_starts (h : FirstCall currentTask m cur task stack entry) :
    ∃ m', exec (taskSwitch currentTask) 0 m.call = some m' ∧ m'.eip = entry ∧
      m'.reg .esp = stack + 4096 ∧
      m'.eflags.intf = false ∧ m'.reg .eax = 0x202 ∧ ¬ StartsAs m' entry stack := by
  obtain ⟨m', hexec, heip, hesp, hflags, heax⟩ := h.spec
  refine ⟨m', hexec, heip, hesp, ?_, heax, fun hstart => ?_⟩
  · rw [hflags]
    decide
  · have hzero := hstart.zero .eax (by decide)
    rw [heax] at hzero
    exact absurd hzero (by decide)

/-! ### A task that switches to a new one -/

/-- What `schedule` writes before it calls `task_switch`: the new task is running (0) and the old
one is ready (1). -/
def scheduled (mem : Bytes32) (cur task : Word) : Bytes32 := store (store mem (task + 12) 0)
    (cur + 12) 1

/-- The task at `0x200` has created a task at `0x300` with the entry address `0x5000`, which is
linked behind it, and `schedule` switches to the new task. -/
def beforeFirst : Machine where
  reg := fun _ => 0x1000
  eflags := .ofWord 0x202
  eip := 0x500
  cr3 := 1
  mem := store
    (store (scheduled (store (buildTask (fun _ => 0) 0x300 0x10000 0x5000 1 2) 0x214 0x300)
    0x200 0x300) 0x100 0x200) 0x1000 0x300

theorem beforeFirst_call : FirstCall 0x100 beforeFirst 0x200 0x300 0x10000 0x5000 where
  calls :=
    { current := by decide +kernel
      argument := load_store _ _ _
      stack_task := (range_disjoint (by decide) (by decide)).symm
      stack_var := (range_disjoint (by decide) (by decide)).symm
      task_var := (range_disjoint (by decide) (by decide)).symm
      next_var := (range_disjoint (by decide) (by decide)).symm }
  built := by
    refine ⟨fun _ => 0, 1, 2, fun x hx => ?_⟩
    have hout : ∀ {y : Word}, Disjoint (range (0x10000 + 4056) 40) (range y 4) →
        Disjoint (range 0x300 8) (range y 4) → x ∉ range y 4 := fun h h' =>
      Set.disjoint_left.mp (Disjoint.union_left h h') hx
    show store (store
      (scheduled (store (buildTask (fun _ => 0) 0x300 0x10000 0x5000 1 2) 0x214 0x300)
      0x200 0x300) 0x100 0x200) 0x1000 0x300 x = _
    rw [store_out _
      (hout (range_disjoint (by decide) (by decide)).symm (range_disjoint (by decide) (by decide))),
      store_out _ (hout (range_disjoint (by decide) (by decide)).symm
        (range_disjoint (by decide) (by decide)).symm), scheduled,
      store_out _ (hout (range_disjoint (by decide) (by decide)).symm
        (range_disjoint (by decide) (by decide)).symm),
      store_out _ (hout (range_disjoint (by decide) (by decide)).symm
        (range_disjoint (by decide) (by decide))),
      store_out _ (hout (range_disjoint (by decide) (by decide)).symm
        (range_disjoint (by decide) (by decide)).symm)]
  separate := (range_disjoint (by decide) (by decide)).symm
  frame_apart := Disjoint.union_right (range_disjoint (by decide) (by decide))
    (range_disjoint (by decide) (by decide)).symm
  task_apart :=
    Disjoint.union_right (range_disjoint (by decide) (by decide))
      (range_disjoint (by decide) (by decide))
  var_apart :=
    Disjoint.union_right (range_disjoint (by decide) (by decide))
      (range_disjoint (by decide) (by decide))

theorem never_starts_beforeFirst : FirstCall 0x100 beforeFirst 0x200 0x300 0x10000 0x5000 ∧
    ∃ m', exec (taskSwitch 0x100) 0 beforeFirst.call = some m' ∧ m'.eflags.intf = false := by
  obtain ⟨m', hexec, -, -, hintf, -, -⟩ := never_starts beforeFirst_call
  exact ⟨beforeFirst_call, m', hexec, hintf⟩

/-- **A new task that starts with interrupts off.** -/
theorem starts_without_interrupts : ∃ m', exec (taskSwitch 0x100) 0 beforeFirst.call = some m' ∧
    m'.eip = 0x5000 ∧ m'.eflags.toWord = 2 ∧ m'.reg .eax = 0x202 ∧
      ¬ StartsAs m' 0x5000 0x10000 := by
  obtain ⟨m', hexec, heip, -, hflags, heax⟩ := beforeFirst_call.spec
  have hword : m'.eflags.toWord = 2 := by
    rw [hflags]
    decide
  refine ⟨m', hexec, heip, hword, heax, fun hstart => ?_⟩
  have hflags' := hstart.eflags
  rw [hword] at hflags'
  exact absurd hflags' (by decide)

end CobraOS.Task
