import CobraOS.Task.Switch

/-!
# A context switch is transparent to the task that is switched out

After a task `t` has called `task_switch`, the other tasks run: `Away` is one step of this, some
work or a call of `task_switch` for a task that is not `t`.  As long as they write outside the frame
of `t` and its `task_t`, the frame stays as it was, and whoever calls `task_switch(t)` makes `t` go
on where it was (`switch_transparent`).  That `cr3` is then the `page_dir` of `t` also takes that
nobody changes the `page_dir` of the task that runs, because `task_switch` compares with that field
and not with `cr3` (`skipped_load`).
-/

namespace CobraOS.Task

open Base Base.X86

/-- The saved frame of a task that calls in the state `m`, and its `task_t`. -/
def ownMemory (m : Machine) (t : Word) : Set Word := range (m.reg .esp - 40) 40 ∪ range t 24

/-- A step of the others while `t` is switched out; `W` is what their work is known to do. -/
inductive Away (currentTask t : Word) (own : Set Word) (W : Machine → Machine → Prop) :
    Machine → Machine → Prop
  | work {m m' : Machine} (hown : ∀ x ∈ own, m'.mem x = m.mem x) (hcr3 : m'.cr3 = m.cr3)
      (hw : W m m') :
      Away currentTask t own W m m'
  | switch {m m' : Machine} {cur next : Word} (hcalls : Calls currentTask m cur next)
      (hnext : next ≠ t)
      (hexec : exec (taskSwitch currentTask) 0 m.call = some m')
        (hown : ∀ x ∈ own, m'.mem x = m.mem x) :
      Away currentTask t own W m m'

/-- The work leaves `current_task` and the `page_dir` of the running task as they are. -/
def KeepsDirectory (currentTask : Word) (m m' : Machine) : Prop :=
  load m'.mem currentTask = load m.mem currentTask ∧
    load m'.mem (load m.mem currentTask + 4) = load m.mem (load m.mem currentTask + 4)

/-- `cr3` is the `page_dir` of the running task. -/
def HoldsDirectory (currentTask : Word) (m : Machine) : Prop :=
  m.cr3 = load m.mem (load m.mem currentTask + 4)

/-- The task `t` goes on in `m'` just after the call that it made in `m`. -/
structure GoesOn (currentTask t : Word) (m m' : Machine) : Prop where
  reg : m'.reg = m.reg
  eflags : m'.eflags = m.eflags
  eip : m'.eip = m.eip
  current : load m'.mem currentTask = t
  cr3 : m'.cr3 = load m'.mem (t + 4)
  pageDir : load m'.mem (t + 4) = load m.mem (t + 4)

variable {currentTask t cur next : Word} {m m' m₀ : Machine} {own : Set Word}

/-! ### What is kept while the task is away -/

theorem Saved.congr (h : Saved m.mem t m₀) (hown : ∀ x ∈ ownMemory m₀ t, m'.mem x = m.mem x) :
    Saved m'.mem t m₀ := by
  constructor
  · rw [load_congr (fun x hx => hown x (Or.inr (range_mono (by decide) hx))), h.esp]
  · rw [words_congr (fun x hx => hown x (Or.inl hx)) (by decide), h.words]

theorem pageDir_congr (hown : ∀ x ∈ ownMemory m₀ t, m'.mem x = m.mem x) :
    load m'.mem (t + 4) = load m.mem (t + 4) :=
  load_congr (fun x hx => hown x (Or.inr (field_subset t (show 4 + 4 ≤ 24 by decide) hx)))

theorem HoldsDirectory.switch (h : HoldsDirectory currentTask m)
    (hcalls : Calls currentTask m cur next)
    (hexec : exec (taskSwitch currentTask) 0 m.call = some m') : HoldsDirectory currentTask m' := by
  obtain ⟨m₁, hexec₁, -, hres, -, hdir⟩ := switch_spec hcalls
  rw [hexec₁] at hexec
  cases hexec
  unfold HoldsDirectory at *
  rw [hcalls.current] at h
  rw [hres.current, hdir h]

/-- **One step of the others** keeps the frame and the `page_dir` of `t`. -/
theorem Away.step {W : Machine → Machine → Prop} (h : Away currentTask t own W m m') :
    ∀ x ∈ own, m'.mem x = m.mem x := by
  cases h with
  | work hown _ _ => exact hown
  | switch _ _ _ hown => exact hown

theorem Away.run {W : Machine → Machine → Prop}
    (h : Relation.ReflTransGen (Away currentTask t own W) m m') :
    ∀ x ∈ own, m'.mem x = m.mem x := by
  induction h with
  | refl => exact fun _ _ => rfl
  | tail _ hstep ih =>
    intro x hx
    rw [hstep.step x hx, ih x hx]

theorem Away.directory (h : Away currentTask t own (KeepsDirectory currentTask) m m')
    (hdir : HoldsDirectory currentTask m) : HoldsDirectory currentTask m' := by
  cases h with
  | work _ hcr3 hw =>
    unfold HoldsDirectory at *
    rw [hcr3, hw.1, hw.2, hdir]
  | switch hcalls _ hexec _ => exact hdir.switch hcalls hexec

theorem Away.directory_run
    (h : Relation.ReflTransGen (Away currentTask t own (KeepsDirectory currentTask)) m m')
    (hdir : HoldsDirectory currentTask m) : HoldsDirectory currentTask m' := by
  induction h with
  | refl => exact hdir
  | tail _ hstep ih => exact hstep.directory ih

/-! ### The switch back -/

theorem Saved.goesOn (hs : Saved m'.mem t m₀) (hr : Resumed currentTask m' t)
    (hdir : HoldsDirectory currentTask m') (hpage : load m'.mem (t + 4) = load m₀.mem (t + 4)) :
    GoesOn currentTask t m₀ m' := by
  obtain ⟨hreg, heflags, heip⟩ := hs.resumed hr
  refine ⟨hreg, heflags, heip, hr.current, ?_, hpage⟩
  unfold HoldsDirectory at hdir
  rw [hdir, hr.current]

theorem Calls.pageDir (h : Calls currentTask m t next)
    (hexec : exec (taskSwitch currentTask) 0 m.call = some m') :
    load m'.mem (t + 4) = load m.mem (t + 4) := by
  obtain ⟨m₁, hexec₁, -, -, hout, -⟩ := switch_spec h
  rw [hexec₁] at hexec
  cases hexec
  have hsub : range (t + 4) 4 ⊆ range t 24 := field_subset t (show 4 + 4 ≤ 24 by decide)
  apply load_congr
  intro x hx
  refine hout x (fun hx' => ?_) (fun hx' => ?_) (fun hx' => ?_)
  · exact Set.disjoint_left.mp (h.stack_task.mono_left (range_mono (by decide))) hx' (hsub hx)
  · have hparts :=
      range_add_disjoint (a := t) (i := 0) (n := 4) (j := 4) (k := 4) (by decide) (by decide)
    rw [show t + BitVec.ofNat 32 0 = t by bv_omega] at hparts
    exact Set.disjoint_left.mp hparts hx' hx
  · exact Set.disjoint_left.mp h.task_var (hsub hx) hx'

/-- **A context switch is transparent to the task that is switched out**: after any run of the
others that leaves its frame and its `task_t` alone, a call of `task_switch` for it makes it go on
after its own call. -/
theorem switch_transparent (h : Calls currentTask m₀ t next) (hcr3 : m₀.cr3 = load m₀.mem (t + 4)) :
    ∃ m₁, exec (taskSwitch currentTask) 0 m₀.call = some m₁ ∧
      (next = t → GoesOn currentTask t m₀ m₁) ∧
      ∀ m₂, Relation.ReflTransGen
        (Away currentTask t (ownMemory m₀ t) (KeepsDirectory currentTask)) m₁ m₂ →
        ∀ cur, Calls currentTask m₂ cur t →
          ∃ m₃, exec (taskSwitch currentTask) 0 m₂.call = some m₃ ∧
          ((∀ x ∈ ownMemory m₀ t, m₃.mem x = m₂.mem x) → GoesOn currentTask t m₀ m₃) := by
  obtain ⟨m₁, hexec₁, hsaved₁, hres₁, -, -⟩ := switch_spec h
  have hdir₁ : HoldsDirectory currentTask m₁ := by
    apply HoldsDirectory.switch _ h hexec₁
    unfold HoldsDirectory
    rw [h.current, hcr3]
  have hpage₁ := h.pageDir hexec₁
  refine ⟨m₁, hexec₁, fun hnext => ?_, fun m₂ hrun cur hcalls => ?_⟩
  · rw [hnext] at hres₁
    exact hsaved₁.goesOn hres₁ hdir₁ hpage₁
  · have hown₂ := Away.run hrun
    have hdir₂ := Away.directory_run hrun hdir₁
    obtain ⟨m₃, hexec₃, -, hres₃, -, -⟩ := switch_spec hcalls
    refine ⟨m₃, hexec₃, fun hown₃ => ?_⟩
    have hown : ∀ x ∈ ownMemory m₀ t, m₃.mem x = m₁.mem x :=
      fun x hx => (hown₃ x hx).trans (hown₂ x hx)
    exact (hsaved₁.congr hown).goesOn hres₃ (hdir₂.switch hcalls hexec₃)
      ((pageDir_congr hown).trans hpage₁)

/-! ### Two tasks -/

/-- The task at `0x200` runs and is about to switch to the one at `0x300`; their directories are 1
and 2. -/
def twoTasks : Machine where
  reg := fun _ => 0x1000
  eflags := .ofWord 0x202
  eip := 0x500
  cr3 := 1
  mem := store (store (store (store (store (fun _ => 0) 0x100 0x200) 0x204 1) 0x300 0x2000) 0x304 2)
    0x1000 0x300

/-- The other task has written `dir` to its `page_dir`, and is about to switch back. -/
def switchingBack (m : Machine) (dir : Word) : Machine :=
  { m with reg := fun _ => 0x3000, mem := store (store m.mem 0x304 dir) 0x3000 0x200 }

theorem twoTasks_calls : Calls 0x100 twoTasks 0x200 0x300 where
  current := by decide +kernel
  argument := by decide +kernel
  stack_task := (range_disjoint (by decide) (by decide)).symm
  stack_var := (range_disjoint (by decide) (by decide)).symm
  task_var := (range_disjoint (by decide) (by decide)).symm
  next_var := (range_disjoint (by decide) (by decide)).symm

theorem switchingBack_sp (m : Machine) (dir : Word) :
    (switchingBack m dir).reg .esp - 40 = 0x2fd8 := by
  show (0x3000 : Word) - 40 = 0x2fd8
  decide

theorem switchingBack_calls (h : Resumed 0x100 m 0x300) (dir : Word) :
    Calls 0x100 (switchingBack m dir) 0x300 0x200 where
  current := by
    show load (store (store m.mem 0x304 dir) 0x3000 0x200) 0x100 = _
    rw [load_store_of_disjoint _ (range_disjoint (by decide) (by decide)),
      load_store_of_disjoint _ (range_disjoint (by decide) (by decide)), h.current]
  argument := load_store _ _ _
  stack_task := by
    rw [switchingBack_sp]
    exact (range_disjoint (by decide) (by decide)).symm
  stack_var := by
    rw [switchingBack_sp]
    exact (range_disjoint (by decide) (by decide)).symm
  task_var := (range_disjoint (by decide) (by decide)).symm
  next_var := (range_disjoint (by decide) (by decide)).symm

theorem own_disjoint {a : Word} {n : Nat} (hframe : Disjoint (range 0xfd8 40) (range a n))
    (htask : Disjoint (range 0x200 24) (range a n)) {x : Word} (hx : x ∈ ownMemory twoTasks 0x200) :
    x ∉ range a n := by
  intro hx'
  rcases hx with hx | hx
  · exact Set.disjoint_left.mp hframe hx hx'
  · exact Set.disjoint_left.mp htask hx hx'

theorem switchingBack_own (m : Machine) (dir : Word) {x : Word}
    (hx : x ∈ ownMemory twoTasks 0x200) :
    (switchingBack m dir).mem x = m.mem x := by
  have h1 := own_disjoint (a := 0x3000) (n := 4) (range_disjoint (by decide) (by decide))
    (range_disjoint (by decide) (by decide)) hx
  have h2 := own_disjoint (a := 0x304) (n := 4) (range_disjoint (by decide) (by decide)).symm
    (range_disjoint (by decide) (by decide)) hx
  exact (store_out _ h1).trans (store_out _ h2)

theorem switchedBack_own (h : Resumed 0x100 m 0x300) (dir : Word)
    (hexec : exec (taskSwitch 0x100) 0 (switchingBack m dir).call = some m') {x : Word}
    (hx : x ∈ ownMemory twoTasks 0x200) : m'.mem x = (switchingBack m dir).mem x := by
  obtain ⟨m₁, hexec₁, -, -, hout, -⟩ := switch_spec (switchingBack_calls h dir)
  rw [hexec₁] at hexec
  cases hexec
  rw [switchingBack_sp] at hout
  refine hout x (own_disjoint ?_ ?_ hx) (own_disjoint ?_ ?_ hx) (own_disjoint ?_ ?_ hx)
  · exact range_disjoint (by decide) (by decide)
  · exact range_disjoint (by decide) (by decide)
  · exact (range_disjoint (by decide) (by decide)).symm
  · exact range_disjoint (by decide) (by decide)
  · exact (range_disjoint (by decide) (by decide)).symm
  · exact (range_disjoint (by decide) (by decide)).symm

/-- The first switch, and the two directories after it. -/
theorem twoTasks_switch : ∃ m, exec (taskSwitch 0x100) 0 twoTasks.call = some m ∧
    Resumed 0x100 m 0x300 ∧
    load m.mem 0x204 = 1 ∧ load m.mem 0x304 = 2 ∧ m.cr3 = 2 := by
  obtain ⟨m, hexec, -, hres, hout, hcr3⟩ := switch_spec twoTasks_calls
  have hsame (a : Word) (h1 : Disjoint (range a 4) (range 0xfd8 40))
      (h2 : Disjoint (range a 4) (range 0x200 4))
      (h3 : Disjoint (range a 4) (range 0x100 4)) : load m.mem a = load twoTasks.mem a :=
    load_congr (fun x hx => hout x (Set.disjoint_left.mp h1 hx) (Set.disjoint_left.mp h2 hx)
      (Set.disjoint_left.mp h3 hx))
  have hdir : load m.mem 0x204 = load twoTasks.mem 0x204 := by
    apply hsame
    · exact range_disjoint (by decide) (by decide)
    · exact (range_disjoint (by decide) (by decide)).symm
    · exact (range_disjoint (by decide) (by decide)).symm
  have hdir' : load m.mem 0x304 = load twoTasks.mem 0x304 := by
    apply hsame
    · exact range_disjoint (by decide) (by decide)
    · exact (range_disjoint (by decide) (by decide)).symm
    · exact (range_disjoint (by decide) (by decide)).symm
  have htwo : load twoTasks.mem 0x304 = 2 := by decide +kernel
  refine ⟨m, hexec, hres, hdir.trans (by decide +kernel), hdir'.trans htwo, ?_⟩
  have hcr3' : m.cr3 = load m.mem (0x300 + 4) := hcr3 (by decide +kernel)
  exact hcr3'.trans (hdir'.trans htwo)

theorem switchingBack_dir (m : Machine) (dir : Word) :
    load (switchingBack m dir).mem 0x304 = dir := by
  show load (store (store m.mem 0x304 dir) 0x3000 0x200) 0x304 = dir
  rw [load_store_of_disjoint _ (range_disjoint (by decide) (by decide)), load_store]

theorem switch_transparent_twoTasks : Calls 0x100 twoTasks 0x200 0x300 ∧
    twoTasks.cr3 = load twoTasks.mem (0x200 + 4) ∧
    ∃ m₁ m₃, exec (taskSwitch 0x100) 0 twoTasks.call = some m₁ ∧
      exec (taskSwitch 0x100) 0 (switchingBack m₁ 2).call = some m₃ ∧
        GoesOn 0x100 0x200 twoTasks m₃ := by
  have hcr3 : twoTasks.cr3 = load twoTasks.mem (0x200 + 4) := by decide +kernel
  obtain ⟨m, hexec, hres, -, hdir, -⟩ := twoTasks_switch
  obtain ⟨m₁, hexec₁, -, hback⟩ := switch_transparent twoTasks_calls hcr3
  rw [hexec] at hexec₁
  cases hexec₁
  have hcalls := switchingBack_calls hres 2
  have hkeeps : KeepsDirectory 0x100 m (switchingBack m 2) := by
    refine ⟨hcalls.current.trans hres.current.symm, ?_⟩
    rw [hres.current]
    exact (switchingBack_dir m 2).trans hdir.symm
  obtain ⟨m₃, hexec₃, hgoes⟩ := hback (switchingBack m 2)
    (.single (.work (fun x hx => switchingBack_own m 2 hx) rfl hkeeps)) 0x300 hcalls
  exact ⟨twoTasks_calls, hcr3, m, m₃, hexec, hexec₃,
    hgoes (fun x hx => switchedBack_own hres 2 hexec₃ hx)⟩

/-- **A load of `cr3` that is skipped**: the other task sets its `page_dir` to the one of `t`, so
that `task_switch(t)` takes the two directories to be the same. -/
theorem skipped_load : ∃ (currentTask t cur next : Word) (m₀ m₁ m₂ m₃ : Machine),
    Calls currentTask m₀ t next ∧ m₀.cr3 = load m₀.mem (t + 4) ∧
    exec (taskSwitch currentTask) 0 m₀.call = some m₁ ∧
    Relation.ReflTransGen (Away currentTask t (ownMemory m₀ t) (fun _ _ => True)) m₁ m₂ ∧
    Calls currentTask m₂ cur t ∧ exec (taskSwitch currentTask) 0 m₂.call = some m₃ ∧
    (∀ x ∈ ownMemory m₀ t, m₃.mem x = m₂.mem x) ∧ m₃.cr3 ≠ load m₃.mem (t + 4) := by
  obtain ⟨m, hexec, hres, hone, -, htwo⟩ := twoTasks_switch
  have hcalls := switchingBack_calls hres 1
  have hown : ∀ x ∈ ownMemory twoTasks 0x200, (switchingBack m 1).mem x = m.mem x :=
    fun x hx => switchingBack_own m 1 hx
  have hexec₃ := exec_taskSwitch 0x100 (switchingBack m 1)
  have hown₃ := fun x (hx : x ∈ ownMemory twoTasks 0x200) => switchedBack_own hres 1 hexec₃ hx
  have hpage : load (switched 0x100 (switchingBack m 1)).mem (0x200 + 4) = 1 :=
    (pageDir_congr (fun x hx => (hown₃ x hx).trans (hown x hx))).trans hone
  refine ⟨0x100, 0x200, 0x300, 0x300, twoTasks, m, switchingBack m 1, _, twoTasks_calls,
    by decide +kernel, hexec,
    .single (.work hown rfl trivial), hcalls, hexec₃, hown₃, ?_⟩
  obtain ⟨mem, hreads, hswitched⟩ := hcalls.switched
  have hdir : load mem (0x200 + 4) = 1 := by
    have hsame : load mem (0x200 + 4) = load (switchingBack m 1).mem (0x200 + 4) := by
      have hsp := switchingBack_sp m 1
      refine load_congr (fun x hx => hreads.out x (fun hx' => ?_) (fun hx' => ?_))
      · rw [hsp] at hx'
        exact Set.disjoint_left.mp (range_disjoint (by decide) (by decide)) hx hx'
      · exact Set.disjoint_left.mp (range_disjoint (by decide) (by decide)) hx hx'
    exact hsame.trans ((pageDir_congr hown).trans hone)
  rw [hpage, hswitched]
  simp only [hdir]
  rw [if_pos (show load (switchingBack m 1).mem (0x300 + 4) = 1 from switchingBack_dir m 1)]
  show m.cr3 ≠ 1
  rw [htwo]
  decide

end CobraOS.Task
