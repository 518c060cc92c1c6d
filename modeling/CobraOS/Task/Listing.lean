import CobraOS.Task.Fair

/-!
# The command `tasks`, `arch/x86/kernel/shell.c`

`cmd_tasks` starts at the running task and follows the links, and the last link of the queue is
null.  So it prints the running task and those behind it (`cmdTasks_eq`): all tasks exactly when the
running one is the head of the queue (`lists_iff`).
-/

namespace CobraOS.Task

open Base

/-- A line of the listing; the task that it is about is not printed. -/
structure Row where
  task : Nat
  text : String

def tasksHeader : String := "PID  STATE\n" ++ "---  -----\n"

/-- The `switch` of `cmd_tasks`. -/
def stateText : TaskState → String
  | .running => "RUNNING"
  | .ready => "READY"
  | .blocked => "BLOCKED"
  | _ => "UNKNOWN"

/-- The body of the loop for the task at `t`. -/
def taskRow (current t : Nat) (task : TaskT) : Row :=
  ⟨t, String.ofList (Nat.toDigits 10 task.pid) ++ "    " ++ stateText task.state ++
    (if t = current then " *" else "") ++ "\n"⟩

/-- The loop, when `left` more lines may be shown. -/
def tasksLoop (s : State) (current : Nat) : Nat → Nat → Option (List Row)
  | 0, _ => some []
  | left + 1, t => do
    let task ← s.tasks t
    match task.next with
    | none => some [taskRow current t task]
    | some next =>
      if next = current then some [taskRow current t task]
      else (tasksLoop s current left next).map (taskRow current t task :: ·)

def cmdTasks (s : State) : Option (String × List Row) :=
  match s.current with
  | none => some (tasksHeader ++ "No tasks.\n", [])
  | some current => do
    let rows ← tasksLoop s current 64 current
    some (tasksHeader, rows)

/-- **The listing has each task of the queue once.** -/
def Lists (s : State) (q : List Nat) : Prop :=
  ∃ shown rows, cmdTasks s = some (shown, rows) ∧ (rows.map Row.task).Perm q

variable {base : Nat → Bool} {s : State} {q : List Nat} {c : Nat}

/-- The line of a task. -/
def rowOf (s : State) (current t : Nat) : Row := taskRow current t ((s.tasks t).getD .zero)

theorem tasksLoop_eq : ∀ {l : List Nat} (left : Nat) {t : Nat}, Chain (links s) (some t) (t :: l) →
    (∀ a ∈ t :: l, (s.tasks a).isSome = true) → c ∉ l →
    tasksLoop s c left t = some (((t :: l).take left).map (rowOf s c)) := by
  intro l
  induction l with
  | nil =>
    intro left t hchain hsome _
    obtain ⟨task, hget⟩ := Option.isSome_iff_exists.mp (hsome t List.mem_cons_self)
    have hnext : task.next = none := by
      have hlink := (Chain.cons_iff.mp hchain).2
      rwa [Chain.nil_iff, links, hget] at hlink
    cases left with
    | zero => rfl
    | succ left => simp [tasksLoop, hget, hnext, rowOf]
  | cons b l ih =>
    intro left t hchain hsome hc
    obtain ⟨task, hget⟩ := Option.isSome_iff_exists.mp (hsome t List.mem_cons_self)
    obtain ⟨-, hrest⟩ := Chain.cons_iff.mp hchain
    have hlink : links s t = some b := (Chain.cons_iff.mp hrest).1
    have hnext : task.next = some b := by rwa [links, hget] at hlink
    rw [hlink] at hrest
    obtain ⟨hbc, hc⟩ := not_or.mp (mt List.mem_cons.mpr hc)
    cases left with
    | zero => rfl
    | succ left =>
      have hloop := ih left hrest (fun a ha => hsome a (List.mem_cons_of_mem _ ha)) hc
      simp [tasksLoop, hget, hnext, Ne.symm hbc, hloop, rowOf]

/-- **The listing**: the running task and those behind it, as far as there is room. -/
theorem cmdTasks_eq {pre post : List Nat} (h : Good base s q c) (hq : q = pre ++ c :: post) :
    cmdTasks s = some (tasksHeader, ((c :: post).take 64).map (rowOf s c)) := by
  have hnd := h.queue_nodup
  have hchain := h.chain
  rw [hq] at hnd hchain
  obtain ⟨r, -, hpost⟩ := Chain.append_iff.mp hchain
  obtain rfl := (Chain.cons_iff.mp hpost).1
  have hsome : ∀ a ∈ c :: post, (s.tasks a).isSome = true :=
    fun a ha => (h.linked a).mpr (hq ▸ List.mem_append_right _ ha)
  have hc : c ∉ post := (List.nodup_cons.mp (List.nodup_append.mp hnd).2.1).1
  unfold cmdTasks
  rw [h.current]
  simp [tasksLoop_eq 64 hpost hsome hc]

/-- With up to 64 tasks in the queue, all of them are listed exactly when the running task is the
head. -/
theorem Good.lists (h : Good base s q c) (hlen : q.length ≤ 64) :
    Lists s q ↔ s.current = s.queue := by
  obtain ⟨pre, post, hq⟩ := List.append_of_mem h.mem
  have hlist := cmdTasks_eq h hq
  have hhead := h.chain.head_eq
  have hle : (c :: post).length ≤ 64 := by
    rw [hq, List.length_append] at hlen
    omega
  have hrows : ((c :: post).map (rowOf s c)).map Row.task = c :: post := by
    rw [List.map_map]
    exact List.map_id _
  rw [List.take_of_length_le hle] at hlist
  rw [h.current, hhead, hq]
  constructor
  · rintro ⟨shown, rows, hcmd, hperm⟩
    rw [hlist] at hcmd
    cases hcmd
    rw [hrows] at hperm
    have hsize := hperm.length_eq
    rw [List.length_append] at hsize
    obtain rfl : pre = [] := List.eq_nil_of_length_eq_zero (by omega)
    rfl
  · intro hcur
    refine ⟨_, _, hlist, ?_⟩
    rw [hrows]
    cases pre with
    | nil => exact .refl _
    | cons b pre =>
      -- The head is not the running task, which stands further behind.
      have hnd := h.queue_nodup
      obtain rfl : c = b := Option.some.inj hcur
      rw [hq, List.cons_append] at hnd
      exact absurd (by simp) (List.nodup_cons.mp hnd).1

/-- **All tasks are listed**, in a reachable state with at most 64 of them, exactly when the running
task is the head of the queue. -/
theorem lists_iff (hs : system.Reach s) (hq : Chain (links s) s.queue q) (hlen : q.length ≤ 64) :
    Lists s q ↔ s.current = s.queue := by
  obtain ⟨base, q', c, alive, hinv⟩ := reach_inv hs
  obtain rfl := hq.unique hinv.good.chain
  exact hinv.good.lists hlen

theorem lists_iff_demo : system.Reach demoCreated ∧ Lists demoCreated [16, 48] :=
  have hchain : Chain (links demoCreated) demoCreated.queue [16, 48] := ⟨rfl, rfl, rfl⟩
  ⟨demo_reach.2, (lists_iff demo_reach.2 hchain (by decide)).mpr rfl⟩

/-- When the task that has been created runs, the first one is not listed. -/
theorem tasks_missed : system.Reach demoSwitched ∧
    Chain (links demoSwitched) demoSwitched.queue [16, 48] ∧
    ¬Lists demoSwitched [16, 48] := by
  have hreach : system.Reach demoSwitched := demo_reach.2.step (e := .schedule) ⟨true, rfl⟩
  have hchain : Chain (links demoSwitched) demoSwitched.queue [16, 48] := ⟨rfl, rfl, rfl⟩
  refine ⟨hreach, hchain, fun hlists => ?_⟩
  obtain ⟨base, q, c, alive, hinv⟩ := reach_inv hreach
  obtain rfl := hchain.unique hinv.good.chain
  exact absurd ((hinv.good.lists (by decide)).mp hlists) (by decide)

end CobraOS.Task
