import CobraOS.Task.Create

/-!
# The invariant of the scheduler

`Inv` holds after `tasking_init` and is kept by every step (`Inv.step`): the running task is the
only one whose state says so, and the tasks that have been created and have not exited are those of
the queue that are not terminated.  `Stepped` says what a step does to the terminated tasks: they
stay terminated until `schedule` frees them, all at once.
-/

namespace CobraOS.Task

open Base

/-- What the events say about a task: whether it has been created and has not exited since. -/
def aliveStep (alive : Nat → Bool) : Event → Nat → Bool
  | .create _ _ _ (some t) => Function.update alive t true
  | .create _ _ _ none => alive
  | .schedule => alive
  | .exit t => Function.update alive t false

/-- After a run that starts with the task `first`. -/
def aliveAfter (first : Nat) (l : List Event) : Nat → Bool :=
  l.foldl aliveStep (fun t => t == first)

structure Inv (base : Nat → Bool) (s : State) (q : List Nat) (c : Nat)
    (alive : Nat → Bool) : Prop where
  good : Good base s q c
  running : ∀ t, stateOf s t = some .running ↔ t = c
  alive : ∀ t, alive t = true ↔ t ∈ q ∧ stateOf s t ≠ some .terminated

/-- The blocks of the terminated tasks. -/
def terminatedBlocks (s : State) (q : List Nat) : List Nat :=
  (q.filter (fun t => decide (stateOf s t = some .terminated))).flatMap (owns s)

/-- A terminated task stays as it is, or is unlinked and its blocks are freed. -/
structure Stepped (s : State) (q : List Nat) (s' : State) (q' : List Nat) : Prop where
  terminated : ∀ t ∈ q, stateOf s t = some .terminated →
    (t ∈ q' ∧ stateOf s' t = some .terminated ∧ owns s' t = owns s t) ∨
      (t ∉ q' ∧ s'.tasks t = none ∧ ∀ a ∈ owns s t, s'.live a = false)

variable {base alive : Nat → Bool} {s s' : State} {q : List Nat} {c c' t : Nat} {switched : Bool}

theorem Good.stateOf_mem (h : Good base s q c) {x : TaskState} (ht : stateOf s t = some x) :
    t ∈ q := by
  rw [← h.linked]
  unfold stateOf at ht
  cases hget : s.tasks t with
  | none =>
    rw [hget] at ht
    cases ht
  | some _ => rfl

/-! ### Scheduling -/

theorem Scheduled.terminated_iff (h : Scheduled base s q c switched s' c') (ht : t ∈ q) :
    stateOf s' t = some .terminated ↔ stateOf s t = some .terminated := by
  rcases h.result with ⟨-, -, hstates, -⟩ | ⟨-, -, -, hready, hstates⟩
  · rw [hstates t ht]
  · rw [hstates t ht]
    unfold statesAfter
    by_cases htc' : t = c'
    · rw [if_pos htc', htc', hready]
      simp
    · rw [if_neg htc']
      by_cases htc : t = c ∧ stateOf s c = some .running
      · rw [if_pos htc, htc.1, htc.2]
        simp
      · rw [if_neg htc]

theorem Scheduled.running_iff (h : Scheduled base s q c switched s' c')
    (hothers : ∀ t ∈ q, t ≠ c → stateOf s t ≠ some .running)
    (hself : switched = false → stateOf s c = some .running) :
    ∀ t, stateOf s' t = some .running ↔ t = c' := by
  intro t
  constructor
  · intro ht
    have hq := h.good.stateOf_mem ht
    by_contra hne
    rcases h.result with ⟨-, rfl, hstates, -⟩ | ⟨-, -, -, -, hstates⟩
    · rw [hstates t hq] at ht
      exact hothers t hq hne ht
    · rw [hstates t hq] at ht
      unfold statesAfter at ht
      rw [if_neg hne] at ht
      by_cases htc : t = c ∧ stateOf s c = some .running
      · rw [if_pos htc] at ht
        cases ht
      · rw [if_neg htc] at ht
        by_cases heq : t = c
        · exact htc ⟨heq, heq ▸ ht⟩
        · exact hothers t hq heq ht
  · rintro rfl
    rcases h.result with ⟨hsw, rfl, hstates, -⟩ | ⟨-, hc', -, -, hstates⟩
    · rw [hstates t h.good.mem]
      exact hself hsw
    · rw [hstates t hc', statesAfter, if_pos rfl]

/-- The queue after `schedule`, when the terminated tasks are not running. -/
theorem mem_filter_keeps : t ∈ q.filter (keeps s c) ↔ t ∈ q ∧
    (stateOf s t ≠ some .terminated ∨ t = c) := by
  rw [List.mem_filter]
  unfold keeps
  rw [decide_eq_true_iff]

theorem schedule_stepped (h : Good base s q c)
    (hsched : Scheduled base s (q.filter (keeps s c)) c switched s' c') :
    Stepped s q s' (q.filter (keeps s c)) := by
  refine ⟨fun t ht hterm => ?_⟩
  by_cases hkeep : t ∈ q.filter (keeps s c)
  · exact Or.inl ⟨hkeep, (hsched.terminated_iff hkeep).mpr hterm, hsched.owns t hkeep⟩
  · have hnone : s'.tasks t = none := by
      rw [← hsched.good.linked, Bool.not_eq_true, Option.isSome_eq_false_iff,
        Option.isNone_iff_eq_none] at hkeep
      exact hkeep
    refine Or.inr ⟨hkeep, hnone, fun a ha => ?_⟩
    have hblock : a ∈ q.flatMap (owns s) := List.mem_flatMap.mpr ⟨t, ht, ha⟩
    rw [← Bool.not_eq_true, hsched.good.live, flatMap_owns hsched.owns]
    rintro (hbase | hmem)
    · rw [h.apart a hblock] at hbase
      cases hbase
    · -- the block would be one of another task as well
      obtain ⟨b, hb, hab⟩ := List.mem_flatMap.mp hmem
      obtain ⟨pre, post, rfl⟩ := List.append_of_mem ht
      have hbt : b ≠ t := fun heq => hkeep (heq ▸ hb)
      refine h.owns_apart ha (List.mem_flatMap.mpr ⟨b, ?_, hab⟩)
      have hmid := (List.mem_filter.mp hb).1
      simp only [List.mem_append, List.mem_cons, hbt, false_or] at hmid
      exact List.mem_append.mpr hmid

/-! ### Steps -/

theorem terminatedBlocks_eq (hc : stateOf s c ≠ some .terminated ∨ c ∉ q) :
    (q.filter (fun t => !keeps s c t)).flatMap (owns s) = terminatedBlocks s q := by
  unfold terminatedBlocks
  congr 1
  refine List.filter_congr (fun t ht => ?_)
  unfold keeps
  by_cases htc : t = c
  · subst htc
    simp [hc.resolve_right (not_not.mpr ht)]
  · simp [htc]

/-- **A call of `schedule`.** -/
theorem Inv.schedule (h : Inv base s q c alive) :
    ∃ switched s' c', Task.schedule s = some (switched, s') ∧
    Inv base s' (q.filter (keeps s c)) c' alive ∧ Stepped s q s' (q.filter (keeps s c)) ∧
    s'.freed = s.freed ++ terminatedBlocks s q := by
  obtain ⟨switched, s', c', hs', hsched, hfreed⟩ := schedule_spec h.good
  have hrun : stateOf s c = some .running := (h.running c).mpr rfl
  rw [terminatedBlocks_eq (Or.inl (by rw [hrun]; decide))] at hfreed
  refine ⟨switched, s', c', hs', ⟨hsched.good, ?_, fun t => ?_⟩,
    schedule_stepped h.good hsched, hfreed⟩
  · exact hsched.running_iff (fun t _ htc hst => htc ((h.running t).mp hst)) (fun _ => hrun)
  · rw [h.alive]
    constructor
    · rintro ⟨ht, hterm⟩
      have hkeep : t ∈ q.filter (keeps s c) := mem_filter_keeps.mpr ⟨ht, Or.inl hterm⟩
      exact ⟨hkeep, fun hst => hterm ((hsched.terminated_iff hkeep).mp hst)⟩
    · rintro ⟨hkeep, hterm⟩
      exact ⟨(mem_filter_keeps.mp hkeep).1,
        fun hst => hterm ((hsched.terminated_iff hkeep).mpr hst)⟩

/-- **A call of `task_exit`.**  If another task runs afterwards the invariant holds. -/
theorem Inv.exit (h : Inv base s q c alive) : ∃ switched s', taskExit s = some (switched, s') ∧
    s'.freed = s.freed ++ terminatedBlocks s q ∧ (switched = true → ∃ c',
      Inv base s' (q.filter (keeps s c)) c' (Function.update alive c false) ∧
      Stepped s q s' (q.filter (keeps s c))) := by
  have hrun : stateOf s c = some .running := (h.running c).mpr rfl
  obtain ⟨s₁, hs₁, hgood₁, hset⟩ := setState_spec h.good h.good.mem .terminated
  obtain ⟨switched, s', c', hs', hsched, hfreed⟩ := schedule_spec hgood₁
  have hstate₁ : ∀ t, t ≠ c → stateOf s₁ t = stateOf s t := fun t ht => by
    rw [hset.state, if_neg ht]
  have hkeeps : ∀ t, keeps s₁ c t = keeps s c t := by
    intro t
    unfold keeps
    by_cases htc : t = c
    · simp [htc]
    · rw [hstate₁ t htc]
  have hfilter : q.filter (keeps s₁ c) = q.filter (keeps s c) :=
    List.filter_congr (fun t _ => hkeeps t)
  have hfilter' : q.filter (fun t => !keeps s₁ c t) = q.filter (fun t => !keeps s c t) :=
    List.filter_congr (fun t _ => by rw [hkeeps])
  rw [hfilter] at hsched
  rw [hfilter', flatMap_owns (fun t _ => hset.owns t), hset.freed,
    terminatedBlocks_eq (Or.inl (by rw [hrun]; decide))] at hfreed
  refine ⟨switched, s', ?_, hfreed,
    fun hsw => ⟨c', ⟨hsched.good, ?_, fun t => ?_⟩, ⟨fun t ht hterm => ?_⟩⟩⟩
  · unfold taskExit
    rw [h.good.current]
    show (s.setState c .terminated).bind _ = _
    rw [hs₁]
    exact hs'
  · apply hsched.running_iff
    · intro t _ htc hst
      rw [hstate₁ t htc] at hst
      exact htc ((h.running t).mp hst)
    · intro hfalse
      rw [hsw] at hfalse
      cases hfalse
  · by_cases htc : t = c
    · subst htc
      rw [Function.update_self]
      simp only [Bool.false_eq_true, false_iff, not_and, not_not]
      intro hkeep
      rw [hsched.terminated_iff hkeep, hset.state, if_pos rfl]
    · rw [Function.update_of_ne htc, h.alive]
      constructor
      · rintro ⟨ht, hterm⟩
        have hkeep : t ∈ q.filter (keeps s c) := mem_filter_keeps.mpr ⟨ht, Or.inl hterm⟩
        refine ⟨hkeep, fun hst => hterm ?_⟩
        rw [← hstate₁ t htc]
        exact (hsched.terminated_iff hkeep).mp hst
      · rintro ⟨hkeep, hterm⟩
        refine ⟨(mem_filter_keeps.mp hkeep).1,
          fun hst => hterm ((hsched.terminated_iff hkeep).mpr ?_)⟩
        rw [hstate₁ t htc, hst]
  · have htc : t ≠ c := by
      rintro rfl
      rw [hrun] at hterm
      cases hterm
    rw [← hfilter] at hsched ⊢
    have hstep := (schedule_stepped hgood₁ hsched).terminated t ht (by rw [hstate₁ t htc, hterm])
    rwa [hset.owns] at hstep

/-- The invariant is about the tasks, the queue, the running task and the live blocks only. -/
theorem Inv.same (h : Inv base s q c alive) (htasks : s'.tasks = s.tasks)
    (hqueue : s'.queue = s.queue) (hcurrent : s'.current = s.current) (hlive : s'.live = s.live) :
    Inv base s' q c alive ∧ Stepped s q s' q := by
  have howns : owns s' = owns s := by
    funext t
    rw [owns, htasks]
    rfl
  have hstate : stateOf s' = stateOf s := by
    funext t
    rw [stateOf, htasks]
    rfl
  have hlinks : links s' = links s := by
    funext t
    rw [links, htasks]
    rfl
  have hg := h.good
  refine ⟨⟨⟨?_, hg.address, hcurrent.trans hg.current, hg.mem, ?_, ?_, ?_, ?_⟩, ?_, ?_⟩,
    ⟨fun t ht hterm => ?_⟩⟩
  · rw [hlinks, hqueue]
    exact hg.chain
  · rw [htasks]
    exact hg.linked
  · rw [howns]
    exact hg.nodup
  · rw [howns, hlive]
    exact hg.live
  · rw [howns]
    exact hg.apart
  · rw [hstate]
    exact h.running
  · rw [hstate]
    exact h.alive
  · rw [hstate, howns]
    exact Or.inl ⟨ht, hterm, rfl⟩

/-- A task that is ready has joined the queue, and the others are as they were. -/
theorem Inv.joined (h : Inv base s q c alive) {a : Nat} (hgood : Good base s' (q ++ [a]) c)
    (hcontent : ∀ t ∈ q, content s' t = content s t) (hready : stateOf s' a = some .ready) :
    Inv base s' (q ++ [a]) c (Function.update alive a true) ∧ Stepped s q s' (q ++ [a]) := by
  have hstate : ∀ t ∈ q, stateOf s' t = stateOf s t := fun t ht => content_state (hcontent t ht)
  refine ⟨⟨hgood, fun t => ?_, fun t => ?_⟩, ⟨fun t ht hterm => Or.inl ⟨?_, ?_, ?_⟩⟩⟩
  · by_cases hq : t ∈ q
    · rw [hstate t hq, h.running]
    · constructor
      · intro hst
        rcases List.mem_append.mp (hgood.stateOf_mem hst) with hmem | hmem
        · exact absurd hmem hq
        · rw [List.mem_singleton.mp hmem, hready] at hst
          cases hst
      · rintro rfl
        exact absurd h.good.mem hq
  · by_cases hta : t = a
    · subst hta
      rw [Function.update_self, hready]
      simp
    · rw [Function.update_of_ne hta, h.alive, List.mem_append, List.mem_singleton]
      constructor
      · rintro ⟨ht, hterm⟩
        exact ⟨Or.inl ht, by rwa [hstate t ht]⟩
      · rintro ⟨ht, hterm⟩
        have hq := ht.resolve_right hta
        exact ⟨hq, by rwa [hstate t hq] at hterm⟩
  · exact List.mem_append_left _ ht
  · rw [hstate t ht, hterm]
  · exact content_owns (hcontent t ht)

/-- **A call of `task_create`.** -/
theorem Inv.create (h : Inv base s q c alive) (pageDir : Nat) {answer answer' : Option Nat}
    (ha : ∀ a ∈ answer, Granted s a) (hb : ∀ b ∈ answer', Granted s b ∧ answer ≠ some b) :
    ∃ result s' q', taskCreate s pageDir answer answer' = some (result, s') ∧
      Inv base s' q' c (aliveStep alive (.create pageDir answer answer' result)) ∧
        Stepped s q s' q' ∧
      (result = none → s'.tasks = s.tasks ∧ s'.queue = s.queue ∧ s'.live = s.live) := by
  by_cases hnone : answer = none ∨ answer' = none
  · obtain ⟨s', hs', htasks, hqueue, hcurrent, hlive, -⟩ := create_none h.good ha pageDir hnone
    obtain ⟨hinv, hstepped⟩ := h.same htasks hqueue hcurrent hlive
    exact ⟨none, s', q, hs', hinv, hstepped, fun _ => ⟨htasks, hqueue, hlive⟩⟩
  · rw [not_or] at hnone
    obtain ⟨a, rfl⟩ := Option.ne_none_iff_exists'.mp hnone.1
    obtain ⟨b, rfl⟩ := Option.ne_none_iff_exists'.mp hnone.2
    obtain ⟨hgb, hab⟩ := hb b rfl
    obtain ⟨s', hs', hgood', hcontent, hready, -, -⟩ :=
      create_some h.good (ha a rfl) hgb (fun heq => hab (by rw [heq])) pageDir
    obtain ⟨hinv, hstepped⟩ := h.joined hgood' hcontent hready
    exact ⟨some a, s', q ++ [a], hs', hinv, hstepped, fun hn => (by cases hn)⟩

/-- **One step** keeps the invariant. -/
theorem Inv.step {e : Event} (h : Inv base s q c alive) (hs : Step s e s') :
    ∃ q' c', Inv base s' q' c' (aliveStep alive e) ∧ Stepped s q s' q' := by
  cases e with
  | create pageDir answer answer' result =>
    obtain ⟨ha, hb, hs⟩ := hs
    obtain ⟨r, s₁, q', hs₁, hinv, hstepped, -⟩ := h.create pageDir ha hb
    rw [hs₁] at hs
    cases hs
    exact ⟨q', c, hinv, hstepped⟩
  | schedule =>
    obtain ⟨switched, hs⟩ := hs
    obtain ⟨_, s₁, c', hs₁, hinv, hstepped, -⟩ := h.schedule
    rw [hs₁] at hs
    cases hs
    exact ⟨_, c', hinv, hstepped⟩
  | exit t =>
    obtain ⟨hcur, hs⟩ := hs
    obtain rfl : c = t := by
      rw [h.good.current] at hcur
      exact Option.some.inj hcur
    obtain ⟨_, s₁, hs₁, -, hinv⟩ := h.exit
    rw [hs₁] at hs
    cases hs
    obtain ⟨c', hinv, hstepped⟩ := hinv rfl
    exact ⟨_, c', hinv, hstepped⟩

/-- **A run** keeps the invariant. -/
theorem Inv.run {l : List Event} (hrun : system.Run s l s') : ∀ {q : List Nat} {c : Nat}
    {alive : Nat → Bool},
    Inv base s q c alive → ∃ q' c', Inv base s' q' c' (l.foldl aliveStep alive) := by
  induction hrun with
  | nil s => exact fun h => ⟨_, _, h⟩
  | cons hstep _ ih =>
    intro q c alive h
    obtain ⟨q₁, c₁, h₁, -⟩ := h.step hstep
    exact ih h₁

theorem inv_booted {first : Nat} (h : Booted base first s) :
    Inv base s [first] first (fun t => t == first) := by
  obtain ⟨hgranted, cr3, hinit⟩ := h
  cases hinit
  have hfree : base first = false := hgranted.2
  have htasks : ∀ t, ((blank base).alloc first).tasks t = none := fun _ => rfl
  refine ⟨⟨⟨rfl, ?_⟩, ?_, rfl, List.mem_singleton_self _, fun t => ?_, ?_, fun a => ?_, ?_⟩,
    fun t => ?_, fun t => ?_⟩
  · simp [links, State.set, State.alloc, TaskT.zero]
  · intro t ht
    rw [List.mem_singleton.mp ht]
    exact hgranted.1
  · by_cases ht : t = first
    · simp [ht, State.set]
    · simp [ht, State.set, State.alloc, blank]
  · simp [owns, State.set, blocks, TaskT.zero]
  · by_cases ha : a = first
    · simp [ha, State.set, State.alloc, owns, blocks, TaskT.zero]
    · simp [ha, State.set, State.alloc, owns, blocks, TaskT.zero, blank]
  · simp [owns, State.set, blocks, TaskT.zero, hfree]
  · by_cases ht : t = first
    · simp [ht, stateOf, State.set]
    · simp [ht, stateOf, State.set, State.alloc, blank]
  · by_cases ht : t = first
    · simp [ht, stateOf, State.set]
    · simp [ht]

/-- **The scheduler invariant**, in every run after `tasking_init`: the queue is a chain that holds
the running task, which is the only one in the state `running`, and every task that has been created
and has not exited; the blocks in use are those of the queue, each once; every call returns, the
next call of `schedule` frees the blocks of all terminated tasks, and until then they stay
terminated. -/
theorem scheduler_invariant {first : Nat} {s₀ : State} {l : List Event} (h₀ : Booted base first s₀)
    (h : system.Run s₀ l s) : ∃ q c,
      (Chain (links s) s.queue q ∧ q.Nodup ∧ s.current = some c ∧ c ∈ q) ∧
      (∀ t, stateOf s t = some .running ↔ t = c) ∧
      (∀ t, aliveAfter first l t = true ↔ t ∈ q ∧ stateOf s t ≠ some .terminated) ∧
      ((q.flatMap (owns s)).Nodup ∧ ∀ a, s.live a = true ↔ base a = true ∨ a ∈ q.flatMap (owns s)) ∧
      (∀ pageDir answer answer', (∀ a ∈ answer, Granted s a) →
        (∀ b ∈ answer', Granted s b ∧ answer ≠ some b) →
        ∃ result s', taskCreate s pageDir answer answer' = some (result, s') ∧
          (result = none → s'.tasks = s.tasks ∧ s'.queue = s.queue ∧ s'.live = s.live)) ∧
      (∃ switched s', Task.schedule s = some (switched, s') ∧
        s'.freed = s.freed ++ terminatedBlocks s q) ∧
      (∃ switched s', taskExit s = some (switched, s') ∧
        s'.freed = s.freed ++ terminatedBlocks s q) ∧
      ∀ e s', Step s e s' → ∃ q', Chain (links s') s'.queue q' ∧ Stepped s q s' q' := by
  obtain ⟨q, c, hinv⟩ := Inv.run h (inv_booted h₀)
  have hg := hinv.good
  refine ⟨q, c, ⟨hg.chain, hg.queue_nodup, hg.current, hg.mem⟩, hinv.running, hinv.alive,
    ⟨hg.nodup, hg.live⟩, fun pageDir answer answer' ha hb => ?_, ?_, ?_, fun e s' hstep => ?_⟩
  · obtain ⟨result, s', _, hs', -, -, hnone⟩ := hinv.create pageDir ha hb
    exact ⟨result, s', hs', hnone⟩
  · obtain ⟨switched, s', _, hs', -, -, hfreed⟩ := hinv.schedule
    exact ⟨switched, s', hs', hfreed⟩
  · obtain ⟨switched, s', hs', hfreed, -⟩ := hinv.exit
    exact ⟨switched, s', hs', hfreed⟩
  · obtain ⟨q', c', hinv', hstepped⟩ := hinv.step hstep
    exact ⟨q', hinv'.good.chain, hstepped⟩

/-! ### A task that is created, runs and exits -/

def demoBooted : State := (taskingInit (blank (fun _ => false)) (some 16) 0).get rfl

def demoCreated : State := ((taskCreate demoBooted 0 (some 48) (some 4096)).get rfl).2

def demoSwitched : State := ((schedule demoCreated).get rfl).2

def demoExited : State := ((taskExit demoSwitched).get rfl).2

theorem scheduler_invariant_demo : Booted (fun _ => false) 16 demoBooted ∧
    system.Run demoBooted [.create 0 (some 48) (some 4096) (some 48), .schedule, .exit 48]
      demoExited ∧
    ∃ (q : List Nat) (c : Nat), demoExited.current = some c ∧
      (∀ t, stateOf demoExited t = some .running ↔ t = c) ∧ c ∈ q := by
  have hboot : Booted (fun _ => false) 16 demoBooted := ⟨⟨by decide, rfl⟩, 0, rfl⟩
  have hcreate : Step demoBooted (.create 0 (some 48) (some 4096) (some 48)) demoCreated := by
    refine ⟨fun a ha => ?_, fun b hb => ?_, rfl⟩
    · cases ha
      exact ⟨by decide, rfl⟩
    · cases hb
      exact ⟨⟨by decide, rfl⟩, by decide⟩
  have hschedule : Step demoCreated .schedule demoSwitched := ⟨true, rfl⟩
  have hexit : Step demoSwitched (.exit 48) demoExited := ⟨rfl, rfl⟩
  have hrun : system.Run demoBooted [.create 0 (some 48) (some 4096) (some 48), .schedule, .exit 48]
      demoExited :=
    .cons hcreate (.cons hschedule (.cons hexit (.nil _)))
  obtain ⟨q, c, ⟨-, -, hcurrent, hmem⟩, hrunning, -⟩ := scheduler_invariant hboot hrun
  exact ⟨hboot, hrun, q, c, hcurrent, hrunning, hmem⟩

end CobraOS.Task
