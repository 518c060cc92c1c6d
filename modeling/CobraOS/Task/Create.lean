import CobraOS.Task.Schedule

/-!
# What `task_create` does

A task that is created is the last of the queue, ready, and owns the two new blocks (`create_some`).
When an allocation fails everything is as before, but for a block that has been allocated and freed
again (`create_none`).
-/

namespace CobraOS.Task

open Base

variable {base : Nat → Bool} {s s' : State} {q : List Nat} {c t a b : Nat} {task : TaskT}

theorem Good.granted (h : Good base s q c) (ha : s.live a = false) :
    a ∉ q.flatMap (owns s) ∧ a ∉ q ∧ s.tasks a = none ∧ base a = false := by
  have hnot : ¬ (base a = true ∨ a ∈ q.flatMap (owns s)) := by
    rw [← h.live, ha]
    decide
  rw [not_or] at hnot
  have hq : a ∉ q := fun hmem => hnot.2 (h.mem_blocks hmem)
  refine ⟨hnot.2, hq, ?_, by simpa using hnot.1⟩
  rw [← h.linked, Bool.not_eq_true, Option.isSome_eq_false_iff, Option.isNone_iff_eq_none] at hq
  exact hq

/-- **The task becomes the last of the queue.** -/
theorem appendTask_spec (hchain : Chain (links s) s.queue q) (hq : q ≠ [])
    (hlen : q.length < queueFuel) (hlinked : ∀ t ∈ q, (s.tasks t).isSome = true) (ha : a ∉ q)
    (hnext : links s a = none) :
    ∃ s', appendTask s a = some s' ∧ Chain (links s') s'.queue (q ++ [a]) ∧ Relinked s s' := by
  obtain ⟨init, last, rfl⟩ := (List.eq_nil_or_concat' q).resolve_left hq
  have hlast : (s.tasks last).isSome = true :=
    hlinked last (List.mem_append_right _ List.mem_cons_self)
  obtain ⟨task, hget⟩ := Option.isSome_iff_exists.mp hlast
  obtain ⟨s', hs', hre, hqueue, hlinks⟩ := setNext_spec hget (some a)
  have hne : ∀ t ∈ init ++ [last], t ≠ a := fun t ht heq => ha (heq ▸ ht)
  refine ⟨s', ?_, ?_, hre⟩
  · unfold appendTask
    have hhead := hchain.head_eq
    cases hqs : s.queue with
    | none =>
      rw [hqs] at hhead
      simp at hhead
    | some d =>
      have hloc := locate_last none (hqs ▸ hchain) hlen
      simp only [Option.bind_eq_bind, hloc, Option.bind_some]
      exact hs'
  · rw [hqueue]
    have hchain' : Chain (links s) s.queue (init ++ [last] ++ []) := by rwa [List.append_nil]
    have hins := hchain'.insert (links s') (a := a) ?_ ?_ ?_
    · rwa [if_neg (by simp)] at hins
    · rw [hlinks, if_neg (Ne.symm (hne last (List.mem_append_right _ List.mem_cons_self))), hnext]
      rfl
    · intro d hd
      have hd' : d = last := by
        have heq := Option.mem_def.mp hd
        rw [List.getLast?_concat] at heq
        exact (Option.some.inj heq).symm
      rw [hlinks, if_pos hd']
    · intro d _ hd
      have hdl : d ≠ last := by
        rintro rfl
        exact hd (by rw [List.getLast?_concat]; rfl)
      rw [hlinks, if_neg hdl]

/-- **Nothing is created**: the tasks, the queue and the blocks in use are as they were. -/
theorem create_none {answer answer' : Option Nat} (h : Good base s q c)
    (ha : ∀ d ∈ answer, Granted s d) (pageDir : Nat) (hnone : answer = none ∨ answer' = none) :
    ∃ s', taskCreate s pageDir answer answer' = some (none, s') ∧ s'.tasks = s.tasks ∧
      s'.queue = s.queue ∧
      s'.current = s.current ∧ s'.live = s.live ∧ s'.freed = s.freed ++ answer.toList := by
  cases answer with
  | none => exact ⟨s, rfl, rfl, rfl, rfl, rfl, by simp⟩
  | some a =>
    obtain rfl := hnone.resolve_left (by simp)
    have hfree := (ha a rfl).2
    have htasks := (h.granted hfree).2.2.1
    have hlive : ((s.alloc a).set a .zero).live a = true := Function.update_self _ _ _
    obtain ⟨s', hs', hfreed⟩ := kfree_spec hlive
    refine ⟨s', ?_, ?_, hfreed.queue, hfreed.current, ?_, hfreed.freed⟩
    · show (((s.alloc a).set a TaskT.zero).kfree a).bind _ = _
      rw [hs']
      rfl
    · funext d
      rw [hfreed.tasks]
      by_cases hd : d = a
      · simp [hd, htasks]
      · simp [hd, State.set, State.alloc]
    · funext d
      rw [Bool.eq_iff_iff, hfreed.live]
      by_cases hd : d = a
      · simp [hd, hfree]
      · simp [hd, State.set, State.alloc]

/-- The new task, before it is in the queue. -/
def newTask (s : State) (pageDir b : Nat) : TaskT :=
  ⟨b + 4096 - 40, pageDir, some b, .ready, s.nextPid, none⟩

/-- The state in which `task_create` links the new task in. -/
def madeTask (s : State) (pageDir a b : Nat) : State where
  tasks := Function.update s.tasks a (some (newTask s pageDir b))
  queue := s.queue
  current := s.current
  nextPid := (s.nextPid + 1) % 4294967296
  live := Function.update (Function.update s.live a true) b true
  freed := s.freed
  inSchedule := Function.update s.inSchedule a false

theorem taskCreate_eq (s : State) (pageDir a b : Nat) : taskCreate s pageDir (some a) (some b) =
    (appendTask (madeTask s pageDir a b) a).bind (fun s => some (some a, s)) := by
  simp [taskCreate, madeTask, newTask, State.set, State.alloc]

section

variable {pageDir : Nat}

theorem madeTask_new : (madeTask s pageDir a b).tasks a = some (newTask s pageDir b) :=
  Function.update_self _ _ _

theorem madeTask_other (h : t ≠ a) : (madeTask s pageDir a b).tasks t = s.tasks t :=
  Function.update_of_ne h _ _

theorem owns_madeTask : owns (madeTask s pageDir a b) a = [b, a] := by
  simp [owns, madeTask_new, blocks, newTask]

theorem live_madeTask (hab : a ≠ b) (d : Nat) :
    (madeTask s pageDir a b).live d = true ↔ d = a ∨ d = b ∨ s.live d = true := by
  unfold madeTask
  by_cases hdb : d = b
  · simp [hdb]
  · by_cases hda : d = a
    · simp [hda, hab]
    · simp [hda, hdb]

end

/-- **A task is created.** -/
theorem create_some (h : Good base s q c) (ha : Granted s a) (hb : Granted s b) (hab : a ≠ b)
    (pageDir : Nat) :
    ∃ s', taskCreate s pageDir (some a) (some b) = some (some a, s') ∧ Good base s' (q ++ [a]) c ∧
      (∀ t ∈ q, content s' t = content s t) ∧ stateOf s' a = some .ready ∧ a ∉ q ∧
        s'.freed = s.freed := by
  obtain ⟨ha1, ha2, ha3, ha4⟩ := h.granted ha.2
  obtain ⟨hb1, hb2, hb3, hb4⟩ := h.granted hb.2
  have hne : ∀ t ∈ q, t ≠ a := fun t ht heq => ha2 (heq ▸ ht)
  have hnew : (madeTask s pageDir a b).tasks a = some (newTask s pageDir b) := madeTask_new
  have hchain : Chain (links (madeTask s pageDir a b)) (madeTask s pageDir a b).queue q := by
    refine h.chain.congr (fun t ht => ?_)
    unfold links
    rw [madeTask_other (hne t ht)]
  obtain ⟨s', hs', hchain', hre⟩ := appendTask_spec hchain (List.ne_nil_of_mem h.mem) h.length_lt
    (fun t ht => by rw [madeTask_other (hne t ht)]; exact (h.linked t).mpr ht)
      ha2 (by simp [links, hnew, newTask])
  have hold : ∀ t, t ≠ a → content s' t = content s t := by
    intro t ht
    rw [hre.content, content, madeTask_other ht]
    rfl
  have howns : ∀ t ∈ q, owns s' t = owns s t := fun t ht => content_owns (hold t (hne t ht))
  have hownsa : owns s' a = [b, a] := by rw [content_owns (hre.content a), owns_madeTask]
  have hblocks : (q ++ [a]).flatMap (owns s') = q.flatMap (owns s) ++ [b, a] := by
    rw [List.flatMap_append, flatMap_owns howns, List.flatMap_singleton, hownsa]
  have hlive : ∀ d, s'.live d = true ↔ d = a ∨ d = b ∨ s.live d = true := by
    intro d
    rw [hre.live]
    exact live_madeTask hab d
  refine ⟨s', ?_, ⟨hchain', ?_, hre.current.trans h.current, List.mem_append_left _ h.mem,
    fun t => ?_, ?_,
    fun d => ?_, fun d hd => ?_⟩, fun t ht => hold t (hne t ht), ?_, ha2, hre.freed⟩
  · rw [taskCreate_eq, hs']
    rfl
  · intro t ht
    rcases List.mem_append.mp ht with ht | ht
    · exact h.address t ht
    · rw [List.mem_singleton.mp ht]
      exact ha.1
  · rw [List.mem_append, List.mem_singleton]
    by_cases hta : t = a
    · subst hta
      rw [content_isSome (hre.content t), hnew]
      simp
    · rw [content_isSome (hold t hta), h.linked]
      simp [hta]
  · rw [hblocks]
    refine List.nodup_append'.mpr ⟨h.nodup, by simp [Ne.symm hab], ?_⟩
    intro d hd hd'
    rcases List.mem_cons.mp hd' with rfl | hd'
    · exact hb1 hd
    · rw [List.mem_singleton] at hd'
      exact ha1 (hd' ▸ hd)
  · rw [hlive, hblocks, h.live, List.mem_append]
    simp only [List.mem_cons, List.not_mem_nil, or_false]
    tauto
  · rw [hblocks, List.mem_append] at hd
    rcases hd with hd | hd
    · exact h.apart d hd
    · rcases List.mem_cons.mp hd with rfl | hd
      · exact hb4
      · rw [List.mem_singleton.mp hd]
        exact ha4
  · have hstate : stateOf s' a = stateOf (madeTask s pageDir a b) a := content_state (hre.content a)
    rw [hstate, stateOf, hnew]
    rfl

end CobraOS.Task
