import CobraOS.Task.Model

/-!
# The queue of tasks and the blocks of its tasks

`Good base s q c` says that the queue of `s` is the list `q`, that `c` of `q` runs, and that the
heap blocks in use are those of `base` and, each once, the blocks of the tasks of `q`.  The
specifications say what reaping, the search for a ready task and appending do to it.
-/

namespace CobraOS.Task

open Base

/-- The blocks of a task, in the order in which they are freed. -/
def blocks (t : Nat) (task : TaskT) : List Nat := task.stack.toList ++ [t]

def owns (s : State) (t : Nat) : List Nat := (s.tasks t).elim [] (blocks t)

def stateOf (s : State) (t : Nat) : Option TaskState := (s.tasks t).map TaskT.state

/-- Everything but the link. -/
def content (s : State) (t : Nat) : Option TaskT :=
  (s.tasks t).map (fun task => { task with next := none })

structure Good (base : Nat → Bool) (s : State) (q : List Nat) (c : Nat) : Prop where
  chain : Chain (links s) s.queue q
  address : ∀ t ∈ q, t < 4294967296
  current : s.current = some c
  mem : c ∈ q
  linked : ∀ t, (s.tasks t).isSome = true ↔ t ∈ q
  nodup : (q.flatMap (owns s)).Nodup
  live : ∀ a, s.live a = true ↔ base a = true ∨ a ∈ q.flatMap (owns s)
  apart : ∀ a ∈ q.flatMap (owns s), base a = false

/-- What linking and unlinking leave alone. -/
structure Relinked (s s' : State) : Prop where
  content : ∀ t, content s' t = content s t
  current : s'.current = s.current
  live : s'.live = s.live
  freed : s'.freed = s.freed

variable {base : Nat → Bool} {s s' s'' : State} {q done rest : List Nat} {c t a : Nat}
    {task : TaskT} {prev p : Option Nat}

/-! ### Fields -/

theorem content_state (h : content s' t = content s t) : stateOf s' t = stateOf s t := by
  unfold content stateOf at *
  cases hs : s.tasks t <;> cases hs' : s'.tasks t <;> simp_all

theorem content_owns (h : content s' t = content s t) : owns s' t = owns s t := by
  unfold content owns blocks at *
  cases hs : s.tasks t <;> cases hs' : s'.tasks t <;> simp_all

theorem content_isSome (h : content s' t = content s t) :
    (s'.tasks t).isSome = (s.tasks t).isSome := by
  unfold content at h
  have h' := congrArg Option.isSome h
  simpa using h'

theorem Good.get (h : Good base s q c) (ht : t ∈ q) : ∃ task, s.tasks t = some task :=
  Option.isSome_iff_exists.mp ((h.linked t).mpr ht)

theorem Good.queue_nodup (h : Good base s q c) : q.Nodup := h.chain.nodup

theorem Good.length_lt (h : Good base s q c) : q.length < queueFuel := by
  have hle := h.chain.length_le h.address
  unfold queueFuel
  omega

theorem mem_owns (h : (s.tasks t).isSome = true) : t ∈ owns s t := by
  obtain ⟨task, hget⟩ := Option.isSome_iff_exists.mp h
  simp [owns, blocks, hget]

theorem Good.mem_blocks (h : Good base s q c) (ht : t ∈ q) : t ∈ q.flatMap (owns s) :=
  List.mem_flatMap.mpr ⟨t, ht, mem_owns ((h.linked t).mpr ht)⟩

/-! ### Writes to a link -/

theorem links_set (s : State) (t a : Nat) (task : TaskT) :
    links (s.set t task) a = if a = t then task.next else links s a := by
  unfold links State.set
  by_cases hat : a = t
  · simp [hat]
  · simp [hat]

theorem content_set (s : State) (t a : Nat) (task : TaskT) :
    content (s.set t task) a = if a = t then some { task with next := none } else content s a := by
  unfold content State.set
  by_cases hat : a = t
  · simp [hat]
  · simp [hat]

theorem setNext_spec (hget : s.tasks t = some task) (p : Option Nat) :
    ∃ s', s.setNext t p = some s' ∧ Relinked s s' ∧ s'.queue = s.queue ∧
      ∀ a, links s' a = if a = t then p else links s a := by
  refine ⟨s.set t { task with next := p }, ?_, ⟨fun a => ?_, rfl, rfl, rfl⟩, rfl,
    fun a => links_set s t a _⟩
  · unfold State.setNext
    rw [hget]
    rfl
  · rw [content_set]
    by_cases hat : a = t
    · subst hat
      simp [content, hget]
    · rw [if_neg hat]

theorem Relinked.refl (s : State) : Relinked s s := ⟨fun _ => rfl, rfl, rfl, rfl⟩

theorem Relinked.trans (h : Relinked s s') (h' : Relinked s' s'') : Relinked s s'' :=
  ⟨fun t => (h'.content t).trans (h.content t), h'.current.trans h.current, h'.live.trans h.live,
    h'.freed.trans h.freed⟩

theorem setIndirect_spec (hprev : ∀ b ∈ prev, (s.tasks b).isSome = true) (p : Option Nat) :
    ∃ s', s.setIndirect prev p = some s' ∧ Relinked s s' ∧
      s'.queue = (if prev = none then p else s.queue) ∧
      ∀ a, links s' a = if prev = some a then p else links s a := by
  cases prev with
  | none => exact ⟨_, rfl, ⟨fun _ => rfl, rfl, rfl, rfl⟩, rfl, fun a => rfl⟩
  | some b =>
    obtain ⟨task, hget⟩ := Option.isSome_iff_exists.mp (hprev b rfl)
    obtain ⟨s', hs, hre, hqueue, hlinks⟩ := setNext_spec hget p
    refine ⟨s', hs, hre, hqueue, fun a => ?_⟩
    rw [hlinks]
    simp only [Option.some.injEq, eq_comm]

/-! ### Freeing the blocks of a task -/

/-- What freeing the blocks `l` does. -/
structure Freed (s s' : State) (l : List Nat) : Prop where
  tasks : ∀ a, s'.tasks a = if a ∈ l then none else s.tasks a
  live : ∀ a, s'.live a = true ↔ s.live a = true ∧ a ∉ l
  freed : s'.freed = s.freed ++ l
  queue : s'.queue = s.queue
  current : s'.current = s.current

theorem kfree_spec (h : s.live a = true) : ∃ s', s.kfree a = some s' ∧ Freed s s' [a] := by
  unfold State.kfree
  rw [if_pos h]
  refine ⟨_, rfl, fun b => ?_, fun b => ?_, rfl, rfl, rfl⟩
  · by_cases hb : b = a <;> simp [hb]
  · by_cases hb : b = a <;> simp [hb]

theorem Freed.append {l l' : List Nat} (h : Freed s s' l) (h' : Freed s' s'' l') :
    Freed s s'' (l ++ l') := by
  refine ⟨fun a => ?_, fun a => ?_, ?_, h'.queue.trans h.queue, h'.current.trans h.current⟩
  · rw [h'.tasks, h.tasks]
    by_cases h1 : a ∈ l <;> by_cases h2 : a ∈ l' <;> simp [h1, h2]
  · rw [h'.live, h.live, List.mem_append]
    tauto
  · rw [h'.freed, h.freed, List.append_assoc]

theorem free_spec (hnd : (blocks t task).Nodup) (hlive : ∀ a ∈ blocks t task, s.live a = true) :
    ∃ s', (s.kfreeStack task.stack).bind (fun s => s.kfree t) = some s' ∧
      Freed s s' (blocks t task) := by
  unfold blocks at *
  cases hstack : task.stack with
  | none =>
    rw [hstack] at hlive
    exact kfree_spec (hlive t (by simp))
  | some b =>
    rw [hstack] at hnd hlive
    obtain ⟨s₁, hs₁, hfreed₁⟩ := kfree_spec (hlive b (by simp))
    have hne : t ≠ b := by
      rintro rfl
      simp at hnd
    have hlive₁ : s₁.live t = true := (hfreed₁.live t).mpr ⟨hlive t (by simp), by simpa using hne⟩
    obtain ⟨s₂, hs₂, hfreed₂⟩ := kfree_spec hlive₁
    refine ⟨s₂, ?_, hfreed₁.append hfreed₂⟩
    show (s.kfree b).bind _ = _
    rw [hs₁]
    exact hs₂

/-! ### Reaping -/

/-- The tasks of `q` are as they were, but for their links. -/
structure Kept (s s' : State) (q : List Nat) : Prop where
  content : ∀ t ∈ q, content s' t = content s t
  current : s'.current = s.current

theorem Kept.refl (s : State) (q : List Nat) : Kept s s q := ⟨fun _ _ => rfl, rfl⟩

theorem Kept.trans {q' : List Nat} (h : Kept s s' q) (h' : Kept s' s'' q') (hsub : q' ⊆ q) :
    Kept s s'' q' :=
  ⟨fun t ht => (h'.content t ht).trans (h.content t (hsub ht)), h'.current.trans h.current⟩

theorem flatMap_owns (h : ∀ t ∈ q, owns s' t = owns s t) :
    q.flatMap (owns s') = q.flatMap (owns s) :=
  List.flatMap_congr h

theorem flatMap_mid (s : State) (done : List Nat) (t : Nat) (rest : List Nat) :
    (done ++ t :: rest).flatMap (owns s) =
      done.flatMap (owns s) ++ (owns s t ++ rest.flatMap (owns s)) := by
  rw [List.flatMap_append, List.flatMap_cons]

theorem Good.owns_apart (h : Good base s (done ++ t :: rest) c) (ha : a ∈ owns s t) :
    a ∉ (done ++ rest).flatMap (owns s) := by
  have hnd := h.nodup
  rw [flatMap_mid, List.nodup_append', List.nodup_append'] at hnd
  rw [List.flatMap_append, List.mem_append]
  rintro (hmem | hmem)
  · exact hnd.2.2 hmem (List.mem_append_left _ ha)
  · exact hnd.2.1.2.2 ha hmem

theorem mem_without (ha : a ∈ done ++ rest) : a ∈ done ++ t :: rest := by
  rcases List.mem_append.mp ha with ha | ha
  · exact List.mem_append_left _ ha
  · exact List.mem_append_right _ (List.mem_cons_of_mem _ ha)

theorem Good.not_owned (h : Good base s (done ++ t :: rest) c) (ha : a ∈ done ++ rest) :
    a ∉ owns s t := by
  intro hown
  have hself := mem_owns ((h.linked a).mpr (mem_without ha))
  exact h.owns_apart hown (List.mem_flatMap.mpr ⟨a, ha, hself⟩)

/-- The task `t` has been taken out of the queue, and its blocks have been freed. -/
theorem Good.removed (h : Good base s (done ++ t :: rest) c) (htc : t ≠ c)
    (hchain : Chain (links s') s'.queue (done ++ rest)) (hcurrent : s'.current = s.current)
    (hcontent : ∀ a, content s' a = if a ∈ owns s t then none else content s a)
    (hlive : ∀ a, s'.live a = true ↔ s.live a = true ∧ a ∉ owns s t) :
    Good base s' (done ++ rest) c ∧ Kept s s' (done ++ rest) := by
  have hself : t ∈ owns s t :=
    mem_owns ((h.linked t).mpr (List.mem_append_right _ List.mem_cons_self))
  have hkept : Kept s s' (done ++ rest) := by
    refine ⟨fun a ha => ?_, hcurrent⟩
    rw [hcontent, if_neg (h.not_owned ha)]
  have howns := flatMap_owns (fun a ha => content_owns (hkept.content a ha))
  have hparts : ∀ a, a ∈ (done ++ t :: rest).flatMap (owns s) ↔
      a ∈ (done ++ rest).flatMap (owns s) ∨ a ∈ owns s t := by
    intro a
    rw [flatMap_mid, List.flatMap_append]
    simp only [List.mem_append]
    tauto
  refine ⟨⟨hchain, fun a ha => h.address a (mem_without ha), hcurrent.trans h.current, ?_,
    fun a => ?_, ?_, fun a => ?_, fun a ha => ?_⟩, hkept⟩
  · have hmem := h.mem
    rw [List.mem_append, List.mem_cons] at hmem
    rw [List.mem_append]
    rcases hmem with hmem | hmem | hmem
    · exact Or.inl hmem
    · exact absurd hmem.symm htc
    · exact Or.inr hmem
  · by_cases hown : a ∈ owns s t
    · have hnone : s'.tasks a = none := by
        have hc := hcontent a
        rw [if_pos hown] at hc
        simpa [content] using hc
      rw [hnone]
      simp only [Option.isSome_none, Bool.false_eq_true, false_iff]
      exact fun ha => h.not_owned ha hown
    · have hc := hcontent a
      rw [if_neg hown] at hc
      rw [content_isSome hc, h.linked, List.mem_append, List.mem_cons, List.mem_append]
      have hat : a ≠ t := fun heq => hown (heq ▸ hself)
      simp [hat]
  · rw [howns]
    have hnd := h.nodup
    rw [flatMap_mid] at hnd
    rw [List.flatMap_append]
    exact hnd.sublist (List.Sublist.append_left (List.sublist_append_right _ _) _)
  · rw [howns, hlive, h.live, hparts]
    constructor
    · rintro ⟨hbase | hmem | hown, hnot⟩
      · exact Or.inl hbase
      · exact Or.inr hmem
      · exact absurd hown hnot
    · rintro (hbase | hmem)
      · refine ⟨Or.inl hbase, fun hown => ?_⟩
        rw [h.apart a ((hparts a).mpr (Or.inr hown))] at hbase
        cases hbase
      · exact ⟨Or.inr (Or.inl hmem), fun hown => h.owns_apart hown hmem⟩
  · rw [howns] at ha
    exact h.apart a ((hparts a).mpr (Or.inl ha))

/-- **A task is unlinked and freed.** -/
theorem reapTask_spec (h : Good base s (done ++ t :: rest) c) (htc : t ≠ c)
    (hget : s.tasks t = some task) :
    ∃ s', reapTask s done.getLast? t task = some s' ∧ Good base s' (done ++ rest) c ∧
      Kept s s' (done ++ rest) ∧
      s'.freed = s.freed ++ owns s t := by
  have howns : owns s t = blocks t task := by simp [owns, hget]
  have hlinked : ∀ b ∈ done.getLast?, (s.tasks b).isSome = true := fun b hb =>
    (h.linked b).mpr (List.mem_append_left _ (List.mem_of_getLast? hb))
  obtain ⟨s₁, hs₁, hre₁, hqueue₁, hlinks₁⟩ := setIndirect_spec hlinked task.next
  obtain ⟨task₁, hget₁⟩ := Option.isSome_iff_exists.mp ((content_isSome (hre₁.content t)).trans
    (by rw [hget]; rfl))
  obtain ⟨s₂, hs₂, hre₂, hqueue₂, hlinks₂⟩ := setNext_spec hget₁ none
  have hre := hre₁.trans hre₂
  have hmid := h.nodup
  rw [flatMap_mid, List.nodup_append', List.nodup_append', howns] at hmid
  have hlive : ∀ a ∈ blocks t task, s₂.live a = true := by
    intro a ha
    rw [hre.live, h.live, flatMap_mid, howns]
    simp [ha]
  obtain ⟨s₃, hs₃, hfreed⟩ := free_spec hmid.2.1.1 hlive
  refine ⟨s₃, ?_, ?_⟩
  · unfold reapTask
    simp only [Option.bind_eq_bind, hs₁, Option.bind_some, hs₂]
    exact hs₃
  have hnd := List.nodup_middle.mp h.queue_nodup
  have hnt : ∀ a ∈ done ++ rest, a ≠ t := fun a ha heq => (List.nodup_cons.mp hnd).1 (heq ▸ ha)
  have hout : ∀ a ∈ done ++ rest, a ∉ blocks t task := fun a ha => howns ▸ h.not_owned ha
  have hlinks₃ : ∀ a ∈ done ++ rest, links s₃ a =
      if done.getLast? = some a then links s t else links s a := by
    intro a ha
    have hsame : links s₃ a = links s₂ a := by
      unfold links
      rw [hfreed.tasks, if_neg (hout a ha)]
    have hnext : links s t = task.next := by simp [links, hget]
    rw [hsame, hlinks₂, if_neg (hnt a ha), hlinks₁, hnext]
  have hchain : Chain (links s₃) s₃.queue (done ++ rest) := by
    have hrem := h.chain.remove (links s₃) (b := t) (fun b hb => ?_) (fun b hb hlast => ?_)
    · have hq : s₃.queue = if done = [] then links s t else s.queue := by
        rw [hfreed.queue, hqueue₂, hqueue₁]
        simp [List.getLast?_eq_none_iff, links, hget]
      rwa [hq]
    · rw [hlinks₃ b (List.mem_append_left _ (List.mem_of_getLast? hb)),
        if_pos (Option.mem_def.mp hb)]
    · rw [hlinks₃ b hb, if_neg (fun heq => hlast (Option.mem_def.mpr heq))]
  obtain ⟨hgood, hkept⟩ := h.removed htc hchain (hfreed.current.trans hre.current)
    (fun a => by
      rw [howns]
      by_cases ha : a ∈ blocks t task
      · rw [if_pos ha]
        simp [content, hfreed.tasks, ha]
      · rw [if_neg ha, ← hre.content a]
        simp [content, hfreed.tasks, ha])
    (fun a => by rw [hfreed.live, hre.live, howns])
  exact ⟨hgood, hkept, by rw [hfreed.freed, hre.freed, howns]⟩

/-- Whether a task stays in the queue. -/
def keeps (s : State) (c t : Nat) : Bool := decide (stateOf s t ≠ some .terminated ∨ t = c)

theorem keeps_congr (h : content s' t = content s t) : keeps s' c t = keeps s c t := by
  unfold keeps
  rw [content_state h]

/-- **The loop of `task_reap_terminated`**, when the tasks of `done` have been passed. -/
theorem reapLoop_spec : ∀ (rest done : List Nat) (s : State)
    (fuel : Nat), Good base s (done ++ rest) c →
    rest.length < fuel → ∃ s', reapLoop fuel done.getLast? rest.head? s = some s' ∧
      Good base s' (done ++ rest.filter (keeps s c)) c ∧
        Kept s s' (done ++ rest.filter (keeps s c)) ∧
      s'.freed = s.freed ++ (rest.filter (fun t => !keeps s c t)).flatMap (owns s) := by
  intro rest
  induction rest with
  | nil =>
    intro done s fuel h hfuel
    obtain ⟨fuel, rfl⟩ : ∃ n, fuel = n + 1 := ⟨fuel - 1, by omega⟩
    exact ⟨s, rfl, h, Kept.refl s _, by simp⟩
  | cons t rest ih =>
    intro done s fuel h hfuel
    obtain ⟨fuel, rfl⟩ : ∃ n, fuel = n + 1 := ⟨fuel - 1, by omega⟩
    have hfuel' : rest.length < fuel := by simpa using hfuel
    obtain ⟨task, hget⟩ := h.get (List.mem_append_right _ List.mem_cons_self)
    have hnext : task.next = rest.head? := by
      obtain ⟨r, -, hr⟩ := Chain.append_iff.mp h.chain
      have hhead := Chain.head_eq hr.2
      simpa [links, hget] using hhead
    have hstate : stateOf s t = some task.state := by simp [stateOf, hget]
    show ∃ s', (s.tasks t).bind _ = some s' ∧ _
    rw [hget, Option.bind_some]
    by_cases hgone : task.state = .terminated ∧ s.current ≠ some t
    · have htc : t ≠ c := fun heq => hgone.2 (by rw [h.current, heq])
      have hkeep : keeps s c t = false := by simp [keeps, hstate, hgone.1, htc]
      obtain ⟨s₁, hs₁, hgood₁, hkept₁, hfreed₁⟩ := reapTask_spec h htc hget
      obtain ⟨s₂, hs₂, hgood₂, hkept₂, hfreed₂⟩ := ih done s₁ fuel hgood₁ hfuel'
      have hsame : ∀ a ∈ rest, content s₁ a = content s a :=
        fun a ha => hkept₁.content a (List.mem_append_right _ ha)
      have hfilter : rest.filter (keeps s₁ c) = rest.filter (keeps s c) :=
        List.filter_congr (fun a ha => keeps_congr (hsame a ha))
      have hfilter' : rest.filter (fun a => !keeps s₁ c a) = rest.filter (fun a => !keeps s c a) :=
        List.filter_congr (fun a ha => by rw [keeps_congr (hsame a ha)])
      rw [List.filter_cons_of_neg (by simp [hkeep]), List.filter_cons_of_pos (by simp [hkeep]),
        List.flatMap_cons]
      rw [hfilter] at hgood₂ hkept₂
      refine ⟨s₂, ?_, hgood₂, hkept₁.trans hkept₂ ?_, ?_⟩
      · rw [if_pos hgone, hs₁, hnext]
        exact hs₂
      · intro a ha
        rcases List.mem_append.mp ha with ha | ha
        · exact List.mem_append_left _ ha
        · exact List.mem_append_right _ (List.mem_of_mem_filter ha)
      · rw [hfreed₂, hfilter', hfreed₁, List.append_assoc,
          flatMap_owns (fun a ha => content_owns (hsame a (List.mem_of_mem_filter ha)))]
    · have hkeep : keeps s c t = true := by
        unfold keeps
        rw [hstate, decide_eq_true_iff]
        by_cases hterm : task.state = .terminated
        · refine Or.inr ?_
          have hcur : s.current = some t := not_not.mp (fun hne => hgone ⟨hterm, hne⟩)
          rw [h.current] at hcur
          exact (Option.some.inj hcur).symm
        · exact Or.inl (fun heq => hterm (Option.some.inj heq))
      have hsplit : ∀ l : List Nat, done ++ t :: l = done ++ [t] ++ l := fun l => by simp
      obtain ⟨s₁, hs₁, hgood₁, hkept₁, hfreed₁⟩ := ih (done ++ [t]) s fuel (hsplit rest ▸ h) hfuel'
      rw [List.filter_cons_of_pos hkeep, List.filter_cons_of_neg (by simp [hkeep]), hsplit]
      refine ⟨s₁, ?_, hgood₁, hkept₁, hfreed₁⟩
      rw [if_neg hgone, hnext]
      rwa [List.getLast?_concat] at hs₁

/-- **`task_reap_terminated`** unlinks and frees the terminated tasks that are not running, each
once. -/
theorem reap_spec (h : Good base s q c) : ∃ s', taskReapTerminated s = some s' ∧
    Good base s' (q.filter (keeps s c)) c ∧ Kept s s' (q.filter (keeps s c)) ∧
    s'.freed = s.freed ++ (q.filter (fun t => !keeps s c t)).flatMap (owns s) := by
  have hloop := reapLoop_spec q [] s queueFuel h h.length_lt
  unfold taskReapTerminated
  rwa [← h.chain.head_eq] at hloop

end CobraOS.Task
