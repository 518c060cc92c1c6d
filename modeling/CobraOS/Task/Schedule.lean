import CobraOS.Task.Queue

/-!
# What `schedule` does

Walking on from the running task, and back to the head at the end of the queue, `schedule` passes
every other task once before it is at the running task again (`Chain.ring`).  So it switches to a
ready task if there is one, and returns if there is none (`schedule_spec`).
-/

namespace CobraOS.Task

open Base

variable {base : Nat → Bool} {s s' : State} {q : List Nat} {c t a : Nat} {task : TaskT}

/-! ### The search -/

def isReady (s : State) (t : Nat) : Bool := decide (stateOf s t = some .ready)

/-- **The loop of `schedule`** finds the first ready task on the way to the running one, or that
one. -/
theorem findReady_spec : ∀ {l : List Nat} {fuel : Nat} {p : Option Nat},
    Seg (Chain.round (links s) s.queue) p l (some c) →
      (∀ t ∈ l, t ≠ c ∧ (s.tasks t).isSome = true) →
    l.length < fuel → findReady s c fuel p = some (some ((l.find? (isReady s)).getD c)) := by
  intro l
  induction l with
  | nil =>
    intro fuel p hseg _ hfuel
    obtain ⟨fuel, rfl⟩ : ∃ n, fuel = n + 1 := ⟨fuel - 1, by omega⟩
    rw [seg_nil] at hseg
    subst hseg
    exact if_pos rfl
  | cons t l ih =>
    intro fuel p hseg hl hfuel
    obtain ⟨fuel, rfl⟩ : ∃ n, fuel = n + 1 := ⟨fuel - 1, by omega⟩
    obtain ⟨rfl, hseg⟩ := hseg
    obtain ⟨htc, hsome⟩ := hl t List.mem_cons_self
    obtain ⟨task, hget⟩ := Option.isSome_iff_exists.mp hsome
    have hstate : stateOf s t = some task.state := by simp [stateOf, hget]
    have hround : Chain.round (links s) s.queue t = task.next.or s.queue := by
      simp [Chain.round, links, hget]
    unfold findReady
    rw [if_neg htc, hget]
    by_cases hready : task.state = .ready
    · have hfound : isReady s t = true := by simp [isReady, hstate, hready]
      rw [List.find?_cons_of_pos hfound]
      simp [hready]
    · have hskip : ¬isReady s t = true := by simp [isReady, hstate, hready]
      rw [hround] at hseg
      rw [List.find?_cons_of_neg hskip,
        ← ih hseg (fun b hb => hl b (List.mem_cons_of_mem _ hb)) (by simpa using hfuel)]
      simp [hready]

/-! ### States -/

/-- Only the state of the task `t` has become `x`. -/
structure StateSet (s s' : State) (t : Nat) (x : TaskState) : Prop where
  state : ∀ a, stateOf s' a = if a = t then some x else stateOf s a
  owns : ∀ a, owns s' a = owns s a
  freed : s'.freed = s.freed
  live : s'.live = s.live

theorem set_state_good (h : Good base s q c) (ht : t ∈ q) (hget : s.tasks t = some task)
    (x : TaskState) :
    Good base (s.set t { task with state := x }) q c ∧
      StateSet s (s.set t { task with state := x }) t x := by
  have hlinks : ∀ a, links (s.set t { task with state := x }) a = links s a := by
    intro a
    rw [links_set]
    by_cases hat : a = t
    · subst hat
      simp [links, hget]
    · rw [if_neg hat]
  have howns : ∀ a, owns (s.set t { task with state := x }) a = owns s a := by
    intro a
    unfold owns State.set
    by_cases hat : a = t
    · subst hat
      simp [hget, blocks]
    · simp [hat]
  have hblocks := flatMap_owns (fun a (_ : a ∈ q) => howns a)
  refine ⟨⟨h.chain.congr (fun a _ => hlinks a), h.address, h.current, h.mem, fun a => ?_,
    by rw [hblocks]; exact h.nodup, fun a => by
      rw [hblocks]; exact h.live a, fun a ha => h.apart a (hblocks ▸ ha)⟩, fun a => ?_,
        howns, rfl, rfl⟩
  · rw [← h.linked]
    unfold State.set
    by_cases hat : a = t
    · subst hat
      simp [hget]
    · simp [hat]
  · unfold stateOf State.set
    by_cases hat : a = t
    · simp [hat]
    · simp [hat]

theorem setState_spec (h : Good base s q c) (ht : t ∈ q) (x : TaskState) :
    ∃ s', s.setState t x = some s' ∧ Good base s' q c ∧ StateSet s s' t x := by
  obtain ⟨task, hget⟩ := h.get ht
  refine ⟨s.set t { task with state := x }, ?_, set_state_good h ht hget x⟩
  unfold State.setState
  rw [hget]
  rfl

theorem yieldTask_spec (h : Good base s q c) (ht : t ∈ q) : ∃ s', yieldTask s t = some s' ∧
    Good base s' q c ∧
    ((stateOf s t = some .running ∧ StateSet s s' t .ready) ∨ stateOf s t ≠ some .running ∧
      s' = s) := by
  obtain ⟨task, hget⟩ := h.get ht
  have hstate : stateOf s t = some task.state := by simp [stateOf, hget]
  unfold yieldTask
  rw [hget]
  by_cases hrun : task.state = .running
  · obtain ⟨hgood, hset⟩ := set_state_good h ht hget .ready
    refine ⟨_, ?_, hgood, Or.inl ⟨by rw [hstate, hrun], hset⟩⟩
    simp [hrun]
  · refine ⟨s, ?_, h, Or.inr ⟨?_, rfl⟩⟩
    · simp [hrun]
    · rw [hstate]
      exact fun heq => hrun (Option.some.inj heq)

/-- **`task_switch`**, up to the end of `schedule` in the task that runs then. -/
theorem taskSwitchTo_spec (h : Good base s q c) (ht : t ∈ q) (hrun : stateOf s t = some .running) :
    ∃ s', taskSwitchTo s c t = some s' ∧ Good base s' q t ∧ (∀ a, stateOf s' a = stateOf s a) ∧
      (∀ a, owns s' a = owns s a) ∧ s'.freed = s.freed ∧ s'.live = s.live := by
  have hgood :
      Good base { s with current := some t, inSchedule := Function.update s.inSchedule c true } q
        t :=
    ⟨h.chain, h.address, rfl, ht, h.linked, h.nodup, h.live, h.apart⟩
  unfold taskSwitchTo
  by_cases hin : Function.update s.inSchedule c true t = true
  · obtain ⟨s', hs, hgood', hset⟩ := setState_spec hgood ht .running
    refine ⟨s', ?_, hgood', fun a => ?_, hset.owns, hset.freed, hset.live⟩
    · simpa [hin] using hs
    · rw [hset.state]
      by_cases hat : a = t
      · rw [if_pos hat, hat, hrun]
      · rw [if_neg hat]
        rfl
  · refine ⟨_, ?_, hgood, fun _ => rfl, fun _ => rfl, rfl, rfl⟩
    simp [hin]

/-! ### The whole of `schedule` -/

/-- What a switch from `c` to `c'` does to the states. -/
def statesAfter (s : State) (c c' a : Nat) : Option TaskState :=
  if a = c' then some .running
  else if a = c ∧ stateOf s c = some .running then some .ready
  else stateOf s a

/-- Either another task runs, or no other one is ready and all is as it was. -/
structure Scheduled (base : Nat → Bool) (s : State) (q : List Nat) (c : Nat) (switched : Bool)
    (s' : State) (c' : Nat) : Prop where
  good : Good base s' q c'
  owns : ∀ a ∈ q, owns s' a = owns s a
  result : switched = false ∧ c' = c ∧ (∀ a ∈ q, stateOf s' a = stateOf s a) ∧
      (∀ a ∈ q, a ≠ c → stateOf s a ≠ some .ready) ∨
    switched = true ∧ c' ∈ q ∧ c' ≠ c ∧ stateOf s c' = some .ready ∧
      ∀ a ∈ q, stateOf s' a = statesAfter s c c' a

theorem switch_found (h : Good base s q c) (ht : t ∈ q) (htc : t ≠ c)
    (hready : stateOf s t = some .ready) :
    ∃ s', switchIfReady s c (some t) = some (true, s') ∧ Scheduled base s q c true s' t ∧
      s'.freed = s.freed := by
  obtain ⟨task, hget⟩ := h.get ht
  have hstate : task.state = .ready := by
    rw [stateOf, hget] at hready
    exact Option.some.inj hready
  obtain ⟨s₁, hs₁, hgood₁, hset₁⟩ := setState_spec h ht .running
  obtain ⟨s₂, hs₂, hgood₂, hyield⟩ := yieldTask_spec hgood₁ h.mem
  have hc₁ : stateOf s₁ c = stateOf s c := by rw [hset₁.state, if_neg (Ne.symm htc)]
  have hstates₂ : ∀ a, stateOf s₂ a = statesAfter s c t a := by
    intro a
    unfold statesAfter
    rcases hyield with ⟨hrun, hset₂⟩ | ⟨hnot, rfl⟩
    · rw [hset₂.state, hset₁.state]
      rw [hc₁] at hrun
      by_cases hac : a = c
      · rw [if_pos hac, if_neg (fun hat => htc (hat.symm.trans hac)), if_pos ⟨hac, hrun⟩]
      · rw [if_neg hac, if_neg (fun hx : a = c ∧ stateOf s c = some .running => hac hx.1)]
    · rw [hset₁.state]
      rw [hc₁] at hnot
      rw [if_neg (fun hx : a = c ∧ stateOf s c = some .running => hnot hx.2)]
  have howns₂ : ∀ a, owns s₂ a = owns s a := by
    intro a
    rcases hyield with ⟨-, hset₂⟩ | ⟨-, rfl⟩
    · rw [hset₂.owns, hset₁.owns]
    · rw [hset₁.owns]
  have hfreed₂ : s₂.freed = s.freed := by
    rcases hyield with ⟨-, hset₂⟩ | ⟨-, rfl⟩
    · rw [hset₂.freed, hset₁.freed]
    · rw [hset₁.freed]
  have hrun₂ : stateOf s₂ t = some .running := by rw [hstates₂, statesAfter, if_pos rfl]
  obtain ⟨s₃, hs₃, hgood₃, hstates₃, howns₃, hfreed₃, -⟩ := taskSwitchTo_spec hgood₂ ht hrun₂
  refine ⟨s₃, ?_,
    ⟨hgood₃, fun a _ => (howns₃ a).trans (howns₂ a), Or.inr ⟨rfl, ht, htc, hready, fun a _ => ?_⟩⟩,
    hfreed₃.trans hfreed₂⟩
  · unfold switchIfReady
    simp [htc, hget, hstate, hs₁, hs₂, hs₃]
  · rw [hstates₃, hstates₂]

/-- The others of the queue, in the order in which the loop comes to them from the running task. -/
theorem Good.others {pre post : List Nat} (h : Good base s q c) (hq : q = pre ++ c :: post)
    (t : Nat) :
    t ∈ post ++ pre ↔ t ∈ q ∧ t ≠ c := by
  have hnd := h.queue_nodup
  rw [hq] at hnd ⊢
  have hnot := (List.nodup_cons.mp (List.nodup_middle.mp hnd)).1
  rw [List.mem_append, List.mem_append, List.mem_cons]
  constructor
  · rintro (ht | ht)
    · exact ⟨.inr (.inr ht), fun htc => hnot (htc ▸ List.mem_append_right _ ht)⟩
    · exact ⟨.inl ht, fun htc => hnot (htc ▸ List.mem_append_left _ ht)⟩
  · rintro ⟨ht, htc⟩
    rcases ht with ht | ht | ht
    · exact .inr ht
    · exact absurd ht htc
    · exact .inl ht

/-- **The search of `schedule`**, which takes no longer than one round of the queue. -/
theorem Good.findReady {pre post : List Nat} {fuel : Nat} (h : Good base s q c)
    (hq : q = pre ++ c :: post) (hfuel : q.length ≤ fuel) :
    Task.findReady s c fuel ((links s c).or s.queue) =
      some (some (((post ++ pre).find? (isReady s)).getD c)) := by
  have hchain := h.chain
  rw [hq] at hchain
  refine findReady_spec hchain.ring (fun t ht => ?_) ?_
  · obtain ⟨hmem, htc⟩ := (h.others hq t).mp ht
    exact ⟨htc, (h.linked t).mpr hmem⟩
  · rw [hq, List.length_append, List.length_cons] at hfuel
    rw [List.length_append]
    omega

theorem schedule_eq {pre post : List Nat} {s₁ : State} (h : Good base s q c)
    (hs₁ : taskReapTerminated s = some s₁) {q₁ : List Nat} (hgood₁ : Good base s₁ q₁ c)
    (hq : q₁ = pre ++ c :: post) :
    schedule s = switchIfReady s₁ c (some (((post ++ pre).find? (isReady s₁)).getD c)) := by
  obtain ⟨task, hget⟩ := hgood₁.get hgood₁.mem
  have hnext := hgood₁.findReady hq hgood₁.length_lt.le
  have hlink : links s₁ c = task.next := by simp [links, hget]
  rw [hlink] at hnext
  unfold schedule
  rw [h.current]
  simp [hs₁, hgood₁.current, hget, hnext]

/-- **`schedule`** frees the terminated tasks that are not running, and switches to a ready task if
there is one. -/
theorem schedule_spec (h : Good base s q c) : ∃ switched s' c', schedule s = some (switched, s') ∧
    Scheduled base s (q.filter (keeps s c)) c switched s' c' ∧
    s'.freed = s.freed ++ (q.filter (fun t => !keeps s c t)).flatMap (owns s) := by
  obtain ⟨s₁, hs₁, hgood₁, hkept₁, hfreed₁⟩ := reap_spec h
  obtain ⟨pre, post, hsplit⟩ := List.append_of_mem hgood₁.mem
  have hstate₁ : ∀ a ∈ q.filter (keeps s c), stateOf s₁ a = stateOf s a :=
    fun a ha => content_state (hkept₁.content a ha)
  have howns₁ : ∀ a ∈ q.filter (keeps s c), owns s₁ a = owns s a :=
    fun a ha => content_owns (hkept₁.content a ha)
  have hmem := hgood₁.others hsplit
  have hsched := schedule_eq h hs₁ hgood₁ hsplit
  cases hfind : (post ++ pre).find? (isReady s₁) with
  | none =>
    rw [hfind] at hsched
    refine ⟨false, s₁, c, hsched.trans (if_pos rfl),
      ⟨hgood₁, howns₁, Or.inl ⟨rfl, rfl, hstate₁, fun a ha hac => ?_⟩⟩, hfreed₁⟩
    have hnot := List.find?_eq_none.mp hfind a ((hmem a).mpr ⟨ha, hac⟩)
    rw [← hstate₁ a ha]
    simpa [isReady] using hnot
  | some next =>
    have hready : stateOf s₁ next = some .ready := by simpa [isReady] using List.find?_some hfind
    obtain ⟨hin, hnc⟩ := (hmem next).mp (List.mem_of_find?_eq_some hfind)
    obtain ⟨s₂, hs₂, hdone, hfreed₂⟩ := switch_found hgood₁ hin hnc hready
    rw [hfind] at hsched
    refine ⟨true, s₂, next, hsched.trans hs₂,
      ⟨hdone.good, fun a ha => (hdone.owns a ha).trans (howns₁ a ha), ?_⟩, hfreed₂.trans hfreed₁⟩
    rcases hdone.result with ⟨hfalse, -⟩ | ⟨-, -, -, -, hstates⟩
    · cases hfalse
    · refine Or.inr ⟨rfl, hin, hnc, by rw [← hstate₁ next hin, hready], fun a ha => ?_⟩
      rw [hstates a ha]
      unfold statesAfter
      rw [hstate₁ a ha, hstate₁ c hgood₁.mem]

end CobraOS.Task
