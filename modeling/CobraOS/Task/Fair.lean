import CobraOS.Base.Cyclic
import CobraOS.Task.Invariant

/-!
# The scheduler takes turns

`schedule` is called by a task that goes on, and by one that exits and is terminated by then.
Either way it reaps, and switches to the first ready task behind the running one in the order of the
queue, from its end on to its head again (`roundRobin_of_called`).  So a ready task waits while the
tasks before it have their turns, and every call brings one that is closer: in a run without
`task_create` it runs after at most as many calls as there are other tasks (`fair`).
-/

namespace CobraOS.Task

open Base

variable {base alive : Nat → Bool} {s s' : State} {q : List Nat} {c t : Nat} {e : Event}

/-- The states in which `schedule` is called. -/
inductive ScheduleCalled : State → Prop
  | goesOn {s : State} : system.Reach s → ScheduleCalled s
  | exits {s s' : State} {c : Nat} : system.Reach s → s.current = some c →
      s.setState c .terminated = some s' → ScheduleCalled s'

/-- **The turn that `schedule` gives** in the state `s`, where `s₁` is the state after reaping, `c`
the running task and `l` the others as the queue has them from `c` on. -/
structure RoundRobin (s s₁ : State) (c : Nat) (l : List Nat) : Prop where
  reaped : taskReapTerminated s = some s₁
  current : s₁.current = some c
  queue : ∃ q, Chain (links s₁) s₁.queue q ∧ Behind q c l
  onePass : ∀ fuel, l.length < fuel →
    findReady s₁ c fuel ((links s₁ c).or s₁.queue) = some (some ((l.find? (isReady s₁)).getD c))
  switches : ∃ switched s', schedule s = some (switched, s') ∧
    s'.current = some ((l.find? (isReady s₁)).getD c) ∧
    (switched = false ↔ ∀ t ∈ l, stateOf s₁ t ≠ some .ready)

theorem Good.roundRobin {l : List Nat} (h : Good base s q c)
    (hl : Behind (q.filter (keeps s c)) c l) :
    ∃ s₁, RoundRobin s s₁ c l ∧ ∀ t ∈ l, stateOf s₁ t = stateOf s t := by
  obtain ⟨s₁, hs₁, hgood₁, hkept₁, -⟩ := reap_spec h
  obtain ⟨pre, post, hsplit, rfl⟩ := hl
  have hsched := schedule_eq h hs₁ hgood₁ hsplit
  refine ⟨s₁, ⟨hs₁, hgood₁.current, ⟨_, hgood₁.chain, pre, post, hsplit, rfl⟩, fun fuel hfuel => ?_,
    ?_⟩, fun t ht => ?_⟩
  · refine hgood₁.findReady hsplit ?_
    rw [List.length_append] at hfuel
    rw [hsplit, List.length_append, List.length_cons]
    omega
  · cases hfind : (post ++ pre).find? (isReady s₁) with
    | none =>
      rw [hfind] at hsched
      refine ⟨false, s₁, hsched.trans (if_pos rfl), hgood₁.current, iff_of_true rfl fun t ht => ?_⟩
      simpa [isReady] using List.find?_eq_none.mp hfind t ht
    | some next =>
      have hready : stateOf s₁ next = some .ready := by simpa [isReady] using List.find?_some hfind
      have hmem := List.mem_of_find?_eq_some hfind
      obtain ⟨hin, hnc⟩ := (hgood₁.others hsplit next).mp hmem
      obtain ⟨s₂, hs₂, hdone, -⟩ := switch_found hgood₁ hin hnc hready
      rw [hfind] at hsched
      exact ⟨true, s₂, hsched.trans hs₂, hdone.good.current,
        iff_of_false Bool.noConfusion fun hno => hno next hmem hready⟩
  · exact content_state (hkept₁.content t ((hgood₁.others hsplit t).mp ht).1)

theorem Good.kept_current (h : Good base s q c) : keeps s c c = true ∧
    c ∈ q.filter (keeps s c) := by
  have hkeep : keeps s c c = true := decide_eq_true (Or.inr rfl)
  exact ⟨hkeep, List.mem_filter.mpr ⟨h.mem, hkeep⟩⟩

theorem reach_inv (h : system.Reach s) : ∃ base q c alive, Inv base s q c alive := by
  refine h.induct (P := fun s => ∃ base q c alive, Inv base s q c alive) (fun s hs => ?_)
    (fun s e s' ih hstep => ?_)
  · obtain ⟨base, first, hboot⟩ := hs
    exact ⟨_, _, _, _, inv_booted hboot⟩
  · obtain ⟨base, q, c, alive, hinv⟩ := ih
    obtain ⟨q', c', hinv', -⟩ := hinv.step hstep
    exact ⟨_, _, _, _, hinv'⟩

/-- **Every call of `schedule` gives the turn to the first ready task**, or to none if no other task
is ready. -/
theorem roundRobin_of_called (h : ScheduleCalled s) : ∃ s₁ c l, RoundRobin s s₁ c l := by
  obtain ⟨base, q, c, hgood⟩ : ∃ base q c, Good base s q c := by
    cases h with
    | goesOn h =>
      obtain ⟨base, q, c, alive, hinv⟩ := reach_inv h
      exact ⟨base, q, c, hinv.good⟩
    | exits h hcur hset =>
      obtain ⟨base, q, c, alive, hinv⟩ := reach_inv h
      obtain rfl := Option.some.inj (hinv.good.current.symm.trans hcur)
      obtain ⟨s₂, hs₂, hgood₂, -⟩ := setState_spec hinv.good hinv.good.mem .terminated
      obtain rfl := Option.some.inj (hs₂.symm.trans hset)
      exact ⟨base, q, c, hgood₂⟩
  obtain ⟨l, hl⟩ := exists_behind hgood.kept_current.2
  obtain ⟨s₁, hturn, -⟩ := hgood.roundRobin hl
  exact ⟨s₁, c, l, hturn⟩

/-! ### Waiting for a turn -/

def Event.isCreate : Event → Bool
  | .create .. => true
  | _ => false

/-- A run, with the tasks that are switched to. -/
inductive Turns : State → List Event → List Nat → State → Prop
  | nil (s : State) : Turns s [] [] s
  | cons {s s' s'' : State} {e : Event} {l : List Event} {turns : List Nat} :
    Step s e s' → Turns s' l turns s'' →
      Turns s (e :: l) ((if s'.current = s.current then [] else s'.current.toList) ++ turns) s''

/-- After a call of `schedule`, a ready task runs or has fewer tasks before it. -/
theorem Good.turn {before after : List Nat} {switched : Bool} (h : Good base s q c)
    (hb : Behind q c (before ++ t :: after)) (ht : stateOf s t = some .ready)
    (hs : Task.schedule s = some (switched, s')) :
    ∃ q' c', Good base s' q' c' ∧ c' ≠ c ∧ (c' = t ∨ stateOf s' t = some .ready ∧
      ∃ before' after', Behind q' c' (before' ++ t :: after') ∧
        before'.length < before.length) := by
  have hkeep : keeps s c t = true := by simp [keeps, ht]
  have htq : t ∈ q.filter (keeps s c) :=
    List.mem_filter.mpr ⟨(hb.mem_iff t).mpr (.inr (by simp)), hkeep⟩
  have htc : t ≠ c := fun htc => hb.notMem h.queue_nodup (by simp [htc])
  have hl := hb.filter h.kept_current.1
  rw [List.filter_append, List.filter_cons_of_pos hkeep] at hl
  obtain ⟨s₁, hturn, hstate₁⟩ := h.roundRobin hl
  have hready : isReady s₁ t = true := by simp [isReady, hstate₁ t (by simp), ht]
  obtain ⟨_, _, hs₂, hcurrent, -⟩ := hturn.switches
  rw [hs] at hs₂
  cases hs₂
  obtain ⟨_, _, c', hs₂, hsched, -⟩ := schedule_spec h
  rw [hs] at hs₂
  cases hs₂
  rcases hsched.result with ⟨-, -, -, hnone⟩ | ⟨-, -, hne, -, hstates⟩
  · exact absurd ht (hnone t htq htc)
  refine ⟨_, c', hsched.good, hne, ?_⟩
  cases hfind : (before.filter (keeps s c) ++ t :: after.filter (keeps s c)).find? (isReady s₁) with
  | none => exact absurd hready (List.find?_eq_none.mp hfind t (by simp))
  | some x =>
    obtain rfl : x = c' := by
      rw [hfind, hsched.good.current] at hcurrent
      exact (Option.some.inj hcurrent).symm
    rcases hl.closer hready hfind with hxt | ⟨before', after', hb', hlt⟩
    · exact .inl hxt
    · by_cases hxt : x = t
      · exact .inl hxt
      · refine .inr ⟨?_, before', after', hb', hlt.trans_le (List.length_filter_le ..)⟩
        rw [hstates t htq, statesAfter, if_neg (Ne.symm hxt), if_neg (fun hx => htc hx.1), ht]

theorem Good.unique {base' : Nat → Bool} {q' : List Nat} {c' : Nat} (h : Good base s q c)
    (h' : Good base' s q' c') :
    q = q' ∧ c = c' :=
  ⟨h.chain.unique h'.chain, Option.some.inj (h.current.symm.trans h'.current)⟩

theorem Inv.turn {before after : List Nat} (h : Inv base s q c alive)
    (hb : Behind q c (before ++ t :: after)) (ht : stateOf s t = some .ready)
    (he : e.isCreate = false) (hs : Step s e s') :
    ∃ q' c' alive', Inv base s' q' c' alive' ∧ c' ≠ c ∧ (c' = t ∨ stateOf s' t = some .ready ∧
      ∃ before' after', Behind q' c' (before' ++ t :: after') ∧
        before'.length < before.length) := by
  obtain ⟨q', c', hinv, -⟩ := h.step hs
  obtain ⟨q₁, c₁, hgood, hturn⟩ : ∃ q' c', Good base s' q' c' ∧ c' ≠ c ∧
      (c' = t ∨ stateOf s' t = some .ready ∧
      ∃ before' after', Behind q' c' (before' ++ t :: after') ∧
        before'.length < before.length) := by
    cases e with
    | create => cases he
    | schedule =>
      obtain ⟨switched, hs⟩ := hs
      exact h.good.turn hb ht hs
    | exit b =>
      obtain ⟨hcur, hs⟩ := hs
      have htc : t ≠ c := fun htc => hb.notMem h.good.queue_nodup (by simp [htc])
      obtain ⟨s₁, hs₁, hgood₁, hset⟩ := setState_spec h.good h.good.mem .terminated
      unfold taskExit at hs
      rw [h.good.current] at hs
      replace hs : (s.setState c .terminated).bind Task.schedule = some (true, s') := hs
      rw [hs₁, Option.bind_some] at hs
      exact hgood₁.turn hb (by rw [hset.state, if_neg htc, ht]) hs
  obtain ⟨rfl, rfl⟩ := hinv.good.unique hgood
  exact ⟨q', c', _, hinv, hturn⟩

/-- In a run without `task_create` a ready task runs at the latest when those before it have had a
turn. -/
theorem Turns.mem {l : List Event} {turns : List Nat} (hrun : Turns s l turns s') :
    ∀ {q : List Nat} {c : Nat} {alive : Nat → Bool} {before after : List Nat},
      Inv base s q c alive →
      Behind q c (before ++ t :: after) → stateOf s t = some .ready →
        (∀ e ∈ l, e.isCreate = false) →
      before.length < l.length → t ∈ turns.take (before.length + 1) := by
  induction hrun with
  | nil => exact fun _ _ _ _ hlen => absurd hlen (Nat.not_lt_zero _)
  | @cons s₀ s₁ s₂ e l turns hstep _ ih =>
    intro q c alive before after h hb ht hl hlen
    obtain ⟨he, hl⟩ := List.forall_mem_cons.mp hl
    obtain ⟨q', c', alive', hinv, hne, hcase⟩ := h.turn hb ht he hstep
    have hswitch : s₁.current ≠ s₀.current := by
      rw [hinv.good.current, h.good.current]
      exact fun heq => hne (Option.some.inj heq)
    rw [if_neg hswitch, hinv.good.current, Option.toList_some, List.singleton_append,
      List.take_succ_cons]
    rcases hcase with rfl | ⟨ht', before', after', hb', hlt⟩
    · exact List.mem_cons_self
    · have hmem := ih hinv hb' ht' hl (by simp only [List.length_cons] at hlen; omega)
      exact List.mem_cons_of_mem _ (List.take_subset_take_left _ hlt hmem)

/-- A ready task is switched to within as many switches as there are other tasks, in every run
without `task_create` that is that long. -/
theorem fair (hs : system.Reach s) (hq : Chain (links s) s.queue q) (ht : stateOf s t = some .ready)
    {l : List Event} {turns : List Nat} (hrun : Turns s l turns s')
    (hl : ∀ e ∈ l, e.isCreate = false) (hlen : q.length - 1 ≤ l.length) :
    t ∈ turns.take (q.length - 1) := by
  obtain ⟨base, q', c, alive, hinv⟩ := reach_inv hs
  obtain rfl := hq.unique hinv.good.chain
  have htc : t ≠ c := by
    rintro rfl
    rw [(hinv.running t).mpr rfl] at ht
    cases ht
  obtain ⟨others, hothers⟩ := exists_behind hinv.good.mem
  have hmem := ((hothers.mem_iff t).mp (hinv.good.stateOf_mem ht)).resolve_left htc
  obtain ⟨before, after, rfl⟩ := List.append_of_mem hmem
  have hcount := hothers.length
  rw [List.length_append, List.length_cons] at hcount
  have hfirst := hrun.mem hinv hothers ht hl (by omega)
  exact List.take_subset_take_left _ (by omega) hfirst

/-- **Round robin**: every call of `schedule` gives the turn to the first ready task behind the
running one, after one pass of the queue at most; and in a run without `task_create` a ready task
has its turn within as many switches as there are other tasks. -/
theorem round_robin : (∀ s, ScheduleCalled s → ∃ s₁ c l, RoundRobin s s₁ c l) ∧
    ∀ s q t l turns s', system.Reach s → Chain (links s) s.queue q → stateOf s t = some .ready →
      Turns s l turns s' → (∀ e ∈ l, e.isCreate = false) → q.length - 1 ≤ l.length →
        t ∈ turns.take (q.length - 1) :=
  ⟨fun _ => roundRobin_of_called, fun _ _ _ _ _ _ hs hq ht hrun hl hlen =>
    fair hs hq ht hrun hl hlen⟩

theorem demo_reach : system.Reach demoBooted ∧ system.Reach demoCreated := by
  have hboot : system.Reach demoBooted := .init ⟨fun _ => false, 16, ⟨by decide, rfl⟩, 0, rfl⟩
  refine ⟨hboot, hboot.step (e := .create 0 (some 48) (some 4096) (some 48))
    ⟨fun a ha => ?_, fun b hb => ?_, rfl⟩⟩
  · cases ha
    exact ⟨by decide, rfl⟩
  · cases hb
    exact ⟨⟨by decide, rfl⟩, by decide⟩

/-- The task that has been created waits for one switch. -/
theorem round_robin_demo : (∃ s₁ c l, RoundRobin demoCreated s₁ c l) ∧
    48 ∈ List.take 1
      ((if demoSwitched.current = demoCreated.current then [] else demoSwitched.current.toList) ++
        []) := by
  obtain ⟨hall, hfair⟩ := round_robin
  refine ⟨hall demoCreated (.goesOn demo_reach.2), ?_⟩
  exact hfair demoCreated [16, 48] 48 [.schedule] _ demoSwitched demo_reach.2 ⟨rfl, rfl, rfl⟩ rfl
    (.cons ⟨true, rfl⟩ (.nil _)) (by simp [Event.isCreate]) (by decide)

end CobraOS.Task
