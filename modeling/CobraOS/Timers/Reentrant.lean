import CobraOS.Timers.Punctual

/-!
# The timer queue under re-entrant callbacks

Between two rounds of `timer_tick` a callback may add and cancel any timer, its own as well.
`Armed` is what the calls alone say about a timer: whether it has been added and not been cancelled
or fired since.  In every run, whatever the tick count is, the queue holds exactly the armed timers,
each of them once (`reentrant_queue`).
-/

namespace CobraOS.Timers

open Base

/-! ### Runs with any tick counts -/

inductive Action
  | clock (n : Nat)
  | event (e : Event)

/-- Between ticks the tick count may become any word. -/
def reentrantStep (m : Machine) (a : Action) (m' : Machine) : Prop :=
  match a with
  | .clock n => m.ticking = false ∧ n < 4294967296 ∧ m' = ⟨{ m.st with tick := n }, false⟩
  | .event e => Step m e m'

def reentrant : System Machine Action := ⟨Fresh, reentrantStep⟩

/-- What the calls for a timer say about it. -/
structure Armed where
  armed : Bool
  period : Nat

/-- After an event; `t` is the timer. -/
def Armed.after (t : Nat) (a : Armed) : Action → Armed
  | .event (.setup b _ _ period) => if b = t then { a with period := period } else a
  | .event (.add b _) => if b = t then { a with armed := true } else a
  | .event (.cancel b) => if b = t then { a with armed := false } else a
  | .event (.fire b) => if b = t ∧ a.period = 0 then { a with armed := false } else a
  | _ => a

section

variable (t b : Nat) (a : Armed)

@[simp] theorem Armed.after_setup (fn : Option Nat) (arg period : Nat) :
    a.after t (.event (.setup b fn arg period)) = if b = t then { a with period := period }
      else a := rfl

@[simp] theorem Armed.after_add (d : Nat) :
    a.after t (.event (.add b d)) = if b = t then { a with armed := true } else a := rfl

@[simp] theorem Armed.after_cancel :
    a.after t (.event (.cancel b)) = if b = t then { a with armed := false } else a := rfl

@[simp] theorem Armed.after_fire :
    a.after t (.event (.fire b)) = if b = t ∧ a.period = 0 then { a with armed := false } else a :=
    rfl

end

/-- After all events of a run. -/
def armedAfter (l : List Action) (t : Nat) : Armed := l.foldl (Armed.after t) ⟨false, 0⟩

/-- The queue is the list `q`, without repetitions, and holds the timers whose flag is set. -/
structure WellFormed (s : State) (q : List Nat) : Prop where
  chain : Chain (links s) s.queue q
  nodup : q.Nodup
  active : ∀ t, (s.timers t).active = true ↔ t ∈ q

/-- The queue and the periods are those that the calls say. -/
structure Follows (s : State) (q : List Nat) (f : Nat → Armed) : Prop where
  armed : ∀ t, t ∈ q ↔ (f t).armed = true
  period : ∀ t, (s.timers t).period = (f t).period

section

variable {s s' : State} {m m' : Machine} {q : List Nat} {f : Nat → Armed} {t : Nat}

theorem Good.wellFormed (h : Good s q) : WellFormed s q := ⟨h.queued.chain, h.nodup, h.active⟩

theorem inserted_erase (s : State) (ht : t ∉ q) : (inserted s q t).erase t = q := by
  have hsplit := List.takeWhile_append_dropWhile (l := q)
    (p := fun a => decide ((s.timers a).expires ≤ (s.timers t).expires))
  have hpre : t ∉ q.takeWhile (fun a => decide ((s.timers a).expires ≤ (s.timers t).expires)) := by
    intro h
    apply ht
    rw [← hsplit]
    exact List.mem_append_left _ h
  unfold inserted
  rw [List.erase_append_right _ hpre, List.erase_cons_head, hsplit]

/-! ### What each event does to the armed timers -/

theorem Follows.fire (hg : Good s q) (ht : Follows s q f) {a : Nat}
    (h : timerTickRound s = some (some a, s')) :
    ∃ q', Good s' q' ∧ Follows s' q' (fun t => (f t).after t (.event (.fire a))) := by
  rcases round_spec hg with ⟨hr, -⟩ | ⟨b, rest, s1, rfl, -, hr, hx, hcase⟩
  · rw [hr] at h
    cases h
  · rw [hr] at h
    cases h
    have hnot := (List.nodup_cons.mp hg.nodup).1
    have hperiod : ∀ t, (s'.timers t).period = ((f t).after t (.event (.fire a))).period := by
      intro t
      rw [hx.period, ht.period, Armed.after_fire]
      by_cases h : a = t ∧ (f t).period = 0
      · rw [if_pos h]
      · rw [if_neg h]
    rcases hcase with ⟨hp, hg', -⟩ | ⟨hp, hg', -⟩
    · refine ⟨rest, hg', fun t => ?_, hperiod⟩
      have harmed := ht.armed t
      rw [Armed.after_fire]
      by_cases hat : a = t
      · subst hat
        rw [ht.period] at hp
        rw [if_pos ⟨rfl, hp⟩]
        simp [hnot]
      · rw [if_neg (fun h => hat h.1), ← harmed, List.mem_cons]
        simp [Ne.symm hat]
    · refine ⟨_, hg', fun t => ?_, hperiod⟩
      have harmed := ht.armed t
      have hsame : ¬ (a = t ∧ (f t).period = 0) := by
        rintro ⟨rfl, h⟩
        exact hp ((ht.period a).trans h)
      rw [Armed.after_fire, if_neg hsame, ← harmed, mem_inserted, List.mem_cons]

theorem Follows.add (hg : Good s q) (ht : Follows s q f) {a : Nat} (ha : Address a) (d : Nat) :
    ∃ s', timerAdd s a d = some s' ∧ Good s' (inserted s' (q.erase a) a) ∧
      Follows s' (inserted s' (q.erase a) a) (fun t => (f t).after t (.event (.add a d))) := by
  obtain ⟨s', hs, hg', hx, -⟩ := add_spec hg ha d
  refine ⟨s', hs, hg', fun t => ?_, fun t => ?_⟩
  · rw [mem_inserted, Armed.after_add]
    by_cases hat : a = t
    · simp [hat]
    · rw [if_neg hat, ← ht.armed, List.mem_erase_of_ne (Ne.symm hat)]
      simp [Ne.symm hat]
  · rw [hx.period, ht.period, Armed.after_add]
    by_cases hat : a = t
    · rw [if_pos hat]
    · rw [if_neg hat]

theorem Follows.cancel (hg : Good s q) (ht : Follows s q f) (a : Nat) :
    ∃ r s', timerCancel s a = some (r, s') ∧ Good s' (q.erase a) ∧
      Follows s' (q.erase a) (fun t => (f t).after t (.event (.cancel a))) := by
  obtain ⟨r, s', hs, hg', -, hx⟩ := cancel_spec hg a
  refine ⟨r, s', hs, hg', fun t => ?_, fun t => ?_⟩
  · rw [Armed.after_cancel]
    by_cases hat : a = t
    · subst hat
      simp [hg.nodup.not_mem_erase]
    · rw [if_neg hat, ← ht.armed, List.mem_erase_of_ne (Ne.symm hat)]
  · rw [hx.period, ht.period, Armed.after_cancel]
    by_cases hat : a = t
    · rw [if_pos hat]
    · rw [if_neg hat]

theorem Follows.setup (hg : Good s q) (ht : Follows s q f) {a : Nat}
    (hact : (s.timers a).active = false) (fn : Option Nat) (arg : Nat) {period : Nat}
    (hp : period < 4294967296) :
    Good (timerSetup s a fn arg period) q ∧
      Follows (timerSetup s a fn arg period) q
        (fun t => (f t).after t (.event (.setup a fn arg period))) := by
  obtain ⟨-, hg', hsame⟩ := setup_spec hg hact fn arg hp
  refine ⟨hg', fun t => ?_, fun t => ?_⟩
  · rw [ht.armed, Armed.after_setup]
    by_cases hat : a = t
    · rw [if_pos hat]
    · rw [if_neg hat]
  · rw [Armed.after_setup]
    by_cases hat : a = t
    · subst hat
      simp [timerSetup]
    · rw [if_neg hat, hsame t (Ne.symm hat), ht.period]

/-- **One step**: the queue holds the timers that are armed after it. -/
theorem Follows.step {a : Action} (hg : Good m.st q) (ht : Follows m.st q f)
    (h : reentrantStep m a m') :
    ∃ q', Good m'.st q' ∧ Follows m'.st q' (fun t => (f t).after t a) := by
  cases a with
  | clock n =>
    obtain ⟨-, hn, rfl⟩ := h
    exact ⟨q, ⟨⟨hg.queued.chain, hg.queued.address⟩, hg.active, hg.expires, hg.period, hn⟩,
      ht.armed, ht.period⟩
  | event e =>
    cases e with
    | pit =>
      obtain ⟨-, rfl⟩ := h
      exact ⟨q, tickCount_good hg, ht.armed, ht.period⟩
    | fire a =>
      obtain ⟨-, s', hr, rfl⟩ := h
      exact ht.fire hg hr
    | done =>
      obtain ⟨-, s', hr, rfl⟩ := h
      rcases round_spec hg with ⟨hr', -⟩ | ⟨_, _, _, -, -, hr', -⟩
      · rw [hr'] at hr
        cases hr
        exact ⟨q, hg, ht.armed, ht.period⟩
      · rw [hr'] at hr
        cases hr
    | setup a fn arg period =>
      obtain ⟨-, hact, hp, rfl⟩ := h
      exact ⟨q, ht.setup hg hact fn arg hp⟩
    | add a d =>
      obtain ⟨haddr, -, s', hs, rfl⟩ := h
      obtain ⟨s1, hs1, hg', ht'⟩ := ht.add hg haddr d
      rw [hs1] at hs
      cases hs
      exact ⟨_, hg', ht'⟩
    | cancel a =>
      obtain ⟨-, r, s', hs, rfl⟩ := h
      obtain ⟨r1, s1, hs1, hg', ht'⟩ := ht.cancel hg a
      rw [hs1] at hs
      cases hs
      exact ⟨_, hg', ht'⟩

/-- **A run**: the queue holds the timers that are armed after it. -/
theorem Follows.run {l : List Action} (h : reentrant.Run m l m') : ∀ {q : List Nat}
    {f : Nat → Armed},
    Good m.st q → Follows m.st q f →
      ∃ q', Good m'.st q' ∧ Follows m'.st q' (fun t => l.foldl (Armed.after t) (f t)) := by
  induction h with
  | nil m => exact fun hg ht => ⟨_, hg, ht⟩
  | cons hstep _ ih =>
    intro q f hg ht
    obtain ⟨q1, hg1, ht1⟩ := ht.step hg hstep
    exact ih hg1 ht1

theorem fresh_follows (h : Fresh m) : Good m.st [] ∧ Follows m.st [] (fun _ => ⟨false, 0⟩) := by
  obtain ⟨hqueue, hset, htick, -⟩ := h
  refine ⟨⟨⟨hqueue, by simp⟩, fun a => ?_, by simp, fun a => ?_, htick⟩, by simp,
    fun a => (hset a).2⟩
  · rw [(hset a).1]
    simp
  · rw [(hset a).2]
    decide

theorem fire_mem {a : Nat} (hg : Good s q) (h : timerTickRound s = some (some a, s')) : a ∈ q := by
  rcases round_spec hg with ⟨hr, -⟩ | ⟨b, rest, s1, rfl, -, hr, -⟩
  · rw [hr] at h
    cases h
  · rw [hr] at h
    cases h
    exact List.mem_cons_self

theorem Armed.after_off {a : Armed} {x : Action} (h : a.armed = false)
    (hx : ∀ d, x ≠ .event (.add t d)) :
    (a.after t x).armed = false := by
  cases x with
  | clock n => exact h
  | event e =>
    cases e with
    | add b d =>
      have hbt : b ≠ t := fun hbt => hx d (by rw [hbt])
      rw [Armed.after_add, if_neg hbt, h]
    | pit => exact h
    | done => exact h
    | fire b =>
      rw [Armed.after_fire]
      split <;> simp [h]
    | setup b fn arg period =>
      rw [Armed.after_setup]
      split <;> simp [h]
    | cancel b =>
      rw [Armed.after_cancel]
      split <;> simp [h]

/-- **A timer that is not in the queue is not called** until it is added. -/
theorem not_called {l : List Action} (h : reentrant.Run m l m') : ∀ {q : List Nat}
    {f : Nat → Armed},
    Good m.st q → Follows m.st q f → t ∉ q → (∀ d, .event (.add t d) ∉ l) →
      .event (.fire t) ∉ l := by
  induction h with
  | nil m => exact fun _ _ _ _ => List.not_mem_nil
  | @cons m m1 m2 x l hstep _ ih =>
    intro q f hg ht hnot hl hmem
    obtain ⟨q1, hg1, ht1⟩ := ht.step hg hstep
    have hoff : (f t).armed = false := by
      rw [ht.armed, Bool.not_eq_true] at hnot
      exact hnot
    have hnot1 : t ∉ q1 := by
      rw [ht1.armed, Armed.after_off hoff (fun d hx => hl d (by rw [hx]; exact List.mem_cons_self))]
      decide
    rcases List.mem_cons.mp hmem with hx | hmem
    · rw [← hx] at hstep
      obtain ⟨-, s', hr, -⟩ := hstep
      exact hnot (fire_mem hg hr)
    · exact ih hg1 ht1 hnot1 (fun d hd => hl d (List.mem_cons_of_mem _ hd)) hmem

theorem cancel_result (hg : Good s q) {r : Int} (h : timerCancel s t = some (r, s')) :
    r = if t ∈ q then 0 else -1 := by
  unfold timerCancel at h
  by_cases ht : t ∈ q
  · obtain ⟨s1, hs1, -⟩ := queueRemove_spec hg.queued ht
    rw [if_pos ((hg.active t).mpr ht), hs1] at h
    cases h
    rw [if_pos ht]
  · rw [if_neg (fun hact => ht ((hg.active t).mp hact))] at h
    cases h
    rw [if_neg ht]

end

/-- **The timer queue is well formed under re-entrant callbacks**, in every run: it holds exactly
the timers that have been added and not been cancelled or fired since, each once; every call
returns; adding a timer moves it; and after `timer_cancel` a timer is not called until it is added
again. -/
theorem reentrant_queue {m0 m : Machine} {l : List Action} (h0 : Fresh m0)
    (h : reentrant.Run m0 l m) :
    ∃ q, WellFormed m.st q ∧ (∀ t, t ∈ q ↔ (armedAfter l t).armed = true) ∧
      (∃ r s, timerTickRound m.st = some (r, s)) ∧
      (∀ t d, Address t → ∃ s q', timerAdd m.st t d = some s ∧ WellFormed s q' ∧ t ∈ q' ∧
        q'.erase t = q.erase t) ∧
      (∀ t, ∃ r s, timerCancel m.st t = some (r, s) ∧ (r = 0 ↔ t ∈ q) ∧ WellFormed s (q.erase t) ∧
        ∀ l' m', reentrant.Run ⟨s, m.ticking⟩ l' m' → (∀ d, .event (.add t d) ∉ l') →
          .event (.fire t) ∉ l') := by
  obtain ⟨hg0, ht0⟩ := fresh_follows h0
  obtain ⟨q, hg, ht⟩ := Follows.run h hg0 ht0
  refine ⟨q, hg.wellFormed, ht.armed, ?_, fun t d haddr => ?_, fun t => ?_⟩
  · rcases round_spec hg with ⟨hr, -⟩ | ⟨_, _, s', -, -, hr, -⟩
    · exact ⟨_, _, hr⟩
    · exact ⟨_, _, hr⟩
  · obtain ⟨s, hs, hg', -⟩ := ht.add hg haddr d
    exact ⟨s, _, hs, hg'.wellFormed, (mem_inserted _ _ _ _).mpr (Or.inl rfl),
      inserted_erase s hg.nodup.not_mem_erase⟩
  · obtain ⟨r, s, hs, hg', ht'⟩ := ht.cancel hg t
    refine ⟨r, s, hs, ?_, hg'.wellFormed, fun l' m' hrun hl' => ?_⟩
    · rw [cancel_result hg hs]
      split <;> simp_all
    · exact not_called hrun hg' ht' hg.nodup.not_mem_erase hl'

/-- A timer whose callback adds it again. -/
def rearmed : List Action :=
  [.event (.add 1 1), .event .pit, .event (.fire 1), .event (.add 1 2), .event .done]

/-- The timer has been added, called, and added again. -/
def rearmedAdded : State := (timerAdd (boot 7).st 1 1).get rfl

def rearmedCalled : State := ((timerTickRound (tickCount rearmedAdded)).get rfl).2

def rearmedAgain : State := (timerAdd rearmedCalled 1 2).get rfl

theorem reentrant_queue_rearmed : ∃ m, Fresh (boot 7) ∧ reentrant.Run (boot 7) rearmed m ∧
    ∃ q, WellFormed m.st q ∧ 1 ∈ q := by
  have haddr : Address 1 := by
    unfold Address
    decide
  have hadd : reentrant.step (boot 7) (.event (.add 1 1)) ⟨rearmedAdded, false⟩ :=
    ⟨haddr, by decide, rearmedAdded, rfl, rfl⟩
  have hpit : reentrant.step ⟨rearmedAdded, false⟩ (.event .pit) ⟨tickCount rearmedAdded, true⟩ :=
    ⟨rfl, rfl⟩
  have hfire :
      reentrant.step ⟨tickCount rearmedAdded, true⟩ (.event (.fire 1)) ⟨rearmedCalled, true⟩ :=
    ⟨rfl, rearmedCalled, rfl, rfl⟩
  have hagain : reentrant.step ⟨rearmedCalled, true⟩ (.event (.add 1 2)) ⟨rearmedAgain, true⟩ :=
    ⟨haddr, by decide, rearmedAgain, rfl, rfl⟩
  have hdone : reentrant.step ⟨rearmedAgain, true⟩ (.event .done) ⟨rearmedAgain, false⟩ :=
    ⟨rfl, rearmedAgain, rfl, rfl⟩
  have hrun : reentrant.Run (boot 7) rearmed ⟨rearmedAgain, false⟩ :=
    .cons hadd (.cons hpit (.cons hfire (.cons hagain (.cons hdone (.nil _)))))
  obtain ⟨q, hq, hmem, -⟩ := reentrant_queue (boot_fresh (by decide)) hrun
  refine ⟨_, boot_fresh (by decide), hrun, q, hq, (hmem 1).mpr ?_⟩
  simp [armedAfter, rearmed, Armed.after]

end CobraOS.Timers
