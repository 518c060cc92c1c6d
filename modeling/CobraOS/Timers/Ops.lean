import CobraOS.Timers.Queue

/-!
# What each timer operation does

`Good s q` says that the queue is `q` and that the active timers are those of `q`.  Every operation
returns and keeps it, and says what the new queue is, which timer has a new `expires`, and which is
the same in everything (`add_spec`, `cancel_spec`, `round_spec`, `setup_spec`).  `left s a` is the
number of ticks after which the timer `a` expires.
-/

namespace CobraOS.Timers

open Base

structure Good (s : State) (q : List Nat) : Prop where
  queued : Queued s q
  active : ∀ a, (s.timers a).active = true ↔ a ∈ q
  expires : ∀ a ∈ q, (s.timers a).expires < 4294967296
  period : ∀ a, (s.timers a).period < 4294967296
  tick : s.tick < 4294967296

/-- The ticks left until `a` expires. -/
def left (s : State) (a : Nat) : Nat := wsub (s.timers a).expires s.tick

/-- The timers other than `t` expire when they did, and all have the period they had. -/
structure AllBut (s s' : State) (t : Nat) : Prop where
  expires : ∀ a, a ≠ t → (s'.timers a).expires = (s.timers a).expires
  period : ∀ a, (s'.timers a).period = (s.timers a).period
  tick : s'.tick = s.tick

section

variable {s s' : State} {q : List Nat} {t : Nat}

theorem Good.nodup (h : Good s q) : q.Nodup := h.queued.chain.nodup

theorem inserted_congr (h : ∀ a, (s'.timers a).expires = (s.timers a).expires) (q : List Nat)
    (t : Nat) :
    inserted s' q t = inserted s q t := by
  unfold inserted
  simp only [h]

theorem due_iff {a : Nat} (h : left s a < 2147483648) : due s a = true ↔ left s a = 0 := by
  unfold due wint
  unfold left at *
  have := wsub_lt (s.timers a).expires s.tick
  rw [decide_eq_true_iff]
  split <;> omega

theorem left_set {d : Nat} (he : (s'.timers t).expires = (s.tick + d) % 4294967296)
    (ht : s'.tick = s.tick) (hd : d < 4294967296) : left s' t = d := by
  unfold left wsub
  rw [he, ht]
  omega

/-- A write to a timer that is not in the queue, and leaves its link alone. -/
theorem Queued.set (hq : Queued s q) (ht : t ∉ q) (x : Timer) : Queued (s.set t x) q := by
  refine ⟨hq.chain.congr (fun a ha => ?_), hq.address⟩
  have hne : a ≠ t := fun he => ht (he ▸ ha)
  simp [links, State.set, hne]

@[simp] theorem set_same (s : State) (t : Nat) (x : Timer) : (s.set t x).timers t = x := by
  simp [State.set]

theorem set_ne (s : State) (t : Nat) (x : Timer) {a : Nat} (h : a ≠ t) :
    (s.set t x).timers a = s.timers a := by
  simp [State.set, h]

theorem set_field {β : Type} (f : Timer → β) (x : Timer) (h : f x = f (s.timers t)) (a : Nat) :
    f ((s.set t x).timers a) = f (s.timers a) := by
  by_cases hat : a = t
  · rw [hat, set_same, h]
  · rw [set_ne _ _ _ hat]

@[simp] theorem set_tick (s : State) (t : Nat) (x : Timer) : (s.set t x).tick = s.tick := rfl

theorem insert_good (hq : Queued s q) (ht : t ∉ q) (ha : Address t)
    (hact : ∀ a, (s.timers a).active = true ↔ a = t ∨ a ∈ q)
    (hexp : ∀ a, a = t ∨ a ∈ q → (s.timers a).expires < 4294967296)
    (hper : ∀ a, (s.timers a).period < 4294967296) (htick : s.tick < 4294967296) :
    ∃ s', queueInsert s t = some s' ∧ Good s' (inserted s' q t) ∧ SameFields s s' := by
  obtain ⟨s', hr, hq', hsame⟩ := queueInsert_spec hq ht ha
  refine ⟨s', hr, ?_, hsame⟩
  rw [← inserted_congr hsame.expires] at hq'
  refine ⟨hq', fun a => ?_, fun a h => ?_, fun a => ?_, ?_⟩
  · rw [hsame.active, hact, mem_inserted]
  · rw [hsame.expires]
    exact hexp a ((mem_inserted s' q t a).mp h)
  · rw [hsame.period]
    exact hper a
  · rw [hsame.tick]
    exact htick

theorem dequeue_spec (hg : Good s q) (t : Nat) :
    ∃ s', dequeue s t = some s' ∧ Queued s' (q.erase t) ∧ SameFields s s' := by
  unfold dequeue
  by_cases ht : t ∈ q
  · rw [if_pos ((hg.active t).mpr ht)]
    exact queueRemove_spec hg.queued ht
  · rw [if_neg (fun h => ht ((hg.active t).mp h)), List.erase_of_not_mem ht]
    exact ⟨s, rfl, hg.queued, ⟨fun _ => rfl, fun _ => rfl, fun _ => rfl, fun _ => rfl, rfl⟩⟩

/-- **`timer_add`** sets the expiry and puts the timer in the queue, wherever it was. -/
theorem add_spec (hg : Good s q) (ha : Address t) (d : Nat) :
    ∃ s', timerAdd s t d = some s' ∧ Good s' (inserted s' (q.erase t) t) ∧ AllBut s s' t ∧
      (s'.timers t).expires = (s.tick + (if d = 0 then 1 else d)) % 4294967296 := by
  obtain ⟨s1, hr1, hq1, hsame1⟩ := dequeue_spec hg t
  have ht : t ∉ q.erase t := hg.nodup.not_mem_erase
  let x : Timer := { s1.timers t with
    expires := (s1.tick + (if d = 0 then 1 else d)) % 4294967296
    active := true }
  have hin : ∀ a, a ≠ t → (a ∈ q.erase t ↔ a ∈ q) := fun a hne => List.mem_erase_of_ne hne
  obtain ⟨s2, hr2, hg2, hsame2⟩ := insert_good (s := s1.set t x) (hq1.set ht x) ht ha
    (fun a => by
      by_cases hat : a = t
      · subst hat
        simp [x]
      · rw [set_ne _ _ _ hat, hsame1.active, hg.active, hin a hat]
        simp [hat])
    (fun a h => by
      by_cases hat : a = t
      · subst hat
        rw [set_same]
        exact Nat.mod_lt _ (by decide)
      · rw [set_ne _ _ _ hat, hsame1.expires]
        exact hg.expires a ((hin a hat).mp (h.resolve_left hat)))
    (fun a => by
      rw [set_field Timer.period x rfl, hsame1.period]
      exact hg.period a)
    (by rw [set_tick, hsame1.tick]; exact hg.tick)
  refine ⟨s2, ?_, hg2, ⟨fun a hat => ?_, fun a => ?_, ?_⟩, ?_⟩
  · unfold timerAdd
    rw [hr1]
    exact hr2
  · rw [hsame2.expires, set_ne _ _ _ hat, hsame1.expires]
  · rw [hsame2.period, set_field Timer.period x rfl, hsame1.period]
  · rw [hsame2.tick, set_tick, hsame1.tick]
  · rw [hsame2.expires, set_same]
    show (s1.tick + _) % _ = _
    rw [hsame1.tick]

/-- **`timer_cancel`** takes the timer off the queue. -/
theorem cancel_spec (hg : Good s q) (t : Nat) :
    ∃ r s', timerCancel s t = some (r, s') ∧ Good s' (q.erase t) ∧
      (∀ a, (s'.timers a).expires = (s.timers a).expires) ∧ AllBut s s' t := by
  unfold timerCancel
  by_cases ht : t ∈ q
  · obtain ⟨s1, hr1, hq1, hsame⟩ := queueRemove_spec hg.queued ht
    have hnot : t ∉ q.erase t := hg.nodup.not_mem_erase
    let x : Timer := { s1.timers t with active := false }
    have hexp : ∀ a, ((s1.set t x).timers a).expires = (s.timers a).expires := by
      intro a
      rw [set_field Timer.expires x rfl, hsame.expires]
    have hper : ∀ a, ((s1.set t x).timers a).period = (s.timers a).period := by
      intro a
      rw [set_field Timer.period x rfl, hsame.period]
    rw [if_pos ((hg.active t).mpr ht), hr1]
    refine ⟨0, _, rfl, ⟨hq1.set hnot _, fun a => ?_, fun a ha => ?_, fun a => ?_, ?_⟩, hexp,
      ⟨fun a _ => hexp a, hper, hsame.tick⟩⟩
    · by_cases hat : a = t
      · subst hat
        simp [hnot]
      · rw [set_ne _ _ _ hat, hsame.active, hg.active, List.mem_erase_of_ne hat]
    · rw [hexp]
      exact hg.expires a (List.mem_of_mem_erase ha)
    · rw [hper]
      exact hg.period a
    · rw [set_tick, hsame.tick]
      exact hg.tick
  · rw [if_neg (fun h => ht ((hg.active t).mp h)), List.erase_of_not_mem ht]
    exact ⟨-1, s, rfl, hg, fun _ => rfl, fun _ _ => rfl, fun _ => rfl, rfl⟩

/-- **`timer_setup`** of a timer that is not active. -/
theorem setup_spec (hg : Good s q) (ht : (s.timers t).active = false) (fn : Option Nat)
    (arg : Nat) {period : Nat} (hp : period < 4294967296) :
    t ∉ q ∧ Good (timerSetup s t fn arg period) q ∧
      ∀ a, a ≠ t → (timerSetup s t fn arg period).timers a = s.timers a := by
  have hnot : t ∉ q := fun h => by
    rw [(hg.active t).mpr h] at ht
    exact absurd ht (by decide)
  have hne : ∀ a, a ≠ t → (timerSetup s t fn arg period).timers a = s.timers a :=
    fun a hat => set_ne _ _ _ hat
  refine ⟨hnot, ⟨hg.queued.set hnot _, fun a => ?_, fun a ha => ?_, fun a => ?_, hg.tick⟩, hne⟩
  · by_cases hat : a = t
    · subst hat
      simp [timerSetup, hnot]
    · rw [hne a hat, hg.active]
  · rw [hne a (fun he => hnot (he ▸ ha))]
    exact hg.expires a ha
  · by_cases hat : a = t
    · subst hat
      simpa [timerSetup] using hp
    · rw [hne a hat]
      exact hg.period a

theorem Good.queue_eq (hg : Good s q) : s.queue = q.head? := hg.queued.chain.head_eq

/-- `timer_queue = t->next; t->next = NULL;` -/
def State.popped (s : State) (t : Nat) : State :=
  { s with queue := (s.timers t).next }.setNext t none

theorem popped_same (s : State) (t : Nat) : SameFields s (s.popped t) := by
  have hset := SameFields.setNext { s with queue := (s.timers t).next } t none
  exact ⟨hset.expires, hset.period, hset.active, hset.fn, hset.tick⟩

theorem popped_queued {rest : List Nat} (hq : Queued s (t :: rest)) : Queued (s.popped t) rest := by
  have hnd := List.nodup_cons.mp hq.chain.nodup
  refine ⟨hq.chain.2.congr (fun a ha => ?_), fun a ha => hq.address a (List.mem_cons_of_mem _ ha)⟩
  have hat : a ≠ t := fun he => hnd.1 (he ▸ ha)
  exact (links_setNext _ t a none).trans (if_neg hat)

/-- `t->active = false` after that. -/
def State.spent (s : State) (t : Nat) : State :=
  (s.popped t).set t { (s.popped t).timers t with active := false }

/-- `t->expires = now + t->period` after that. -/
def State.renewed (s : State) (t : Nat) : State :=
  (s.popped t).set t { (s.popped t).timers t with
    expires := ((s.popped t).tick + ((s.popped t).timers t).period) % 4294967296 }

theorem round_due (hq : s.queue = some t) (hd : due s t = true) : timerTickRound s =
    if (s.timers t).period ≠ 0 then (queueInsert (s.renewed t) t).map fun s => (some t, s)
    else some (some t, s.spent t) := by
  unfold timerTickRound
  rw [hq, ← (popped_same s t).period t]
  dsimp only
  rw [if_pos hd]
  show (if ((s.popped t).timers t).period ≠ 0 then
    (queueInsert (s.renewed t) t).bind fun s => some (some t, s) else some (some t, s.spent t)) = _
  cases queueInsert (s.renewed t) t <;> rfl

theorem spent_spec {rest : List Nat} (hg : Good s (t :: rest)) :
    Good (s.spent t) rest ∧ (∀ a, ((s.spent t).timers a).expires = (s.timers a).expires) ∧
      AllBut s (s.spent t) t := by
  have hsame := popped_same s t
  have hnot := (List.nodup_cons.mp hg.nodup).1
  let x : Timer := { (s.popped t).timers t with active := false }
  have hexp : ∀ a, ((s.spent t).timers a).expires = (s.timers a).expires := by
    intro a
    exact (set_field Timer.expires x rfl a).trans (hsame.expires a)
  have hper : ∀ a, ((s.spent t).timers a).period = (s.timers a).period := by
    intro a
    exact (set_field Timer.period x rfl a).trans (hsame.period a)
  refine ⟨⟨(popped_queued hg.queued).set hnot x, fun a => ?_, fun a ha => ?_, fun a => ?_, hg.tick⟩,
    hexp, ⟨fun a _ => hexp a, hper, rfl⟩⟩
  · show (((s.popped t).set t x).timers a).active = true ↔ _
    by_cases hat : a = t
    · subst hat
      rw [set_same]
      simp [x, hnot]
    · rw [set_ne _ _ _ hat, hsame.active, hg.active, List.mem_cons]
      simp [hat]
  · rw [hexp]
    exact hg.expires a (List.mem_cons_of_mem _ ha)
  · rw [hper]
    exact hg.period a

theorem renewed_spec {rest : List Nat} (hg : Good s (t :: rest)) :
    ∃ s', queueInsert (s.renewed t) t = some s' ∧ Good s' (inserted s' rest t) ∧
      (s'.timers t).expires = (s.tick + (s.timers t).period) % 4294967296 ∧
      AllBut s s' t := by
  have hsame := popped_same s t
  have hnot := (List.nodup_cons.mp hg.nodup).1
  let x : Timer := { (s.popped t).timers t with
    expires := ((s.popped t).tick + ((s.popped t).timers t).period) % 4294967296 }
  obtain ⟨s', hr, hg', hsame'⟩ :=
    insert_good (s := (s.popped t).set t x) ((popped_queued hg.queued).set hnot x) hnot
    (hg.queued.address t List.mem_cons_self)
    (fun a => by rw [set_field Timer.active x rfl, hsame.active, hg.active, List.mem_cons])
    (fun a h => by
      by_cases hat : a = t
      · subst hat
        rw [set_same]
        exact Nat.mod_lt _ (by decide)
      · rw [set_ne _ _ _ hat, hsame.expires]
        exact hg.expires a (List.mem_cons_of_mem _ (h.resolve_left hat)))
    (fun a => by
      rw [set_field Timer.period x rfl, hsame.period]
      exact hg.period a)
    hg.tick
  refine ⟨s', hr, hg', ?_, ⟨fun a hat => ?_, fun a => ?_, hsame'.tick⟩⟩
  · rw [hsame'.expires, set_same]
    show (s.tick + ((s.popped t).timers t).period) % _ = _
    rw [hsame.period]
  · rw [hsame'.expires, set_ne _ _ _ hat, hsame.expires]
  · rw [hsame'.period, set_field Timer.period x rfl, hsame.period]

/-- **One round of `timer_tick`**: the first timer of the queue fires if it is due.  A periodic one
is put back for its period, and any other one is no longer active. -/
theorem round_spec (hg : Good s q) :
    (timerTickRound s = some (none, s) ∧ ∀ t ∈ q.head?, due s t = false) ∨
    ∃ t rest s', q = t :: rest ∧ due s t = true ∧ timerTickRound s = some (some t, s') ∧
      AllBut s s' t ∧
      (((s.timers t).period = 0 ∧ Good s' rest ∧
          ∀ a, (s'.timers a).expires = (s.timers a).expires) ∨
        ((s.timers t).period ≠ 0 ∧ Good s' (inserted s' rest t) ∧
          (s'.timers t).expires = (s.tick + (s.timers t).period) % 4294967296)) := by
  have hqueue := hg.queue_eq
  cases q with
  | nil =>
    refine Or.inl ⟨?_, by simp⟩
    unfold timerTickRound
    rw [hqueue]
    rfl
  | cons t rest =>
    rw [List.head?_cons] at hqueue ⊢
    cases hd : due s t with
    | false =>
      refine Or.inl ⟨?_, by simpa using hd⟩
      unfold timerTickRound
      rw [hqueue]
      simp [hd]
    | true =>
      right
      rw [round_due hqueue hd]
      by_cases hp : (s.timers t).period = 0
      · obtain ⟨hg', hexp, hx⟩ := spent_spec hg
        exact ⟨t, rest, _, rfl, hd, if_neg (not_not.mpr hp), hx, Or.inl ⟨hp, hg', hexp⟩⟩
      · obtain ⟨s', hr, hg', hexp, hx⟩ := renewed_spec hg
        exact ⟨t, rest, s', rfl, hd, by rw [if_pos hp, hr]; rfl, hx, Or.inr ⟨hp, hg', hexp⟩⟩

theorem tickCount_good (hg : Good s q) : Good (tickCount s) q :=
  ⟨⟨hg.queued.chain, hg.queued.address⟩, hg.active, hg.expires, hg.period, Nat.mod_lt _ (by decide)⟩

/-- **What an event does** to the timers and to the queue `q`. -/
inductive Does (m : Machine) (q : List Nat) : Event → Machine → List Nat → Prop
  | pit : m.ticking = false → Does m q .pit ⟨tickCount m.st, true⟩ q
  | once {t : Nat} {rest : List Nat} {s' : State} : m.ticking = true → q = t :: rest →
      due m.st t = true →
      AllBut m.st s' t → (m.st.timers t).period = 0 →
        (∀ a, (s'.timers a).expires = (m.st.timers a).expires) →
      Does m q (.fire t) ⟨s', true⟩ rest
  | again {t : Nat} {rest : List Nat} {s' : State} : m.ticking = true → q = t :: rest →
      due m.st t = true →
      AllBut m.st s' t → (m.st.timers t).period ≠ 0 →
      (s'.timers t).expires = (m.st.tick + (m.st.timers t).period) % 4294967296 →
      Does m q (.fire t) ⟨s', true⟩ (inserted s' rest t)
  | done : m.ticking = true → (∀ a ∈ q.head?, due m.st a = false) → Does m q .done ⟨m.st, false⟩ q
  | setup {t arg period : Nat} {fn : Option Nat} : t ∉ q → period < 4294967296 →
      (∀ a, a ≠ t → (timerSetup m.st t fn arg period).timers a = m.st.timers a) →
      Does m q (.setup t fn arg period) ⟨timerSetup m.st t fn arg period, m.ticking⟩ q
  | add {t d : Nat} {s' : State} : AllBut m.st s' t →
      (s'.timers t).expires = (m.st.tick + (if d = 0 then 1 else d)) % 4294967296 →
      Does m q (.add t d) ⟨s', m.ticking⟩ (inserted s' (q.erase t) t)
  | cancel {t : Nat} {s' : State} : AllBut m.st s' t →
      (∀ a, (s'.timers a).expires = (m.st.timers a).expires) →
        Does m q (.cancel t) ⟨s', m.ticking⟩ (q.erase t)

/-- **One step**, in any run: the queue stays a queue. -/
theorem step_does {m m' : Machine} {e : Event} (hg : Good m.st q) (h : Step m e m') :
    ∃ q', Good m'.st q' ∧ Does m q e m' q' := by
  cases e with
  | pit =>
    obtain ⟨hidle, rfl⟩ := h
    exact ⟨q, tickCount_good hg, .pit hidle⟩
  | fire t =>
    obtain ⟨hticking, s', hr, rfl⟩ := h
    rcases round_spec hg with ⟨hr', -⟩ | ⟨t', rest, s₁, hq, hdue, hr', hx, hcase⟩
    · rw [hr'] at hr
      cases hr
    · rw [hr'] at hr
      cases hr
      rcases hcase with ⟨hp, hg', hexp⟩ | ⟨hp, hg', hexp⟩
      · exact ⟨rest, hg', .once hticking hq hdue hx hp hexp⟩
      · exact ⟨_, hg', .again hticking hq hdue hx hp hexp⟩
  | done =>
    obtain ⟨hticking, s', hr, rfl⟩ := h
    rcases round_spec hg with ⟨hr', hnot⟩ | ⟨a, rest, s₁, -, -, hr', -⟩
    · rw [hr'] at hr
      cases hr
      exact ⟨q, hg, .done hticking hnot⟩
    · rw [hr'] at hr
      cases hr
  | setup t fn arg period =>
    obtain ⟨-, hact, hp, rfl⟩ := h
    obtain ⟨hnot, hg', hsame⟩ := setup_spec hg hact fn arg hp
    exact ⟨q, hg', .setup hnot hp hsame⟩
  | add t d =>
    obtain ⟨haddr, -, s', hr, rfl⟩ := h
    obtain ⟨s₁, hr₁, hg', hx, hexp⟩ := add_spec hg haddr d
    rw [hr₁] at hr
    cases hr
    exact ⟨_, hg', .add hx hexp⟩
  | cancel t =>
    obtain ⟨-, r, s', hr, rfl⟩ := h
    obtain ⟨r₁, s₁, hr₁, hg', hexp, hx⟩ := cancel_spec hg t
    rw [hr₁] at hr
    cases hr
    exact ⟨_, hg', .cancel hx hexp⟩

section

variable {m m' : Machine} {q' : List Nat} {e : Event}

theorem Does.pit_idle (h : Does m q .pit m' q') : m.ticking = false := by
  cases h
  assumption

theorem Does.tick (h : Does m q e m' q') (hg : Good m.st q) :
    m'.st.tick = (m.st.tick + (if e = .pit then 1 else 0)) % 4294967296 := by
  have htick : (m.st.tick + 0) % 4294967296 = m.st.tick := Nat.mod_eq_of_lt hg.tick
  cases h with
  | pit => rfl
  | done | setup => exact htick.symm
  | once _ _ _ hx _ _ => exact hx.tick.trans htick.symm
  | again _ _ _ hx _ _ => exact hx.tick.trans htick.symm
  | add hx _ => exact hx.tick.trans htick.symm
  | cancel hx _ => exact hx.tick.trans htick.symm

theorem Does.called (h : Does m q (.fire t) m' q') : ∃ rest, q = t :: rest ∧ due m.st t = true := by
  cases h with
  | once _ hq hdue _ _ _ => exact ⟨_, hq, hdue⟩
  | again _ hq hdue _ _ _ => exact ⟨_, hq, hdue⟩

theorem Does.gone (h : Does m q (.fire t) m' q') (hg : Good m.st q)
    (h0 : (m.st.timers t).period = 0) : t ∉ q' := by
  have hnd := hg.nodup
  cases h with
  | once _ hq _ _ _ _ =>
    rw [hq] at hnd
    exact (List.nodup_cons.mp hnd).1
  | again _ _ _ _ hp _ => exact absurd h0 hp

theorem Does.out (h : Does m q e m' q') (he : ¬ Touches t e) (ht : t ∉ q) : t ∉ q' := by
  cases h with
  | pit | done | setup => exact ht
  | once _ hq _ _ _ _ =>
    rw [hq] at ht
    exact fun h => ht (List.mem_cons_of_mem _ h)
  | again _ hq _ _ _ _ =>
    rw [hq] at ht
    exact fun h => ht (List.mem_cons.mpr ((mem_inserted _ _ _ _).mp h))
  | add _ _ =>
    intro h
    rcases (mem_inserted _ _ _ _).mp h with hat | h
    · exact he hat.symm
    · exact ht (List.mem_of_mem_erase h)
  | cancel _ _ => exact fun h => ht (List.mem_of_mem_erase h)

theorem Does.period (h : Does m q e m' q') (he : ¬ Touches t e) :
    (m'.st.timers t).period = (m.st.timers t).period := by
  cases h with
  | pit | done => rfl
  | once _ _ _ hx _ _ => exact hx.period t
  | again _ _ _ hx _ _ => exact hx.period t
  | setup _ _ hsame => exact congrArg Timer.period (hsame t fun hat => he hat.symm)
  | add hx _ => exact hx.period t
  | cancel hx _ => exact hx.period t

/-- The expiry of a periodic timer changes when it is called, and that of any timer when it is
added. -/
theorem Does.expires (h : Does m q e m' q') (he : ¬ Touches t e)
    (hfire : e = .fire t → (m.st.timers t).period = 0) :
    (m'.st.timers t).expires = (m.st.timers t).expires := by
  cases h with
  | pit | done => rfl
  | once _ _ _ _ _ hexp => exact hexp t
  | again _ _ _ hx hp _ =>
    refine hx.expires t ?_
    rintro rfl
    exact hp (hfire rfl)
  | setup _ _ hsame => exact congrArg Timer.expires (hsame t fun hat => he hat.symm)
  | add hx _ => exact hx.expires t fun hat => he hat.symm
  | cancel _ hexp => exact hexp t

/-- The timer is put into the queue again, or taken off it, by a call. -/
def Moved (t : Nat) : Event → Prop
  | .add a _ => a = t
  | .cancel a => a = t
  | _ => False

theorem Moved.touches (h : Moved t e) : Touches t e := by
  cases e with
  | add | cancel => exact h
  | pit | fire | done | setup => exact h.elim

/-- What an event leaves of a timer of the queue that it does not call. -/
theorem Does.leaves (h : Does m q e m' q') (ht : t ∈ q) (he : ¬Moved t e)
    (hfire : e ≠ .fire t) :
    t ∈ q' ∧ (m'.st.timers t).period = (m.st.timers t).period ∧
      (m'.st.timers t).expires = (m.st.timers t).expires := by
  cases h with
  | pit | done => exact ⟨ht, rfl, rfl⟩
  | once _ hq _ hx _ hexp =>
    subst hq
    refine ⟨(List.mem_cons.mp ht).resolve_left fun hat => hfire (by rw [hat]), hx.period t, hexp t⟩
  | again _ hq _ hx _ _ =>
    subst hq
    have hne : t ≠ _ := fun hat => hfire (by rw [hat])
    exact ⟨(mem_inserted _ _ _ _).mpr (.inr ((List.mem_cons.mp ht).resolve_left hne)), hx.period t,
      hx.expires t hne⟩
  | setup hnot _ hsame =>
    have hsame := hsame t fun hat => hnot (hat ▸ ht)
    exact ⟨ht, congrArg Timer.period hsame, congrArg Timer.expires hsame⟩
  | add hx _ =>
    have hne : t ≠ _ := fun hat => he hat.symm
    exact ⟨(mem_inserted _ _ _ _).mpr (.inr ((List.mem_erase_of_ne hne).mpr ht)), hx.period t,
      hx.expires t hne⟩
  | cancel hx hexp =>
    exact ⟨(List.mem_erase_of_ne fun hat => he hat.symm).mpr ht, hx.period t, hexp t⟩

theorem Does.rearms (h : Does m q (.fire t) m' q') (hp : (m.st.timers t).period ≠ 0) :
    t ∈ q' ∧ (m'.st.timers t).period = (m.st.timers t).period ∧
      (m'.st.timers t).expires = (m.st.tick + (m.st.timers t).period) % 4294967296 := by
  cases h with
  | once _ _ _ _ h0 _ => exact absurd h0 hp
  | again _ _ _ hx _ hexp => exact ⟨(mem_inserted _ _ _ _).mpr (.inl rfl), hx.period t, hexp⟩

theorem Does.added {d : Nat} (h : Does m q (.add t d) m' q') :
    t ∈ q' ∧ (m'.st.timers t).period = (m.st.timers t).period ∧
      (m'.st.timers t).expires = (m.st.tick + if d = 0 then 1 else d) % 4294967296 := by
  cases h with
  | add hx hexp => exact ⟨(mem_inserted _ _ _ _).mpr (.inl rfl), hx.period t, hexp⟩

/-- What a step does to a timer that is not periodic and that it is not a call for. -/
structure Keeps (m : Machine) (q : List Nat) (e : Event) (m' : Machine) (q' : List Nat) (t : Nat) :
    Prop where
  out : t ∉ q → t ∉ q'
  period : (m'.st.timers t).period = (m.st.timers t).period
  expires : (m.st.timers t).period = 0 → (m'.st.timers t).expires = (m.st.timers t).expires
  fire : e = .fire t → due m.st t = true ∧ ((m.st.timers t).period = 0 → t ∉ q')

theorem step_spec (hg : Good m.st q) (h : Step m e m') :
    ∃ q', Good m'.st q' ∧
      m'.st.tick = (m.st.tick + (if e = .pit then 1 else 0)) % 4294967296 ∧
      ∀ t, ¬ Touches t e → Keeps m q e m' q' t := by
  obtain ⟨q', hg', hdoes⟩ := step_does hg h
  refine ⟨q', hg', hdoes.tick hg,
    fun t ht => ⟨hdoes.out ht, hdoes.period ht, fun h0 => hdoes.expires ht fun _ => h0, ?_⟩⟩
  rintro rfl
  obtain ⟨rest, -, hdue⟩ := hdoes.called
  exact ⟨hdue, hdoes.gone hg⟩

end

end

end CobraOS.Timers
