import CobraOS.Timers.Punctual

/-!
# The order of callbacks, and periods

While the tick count and every expiry stay below 2 ^ 31, the queue is in the order of the expiries,
and timers that expire in the same tick are in the order in which they were put into it:
`queue_insert` goes behind those that do not expire later.  `Stamped` is the machine with a clock
that counts the events, and the stamp of a timer is the number of the event that put it into the
queue last.

* `called_in_order`: callbacks that run in the same tick run in the order of their stamps.
* `calls_balance`: a periodic timer that is left alone is called in every `p`-th tick, and in no
  other.
-/

namespace CobraOS.Timers

open Base

/-- The tick count stays below 2 ^ 31, and so it does together with every delay and every period. -/
def Small (m : Machine) : Event → Prop
  | .pit => m.st.tick + 1 < 2147483648
  | .add _ d => m.st.tick + d < 2147483648
  | .fire t => m.st.tick + (m.st.timers t).period < 2147483648
  | _ => True

/-- The machine, the number of events so far, and the numbers of the events that put the timers into
the queue last. -/
structure Stamped where
  machine : Machine
  clock : Nat
  stamp : Nat → Nat

/-- The timer that an event puts into the queue. -/
def insertedBy (m : Machine) : Event → Option Nat
  | .add t _ => some t
  | .fire t => if (m.st.timers t).period ≠ 0 then some t else none
  | _ => none

/-- The stamps after an event. -/
def stampAfter (σ : Stamped) (e : Event) : Nat → Nat :=
  (insertedBy σ.machine e).elim σ.stamp fun t => Function.update σ.stamp t σ.clock

/-- Every small run, with its stamps. -/
def stamped : System Stamped Event where
  init σ := Fresh σ.machine
  step σ e σ' := Small σ.machine e ∧ Step σ.machine e σ'.machine ∧ σ'.clock = σ.clock + 1 ∧
    σ'.stamp = stampAfter σ e

/-- `a` comes before `b`. -/
def Sooner (s : State) (stamp : Nat → Nat) (a b : Nat) : Prop :=
  (s.timers a).expires < (s.timers b).expires ∨
    (s.timers a).expires = (s.timers b).expires ∧ stamp a < stamp b

structure Steady (σ : Stamped) (q : List Nat) : Prop where
  good : Good σ.machine.st q
  sorted : q.Pairwise (Sooner σ.machine.st σ.stamp)
  past : ∀ a ∈ q, σ.stamp a < σ.clock
  ahead : ∀ a ∈ q, σ.machine.st.tick ≤ (σ.machine.st.timers a).expires ∧
    (σ.machine.st.timers a).expires < σ.machine.st.tick + 2147483648
  idle : σ.machine.ticking = false → ∀ a ∈ q, σ.machine.st.tick < (σ.machine.st.timers a).expires

section

variable {s s' : State} {σ σ' σ'' : Stamped} {q q' : List Nat} {t a b : Nat} {e : Event}
    {stamp : Nat → Nat}

/-! ### The queue -/

theorem Sooner.le (h : Sooner s stamp a b) : (s.timers a).expires ≤ (s.timers b).expires := by
  rcases h with h | h
  · exact h.le
  · exact h.1.le

/-- **`queue_insert` is stable**: it keeps the order when the timer is stamped last. -/
theorem inserted_stable (h : q.Pairwise (Sooner s stamp)) (hlast : ∀ a ∈ q, stamp a < stamp t) :
    (inserted s q t).Pairwise (Sooner s stamp) := by
  refine pairwise_insert h (fun a ha => ?_) (fun a ha => ?_)
  · have hstamp := hlast a ((List.takeWhile_sublist _).subset ha)
    rcases lt_or_eq_of_le (le_of_mem_front ha) with hlt | heq
    · exact .inl hlt
    · exact .inr ⟨heq, hstamp⟩
  · obtain ⟨b, -, hlt, rfl | hba⟩ := first_behind h ha
    · exact .inl hlt
    · exact .inl (hlt.trans_le hba.le)

/-- Timers that are as they were are in the order in which they were. -/
theorem sorted_congr {stamp' : Nat → Nat} (h : q.Pairwise (Sooner s stamp)) (hsub : q'.Sublist q)
    (he : ∀ a ∈ q', (s'.timers a).expires = (s.timers a).expires)
    (hs : ∀ a ∈ q', stamp' a = stamp a) :
    q'.Pairwise (Sooner s' stamp') := by
  refine (h.sublist hsub).imp_of_mem fun {a b} ha hb hab => ?_
  unfold Sooner at *
  rwa [he a ha, he b hb, hs a ha, hs b hb]

theorem Steady.due_iff (h : Steady σ q) (ha : a ∈ q) :
    due σ.machine.st a = true ↔ (σ.machine.st.timers a).expires = σ.machine.st.tick := by
  obtain ⟨hle, hlt⟩ := h.ahead a ha
  have hleft := left_of_le hle (h.good.expires a ha)
  rw [Timers.due_iff (by omega), hleft]
  omega

/-! ### One step -/

/-- An event leaves the order of the queue, or puts one timer into it that expires in a later
tick. -/
inductive Moves (m : Machine) (q : List Nat) (e : Event) (m' : Machine) (q' : List Nat) : Prop
  | keeps : insertedBy m e = none → q'.Sublist q →
      (∀ a ∈ q', (m'.st.timers a).expires = (m.st.timers a).expires) → Moves m q e m' q'
  | inserts {t : Nat} : insertedBy m e = some t → q' = inserted m'.st (q.erase t) t →
      (∀ a, a ≠ t → (m'.st.timers a).expires = (m.st.timers a).expires) → e ≠ .pit →
      m.st.tick < (m'.st.timers t).expires → (m'.st.timers t).expires < m.st.tick + 2147483648 →
      Moves m q e m' q'

theorem Does.moves {m m' : Machine} (h : Does m q e m' q') (hg : Good m.st q) (hs : Small m e) :
    Moves m q e m' q' := by
  have hnd := hg.nodup
  cases h with
  | pit => exact .keeps rfl (.refl _) fun _ _ => rfl
  | once _ hq _ _ hp hexp =>
    subst hq
    exact .keeps (by simp [insertedBy, hp]) (List.sublist_cons_self _ _) fun a _ => hexp a
  | again _ hq _ hx hp hexp =>
    subst hq
    unfold Small at hs
    rw [Nat.mod_eq_of_lt (by omega)] at hexp
    refine .inserts (by simp [insertedBy, hp]) (by rw [List.erase_cons_head])
      hx.expires (by simp) ?_ ?_
    all_goals
      rw [hexp]
      omega
  | done => exact .keeps rfl (.refl _) fun _ _ => rfl
  | setup hnot _ hsame =>
    exact .keeps rfl (.refl _) fun a ha => congrArg Timer.expires
      (hsame a fun hat => hnot (hat ▸ ha))
  | @add t d s' hx hexp =>
    unfold Small at hs
    rw [Nat.mod_eq_of_lt (by split <;> omega)] at hexp
    refine .inserts rfl rfl hx.expires (by simp) ?_ ?_
    all_goals
      rw [hexp]
      split <;> omega
  | cancel _ hexp => exact .keeps rfl List.erase_sublist fun a _ => hexp a

theorem Does.tick_eq {m m' : Machine} (h : Does m q e m' q') (hg : Good m.st q) (hs : Small m e) :
    m'.st.tick = m.st.tick + if e = .pit then 1 else 0 := by
  have htick := h.tick hg
  have hlt := hg.tick
  split at htick
  · subst e
    unfold Small at hs
    rw [if_pos rfl, htick, Nat.mod_eq_of_lt (by omega)]
  · rw [if_neg ‹_›, htick, Nat.mod_eq_of_lt (by omega)]

/-- `timer_tick` is left when the first timer is not due, and is not running before a tick is
counted. -/
theorem Does.left_idle {m m' : Machine} (h : Does m q e m' q') (hidle : m'.ticking = false) :
    m.ticking = false ∧ e ≠ .pit ∨ e = .done ∧ ∀ a ∈ q.head?, due m.st a = false := by
  cases h with
  | pit | once | again => cases hidle
  | done _ hnot => exact .inr ⟨rfl, hnot⟩
  | setup | add | cancel => exact .inl ⟨hidle, by simp⟩

theorem Steady.waits (h : Steady σ q) (hnot : ∀ a ∈ q.head?, due σ.machine.st a = false) :
    ∀ a ∈ q, σ.machine.st.tick < (σ.machine.st.timers a).expires := by
  intro a ha
  cases q with
  | nil => cases ha
  | cons x rest =>
    have hx : σ.machine.st.tick < (σ.machine.st.timers x).expires := by
      have hne : (σ.machine.st.timers x).expires ≠ σ.machine.st.tick := by
        intro heq
        have hdue := (h.due_iff List.mem_cons_self).mpr heq
        rw [hnot x rfl] at hdue
        cases hdue
      exact lt_of_le_of_ne (h.ahead x List.mem_cons_self).1 hne.symm
    obtain rfl | ha := List.mem_cons.mp ha
    · exact hx
    · exact hx.trans_le ((List.pairwise_cons.mp h.sorted).1 a ha).le

theorem stampAfter_of_ne (h : insertedBy σ.machine e ≠ some a) : stampAfter σ e a = σ.stamp a := by
  unfold stampAfter
  cases hi : insertedBy σ.machine e with
  | none => rfl
  | some t =>
    rw [hi] at h
    exact Function.update_of_ne (fun hat => h (by rw [hat])) _ _

theorem stampAfter_self (h : insertedBy σ.machine e = some t) : stampAfter σ e t = σ.clock := by
  unfold stampAfter
  rw [h]
  exact Function.update_self _ _ _

theorem Steady.ahead_step (h : Steady σ q) (hdoes : Does σ.machine q e σ'.machine q')
    (hsmall : Small σ.machine e) :
    ∀ a ∈ q, σ'.machine.st.tick ≤ (σ.machine.st.timers a).expires := by
  intro a ha
  have htick := hdoes.tick_eq h.good hsmall
  by_cases hpit : e = .pit
  · subst hpit
    rw [htick, if_pos rfl]
    exact h.idle hdoes.pit_idle a ha
  · rw [htick, if_neg hpit]
    exact (h.ahead a ha).1

theorem Steady.idle_step (h : Steady σ q) (hdoes : Does σ.machine q e σ'.machine q')
    (hsmall : Small σ.machine e) (hidle : σ'.machine.ticking = false) :
    ∀ a ∈ q, σ'.machine.st.tick < (σ.machine.st.timers a).expires := by
  have htick := hdoes.tick_eq h.good hsmall
  rcases hdoes.left_idle hidle with ⟨hwas, hpit⟩ | ⟨rfl, hnot⟩
  · rw [htick, if_neg hpit]
    exact h.idle hwas
  · rw [htick, if_neg (by simp)]
    exact h.waits hnot

/-- **One step** keeps the queue steady. -/
theorem Steady.step (h : Steady σ q) (hstep : stamped.step σ e σ') :
    ∃ q', Steady σ' q' ∧ Does σ.machine q e σ'.machine q' ∧ Moves σ.machine q e σ'.machine q' := by
  obtain ⟨hsmall, hmachine, hclock, hstamp⟩ := hstep
  obtain ⟨q', hg', hdoes⟩ := step_does h.good hmachine
  have hmoves := hdoes.moves h.good hsmall
  have htick := hdoes.tick_eq h.good hsmall
  have hahead := h.ahead_step hdoes hsmall
  refine ⟨q', ?_, hdoes, hmoves⟩
  cases hmoves with
  | keeps hnone hsub hexp =>
    have hsame : ∀ a, σ'.stamp a = σ.stamp a := fun a => by
      rw [hstamp, stampAfter_of_ne (by rw [hnone]; exact (Option.some_ne_none a).symm)]
    refine ⟨hg', sorted_congr h.sorted hsub hexp fun a _ => hsame a, fun a ha => ?_, fun a ha => ?_,
      fun hidle a ha => ?_⟩
    · have := h.past a (hsub.subset ha)
      rw [hsame, hclock]
      omega
    · have h1 := hahead a (hsub.subset ha)
      have h2 := (h.ahead a (hsub.subset ha)).2
      rw [hexp a ha]
      split at htick <;> omega
    · rw [hexp a ha]
      exact h.idle_step hdoes hsmall hidle a (hsub.subset ha)
  | @inserts t hsome hq hexp hpit hlt hlt' =>
    rw [if_neg hpit] at htick
    subst hq
    have hne : ∀ a ∈ q.erase t, a ≠ t := fun a ha hat => h.good.nodup.not_mem_erase (hat ▸ ha)
    have hin : ∀ a ∈ q.erase t, a ∈ q := fun a ha => List.mem_of_mem_erase ha
    have hsame : ∀ a ∈ q.erase t, σ'.stamp a = σ.stamp a := fun a ha => by
      rw [hstamp, stampAfter_of_ne]
      rw [hsome]
      exact fun hat => hne a ha (Option.some.inj hat).symm
    have hself : σ'.stamp t = σ.clock := by rw [hstamp, stampAfter_self hsome]
    have hsorted := sorted_congr h.sorted List.erase_sublist (fun a ha => hexp a (hne a ha)) hsame
    refine ⟨hg', inserted_stable hsorted fun a ha => ?_, fun a ha => ?_, fun a ha => ?_,
      fun hidle a ha => ?_⟩
    · rw [hsame a ha, hself]
      exact h.past a (hin a ha)
    all_goals rcases (mem_inserted _ _ _ _).mp ha with rfl | ha
    · omega
    · have := h.past a (hin a ha)
      rw [hsame a ha]
      omega
    · omega
    · rw [hexp a (hne a ha), htick]
      exact h.ahead a (hin a ha)
    · omega
    · rw [hexp a (hne a ha)]
      exact h.idle_step hdoes hsmall hidle a (hin a ha)

theorem fresh_steady (h : Fresh σ.machine) : Steady σ [] :=
  ⟨(fresh_inOrder h).1, .nil, by simp, by simp, by simp⟩

theorem reach_steady (h : stamped.Reach σ) : ∃ q, Steady σ q :=
  h.induct (P := fun σ => ∃ q, Steady σ q) (fun _ hs => ⟨[], fresh_steady hs⟩)
    fun _ _ _ ⟨_, hs⟩ hstep => (hs.step hstep).imp fun _ h => h.1

theorem stamped_run {m m' : Machine} {l : List Event} (h : (system.restrict Small).Run m l m') :
    ∀ {σ : Stamped}, σ.machine = m → ∃ σ', stamped.Run σ l σ' ∧ σ'.machine = m' := by
  induction h with
  | nil m => exact fun h => ⟨_, .nil _, h⟩
  | @cons m m₁ m₂ e l hstep _ ih =>
    rintro σ rfl
    obtain ⟨σ', hrun, hm⟩ := ih (σ := ⟨m₁, σ.clock + 1, stampAfter σ e⟩) rfl
    have hfirst : stamped.step σ e ⟨m₁, σ.clock + 1, stampAfter σ e⟩ := ⟨hstep.1, hstep.2, rfl, rfl⟩
    exact ⟨σ', .cons hfirst hrun, hm⟩

/-! ### The order of the callbacks -/

/-- The timers that are still to be called in this tick were put into the queue after the event
`n`. -/
def Later (σ : Stamped) (q : List Nat) (n : Nat) : Prop :=
  ∀ a ∈ q, (σ.machine.st.timers a).expires = σ.machine.st.tick → n < σ.stamp a

theorem later_of_moves {n : Nat} (hm : Moves σ.machine q e σ'.machine q')
    (htick : σ'.machine.st.tick = σ.machine.st.tick) (hstamp : σ'.stamp = stampAfter σ e)
    (hl : ∀ a ∈ q, a ∈ q' → insertedBy σ.machine e ≠ some a →
      (σ.machine.st.timers a).expires = σ.machine.st.tick → n < σ.stamp a) : Later σ' q' n := by
  intro a ha hexp'
  rw [htick] at hexp'
  cases hm with
  | keeps hnone hsub hexp =>
    have hne : insertedBy σ.machine e ≠ some a := by
      rw [hnone]
      exact (Option.some_ne_none a).symm
    rw [hexp a ha] at hexp'
    rw [hstamp, stampAfter_of_ne hne]
    exact hl a (hsub.subset ha) ha hne hexp'
  | @inserts t hsome hq hexp _ hlt _ =>
    subst hq
    by_cases hat : a = t
    · subst hat
      omega
    · have hne : insertedBy σ.machine e ≠ some a := by
        rw [hsome]
        exact fun h => hat (Option.some.inj h).symm
      have haq := List.mem_of_mem_erase (((mem_inserted _ _ _ _).mp ha).resolve_left hat)
      rw [hexp a hat] at hexp'
      rw [hstamp, stampAfter_of_ne hne]
      exact hl a haq ha hne hexp'

/-- The timers that are not put back stood behind the one that is called. -/
theorem Does.behind {m m' : Machine} {rest : List Nat} (h : Does m (t :: rest) (.fire t) m' q')
    (ha : a ∈ t :: rest) (ha' : a ∈ q') (hne : insertedBy m (.fire t) ≠ some a) : a ∈ rest := by
  cases h with
  | once _ hq _ _ _ _ =>
    obtain ⟨-, rfl⟩ := List.cons.inj hq
    exact ha'
  | again _ _ _ _ hp _ =>
    refine (List.mem_cons.mp ha).resolve_left fun hat => hne ?_
    rw [hat, insertedBy, if_pos hp]

/-- The timers behind one that is called were put into the queue after it. -/
theorem Steady.later (h : Steady σ q) (hfire : Does σ.machine q (.fire t) σ'.machine q')
    (hm : Moves σ.machine q (.fire t) σ'.machine q')
    (htick : σ'.machine.st.tick = σ.machine.st.tick) (hstamp : σ'.stamp = stampAfter σ (.fire t)) :
    Later σ' q' (σ.stamp t) := by
  obtain ⟨rest, rfl, hdue⟩ := hfire.called
  refine later_of_moves hm htick hstamp fun a ha ha' hne hexp => ?_
  have hnow := (h.due_iff List.mem_cons_self).mp hdue
  rcases (List.pairwise_cons.mp h.sorted).1 a (hfire.behind ha ha' hne) with hlt | ⟨-, hstamp⟩
  · omega
  · exact hstamp

/-- **Within a tick** the timers that are still to be called stay the later ones. -/
theorem later_run {l : List Event} {n : Nat} (h : stamped.Run σ l σ') :
    ∀ {q : List Nat}, Steady σ q → Later σ q n → .pit ∉ l → ∃ q', Steady σ' q' ∧ Later σ' q' n := by
  induction h with
  | nil σ => exact fun hq hl _ => ⟨_, hq, hl⟩
  | cons hstep _ ih =>
    intro q hq hl hpit
    obtain ⟨hne, hpit⟩ := not_or.mp (mt List.mem_cons.mpr hpit)
    obtain ⟨q', hq', hdoes, hmoves⟩ := hq.step hstep
    obtain ⟨hsmall, -, -, hstamp⟩ := hstep
    have htick := hdoes.tick_eq hq.good hsmall
    rw [if_neg (Ne.symm hne)] at htick
    exact ih hq' (later_of_moves hmoves htick hstamp fun a ha _ _ => hl a ha) hpit

/-- **Callbacks of one tick run in the order in which their timers were put into the queue.** -/
theorem called_in_order {σ₁ σ₂ σ₃ : Stamped} {mid : List Event} (h : stamped.Reach σ)
    (hfirst : stamped.step σ (.fire a) σ₁) (hmid : stamped.Run σ₁ mid σ₂) (hpit : .pit ∉ mid)
    (hsecond : stamped.step σ₂ (.fire b) σ₃) : σ.stamp a < σ₂.stamp b := by
  obtain ⟨q, hq⟩ := reach_steady h
  obtain ⟨q₁, hq₁, hdoes, hmoves⟩ := hq.step hfirst
  obtain ⟨hsmall, -, -, hstamp⟩ := hfirst
  obtain ⟨q₂, hq₂, hlater⟩ :=
    later_run hmid hq₁ (hq.later hdoes hmoves (hdoes.tick_eq hq.good hsmall) hstamp) hpit
  obtain ⟨_, -, hdoes₂, -⟩ := hq₂.step hsecond
  obtain ⟨rest, rfl, hdue⟩ := hdoes₂.called
  exact hlater b List.mem_cons_self ((hq₂.due_iff List.mem_cons_self).mp hdue)

/-! ### Periods -/

/-- A periodic timer of the queue, and the ticks until it expires. -/
structure Running (σ : Stamped) (q : List Nat) (t p r : Nat) : Prop where
  mem : t ∈ q
  period : (σ.machine.st.timers t).period = p
  expires : (σ.machine.st.timers t).expires = σ.machine.st.tick + r

/-- **One step** brings the timer one tick nearer, or calls it when it is due and sets it a period
ahead. -/
theorem Running.step {p r : Nat} (hq : Steady σ q) (h : Running σ q t p r) (hp : p ≠ 0)
    (hstep : stamped.step σ e σ') (he : ¬Moved t e) :
    ∃ q' r', Steady σ' q' ∧ Running σ' q' t p r' ∧ (e = .fire t → r = 0 ∧ r' = p) ∧
      (if e = .pit then 1 else 0) + r' = r + if e = .fire t then p else 0 := by
  obtain ⟨q', hq', hdoes, -⟩ := hq.step hstep
  have htick := hdoes.tick_eq hq.good hstep.1
  have hperiod := h.period
  have hexpires := h.expires
  subst hperiod
  by_cases hfire : e = .fire t
  · subst hfire
    obtain ⟨hmem, hper, hexp⟩ := hdoes.rearms hp
    obtain ⟨rest, rfl, hdue⟩ := hdoes.called
    have hnow := (hq.due_iff List.mem_cons_self).mp hdue
    have hsmall : σ.machine.st.tick + (σ.machine.st.timers t).period < 2147483648 := hstep.1
    rw [Nat.mod_eq_of_lt (by omega)] at hexp
    rw [if_neg (by simp)] at htick
    refine ⟨q', (σ.machine.st.timers t).period, hq', ⟨hmem, hper, by rw [hexp, htick]; rfl⟩, ?_, ?_⟩
    · exact fun _ => ⟨by omega, rfl⟩
    · rw [if_neg (by simp), if_pos rfl]
      omega
  · obtain ⟨hmem, hper, hexp⟩ := hdoes.leaves h.mem he hfire
    have hahead := (hq'.ahead t hmem).1
    rw [hexp] at hahead
    refine ⟨q', r - if e = .pit then 1 else 0, hq', ⟨hmem, hper, by omega⟩,
      fun h => absurd h hfire, ?_⟩
    rw [if_neg hfire]
    omega

/-- **The ticks and the calls of a run balance**: each call takes the timer a period further. -/
theorem running_run {p : Nat} {l : List Event} (h : stamped.Run σ l σ') (hp : p ≠ 0)
    (hl : ∀ e ∈ l, ¬Moved t e) :
    ∀ {q : List Nat} {r : Nat}, Steady σ q → Running σ q t p r →
      ∃ q' r', Steady σ' q' ∧ Running σ' q' t p r' ∧ ticks l + r' = r + p * l.count (.fire t) ∧
        (l.count (.fire t) ≠ 0 → r' ≤ p) := by
  induction h with
  | nil σ => exact fun hq hr => ⟨_, _, hq, hr, by simp [ticks], by simp⟩
  | @cons σ σ₁ σ₂ e l hstep _ ih =>
    intro q r hq hr
    obtain ⟨he, hl⟩ := List.forall_mem_cons.mp hl
    obtain ⟨q₁, r₁, hq₁, hr₁, hcall, hone⟩ := hr.step hq hp hstep he
    obtain ⟨q', r', hq', hr', hrest, hle⟩ := ih hl hq₁ hr₁
    refine ⟨q', r', hq', hr', ?_, fun hcount => ?_⟩
    · rw [ticks_cons, List.count_cons, Nat.mul_add]
      simp only [beq_iff_eq, mul_ite, mul_one, mul_zero]
      omega
    · by_cases hzero : l.count (.fire t) = 0
      · have hfire : e = .fire t := by
          by_contra hne
          rw [List.count_cons_of_ne hne] at hcount
          exact hcount hzero
        have := (hcall hfire).2
        rw [hzero] at hrest
        omega
      · exact hle hzero

/-- The timer is called, or added: the ticks until it is called next. -/
def Starts (t p : Nat) : Event → Nat → Prop
  | .fire a, n => a = t ∧ n = p
  | .add a d, n => a = t ∧ n = if d = 0 then 1 else d
  | _, _ => False

theorem Steady.starts {p first : Nat} (hq : Steady σ q) (hstep : stamped.step σ e σ')
    (hperiod : (σ.machine.st.timers t).period = p) (hp : p ≠ 0) (hs : Starts t p e first) :
    ∃ q', Steady σ' q' ∧ Running σ' q' t p first := by
  obtain ⟨q', hq', hdoes, -⟩ := hq.step hstep
  have htick := hdoes.tick_eq hq.good hstep.1
  have hsmall := hstep.1
  subst hperiod
  refine ⟨q', hq', ?_⟩
  cases e with
  | fire a =>
    obtain ⟨rfl, rfl⟩ := hs
    obtain ⟨hmem, hper, hexp⟩ := hdoes.rearms hp
    unfold Small at hsmall
    rw [Nat.mod_eq_of_lt (by omega)] at hexp
    rw [if_neg (by simp)] at htick
    exact ⟨hmem, hper, by omega⟩
  | add a d =>
    obtain ⟨rfl, rfl⟩ := hs
    unfold Small at hsmall
    rw [if_neg (by simp)] at htick
    obtain ⟨hmem, hper, hexp⟩ := hdoes.added
    rw [Nat.mod_eq_of_lt (by split <;> omega)] at hexp
    exact ⟨hmem, hper, by omega⟩
  | pit | done | setup | cancel => exact hs.elim

/-- **A periodic timer is called in every `p`-th tick**, counted from its first call, and in no
other. -/
theorem called_every {p first : Nat} {σ₁ σ₂ : Stamped} {l : List Event} (h : stamped.Reach σ)
    (hstep : stamped.step σ e σ₁) (hperiod : (σ.machine.st.timers t).period = p) (hp : p ≠ 0)
    (hs : Starts t p e first) (hrun : stamped.Run σ₁ l σ₂) (hl : ∀ e ∈ l, ¬Moved t e) :
    (∀ pre post, l = pre ++ .fire t :: post → ticks pre = first + p * pre.count (.fire t)) ∧
      (σ₂.machine.ticking = false → l.count (.fire t) = (ticks l + p - first) / p) := by
  obtain ⟨q, hq⟩ := reach_steady h
  obtain ⟨q₁, hq₁, hr₁⟩ := hq.starts hstep hperiod hp hs
  refine ⟨?_, fun hidle => ?_⟩
  · rintro pre post rfl
    obtain ⟨σ', hpre, hpost⟩ := hrun.split
    obtain ⟨q', r', hq', hr', hbalance, -⟩ :=
      running_run hpre hp (fun e he => hl e (List.mem_append_left _ he)) hq₁ hr₁
    cases hpost with
    | cons hcall _ =>
      obtain ⟨_, _, -, -, hzero, -⟩ := hr'.step hq' hp hcall (by simp [Moved])
      have := (hzero rfl).1
      omega
  · obtain ⟨q', r', hq', hr', hbalance, hle⟩ := running_run hrun hp hl hq₁ hr₁
    have hahead := hq'.idle hidle t hr'.mem
    have hexp := hr'.expires
    have hpos : 0 < p := Nat.pos_of_ne_zero hp
    symm
    by_cases hzero : l.count (.fire t) = 0
    · rw [hzero] at hbalance ⊢
      exact Nat.div_eq_of_lt (by omega)
    · have := hle hzero
      refine Nat.div_eq_of_lt_le ?_ ?_
      · rw [Nat.mul_comm]
        omega
      · rw [Nat.succ_mul, Nat.mul_comm]
        omega

end

/-- **The order of callbacks is stable and periods do not drift**, in every run in which the tick
count stays small: callbacks of the same tick run in the order in which their timers were put into
the queue last, and a periodic timer that has been called or added and is then left alone is called
in exactly every `p`-th tick. -/
theorem stable_and_drift_free {σ : Stamped} (h : stamped.Reach σ) :
    (∀ a b σ₁ mid σ₂ σ₃, stamped.step σ (.fire a) σ₁ → stamped.Run σ₁ mid σ₂ → .pit ∉ mid →
      stamped.step σ₂ (.fire b) σ₃ → σ.stamp a < σ₂.stamp b) ∧
    (∀ t p first e σ₁ l σ₂, stamped.step σ e σ₁ → (σ.machine.st.timers t).period = p → p ≠ 0 →
      Starts t p e first → stamped.Run σ₁ l σ₂ → (∀ e ∈ l, ¬Moved t e) →
      (∀ pre post, l = pre ++ .fire t :: post → ticks pre = first + p * pre.count (.fire t)) ∧
        (σ₂.machine.ticking = false → l.count (.fire t) = (ticks l + p - first) / p)) :=
  ⟨fun _ _ _ _ _ _ hfirst hmid hpit hsecond => called_in_order h hfirst hmid hpit hsecond,
    fun _ _ _ _ _ _ _ hstep hperiod hp hs hrun hl => called_every h hstep hperiod hp hs hrun hl⟩

/-! ### A periodic timer and a one-shot timer -/

/-- Both timers are added for the next tick. -/
def pairAdded : State :=
  let s := timerSetup (timerSetup (boot 0).st 1 none 0 2) 2 none 0 0
  let s := (timerAdd s 1 1).get rfl
  (timerAdd s 2 1).get rfl

def pairFirst : State := ((timerTickRound (tickCount pairAdded)).get rfl).2

def pairSecond : State := ((timerTickRound pairFirst).get rfl).2

def pairAgain : State := ((timerTickRound (tickCount (tickCount pairSecond))).get rfl).2

theorem pair_start : (system.restrict Small).Run (boot 0)
    [.setup 1 none 0 2, .setup 2 none 0 0, .add 1 1, .add 2 1, .pit]
      ⟨tickCount pairAdded, true⟩ := by
  have haddr : Address 1 ∧ Address 2 := ⟨by unfold Address; decide, by unfold Address; decide⟩
  exact .cons ⟨trivial, haddr.1, rfl, by decide, rfl⟩ (.cons ⟨trivial, haddr.2, rfl, by decide, rfl⟩
    (.cons ⟨by unfold Small; decide, haddr.1, by decide, _, rfl, rfl⟩
      (.cons ⟨by unfold Small; decide, haddr.2, by decide, pairAdded, rfl, rfl⟩
        (.cons ⟨by unfold Small; decide, rfl, rfl⟩ (.nil _)))))

theorem pair_calls : (system.restrict Small).Run ⟨tickCount pairAdded, true⟩
    [.fire 1, .fire 2, .done, .pit, .done, .pit, .fire 1, .done] ⟨pairAgain, false⟩ := by
  have hfirst :
      (system.restrict Small).step ⟨tickCount pairAdded, true⟩ (.fire 1) ⟨pairFirst, true⟩ :=
    ⟨by unfold Small; decide, rfl, pairFirst, rfl, rfl⟩
  have hsecond : (system.restrict Small).step ⟨pairFirst, true⟩ (.fire 2) ⟨pairSecond, true⟩ :=
    ⟨by unfold Small; decide, rfl, pairSecond, rfl, rfl⟩
  have hagain : (system.restrict Small).step ⟨tickCount (tickCount pairSecond), true⟩ (.fire 1)
      ⟨pairAgain, true⟩ := ⟨by unfold Small; decide, rfl, pairAgain, rfl, rfl⟩
  exact .cons hfirst (.cons hsecond (.cons ⟨trivial, rfl, pairSecond, rfl, rfl⟩
    (.cons ⟨by unfold Small; decide, rfl, rfl⟩ (.cons ⟨trivial, rfl, tickCount pairSecond, rfl, rfl⟩
      (.cons ⟨by unfold Small; decide, rfl, rfl⟩ (.cons hagain
        (.cons ⟨trivial, rfl, pairAgain, rfl, rfl⟩ (.nil _))))))))

theorem stable_and_drift_free_pair : ∃ σ σ₁ σ₂ σ₃ l, stamped.Reach σ ∧ stamped.step σ (.fire 1) σ₁ ∧
    stamped.step σ₁ (.fire 2) σ₂ ∧ σ.stamp 1 < σ₁.stamp 2 ∧ stamped.Run σ₁ l σ₃ ∧ ticks l = 2 ∧
    l.count (.fire 1) = (ticks l + 2 - 2) / 2 := by
  obtain ⟨σ, hrun, hm⟩ := stamped_run pair_start (σ := ⟨boot 0, 0, fun _ => 0⟩) rfl
  have h : stamped.Reach σ := (System.Reach.init (boot_fresh (by decide))).run hrun
  obtain ⟨σ₃, hcalls, hend⟩ := stamped_run pair_calls hm
  cases hcalls with
  | cons hfirst hrest =>
    have hperiodic :=
      (stable_and_drift_free h).2 1 2 2 (.fire 1) _ _ _ hfirst (by rw [hm]; rfl) (by decide)
      ⟨rfl, rfl⟩ hrest (by simp [Moved])
    have hcount := hperiodic.2 (by rw [hend])
    cases hrest with
    | cons hsecond hrest =>
      have horder := (stable_and_drift_free h).1 1 2 _ [] _ _ hfirst (.nil _) (by simp) hsecond
      exact ⟨σ, _, _, σ₃, _, h, hfirst, hsecond, horder, .cons hsecond hrest, rfl, hcount⟩

end CobraOS.Timers
