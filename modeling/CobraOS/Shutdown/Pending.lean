import CobraOS.Shutdown.Early

/-!
# One pending shutdown

When `sd_timer` is the only timer, the calls of `shutdown.c` and the ticks do what a plan says:
there is at most one, with its mode, its message and the ticks that are left.  A plan replaces the
one before, is dropped when it is cancelled, and is carried out when no tick is left.  The flag, the
timer, its link in the queue and the deadline are always those of the plan (`Matches.step`), so that
they agree with each other (`one_pending`).
-/

namespace CobraOS.Shutdown

open Base Timers

/-! ### The calls -/

/-- `shutdown_is_pending` -/
def shutdownIsPending (s : Sys) : Bool := s.sdActive

/-- The loop of `timer_tick` with the callbacks; that of `shutdown_fire` does not return. -/
def timerTick : Nat → Sys → Option Sys
  | 0, _ => none
  | fuel + 1, s => do
    let (fired, timers) ← timerTickRound s.timers
    let s := { s with timers := timers }
    match fired with
    | none => some s
    | some t =>
      let s := callback s t
      if s.stopped.isSome then some s else timerTick fuel s

/-- `tick_count++` and `timer_tick` -/
def pitHandler (s : Sys) : Option Sys := timerTick queueFuel { s with timers := tickCount s.timers }

inductive Call
  | schedule (mode : ShutdownMode) (delayMs : Nat) (msg : List Char)
  | scheduleDefault
  | cancel
  | tick

def call (s : Sys) : Call → Option Sys
  | .schedule mode delayMs msg => scheduleShutdown s mode delayMs msg
  | .scheduleDefault => scheduleDefaultShutdown s
  | .cancel => cancelShutdown s
  | .tick => pitHandler s

/-- Delays are words. -/
def Call.InRange : Call → Prop
  | .schedule _ delayMs _ => delayMs < 4294967296
  | _ => True

/-- The runs of the calls, none of them in the middle of another, while the machine runs.  The tick
count may be any word. -/
def calls : System Sys Call where
  init s := Boot s ∧ s.pitHz = 100
  step s c s' := s.stopped = none ∧ c.InRange ∧ call s c = some s'

/-! ### Plans -/

structure Plan where
  mode : ShutdownMode
  msg : List Char
  left : Nat

/-- What `schedule_shutdown` keeps of a message. -/
def storedMsg (msg : List Char) : List Char :=
  if msg = [] then "scheduled shutdown".toList else msg.take 95

def ticksOf (delayMs : Nat) : Nat := if msToTicks delayMs = 0 then 1 else msToTicks delayMs

/-- The plan of `schedule_default_shutdown`. -/
def defaultPlan : Plan :=
  ⟨.poweroff, storedMsg "automatic 10-minute shutdown".toList, ticksOf shutdownDefaultMs⟩

/-- What a call makes of the plan. -/
def replan (plan : Option Plan) : Call → Option Plan
  | .schedule mode delayMs msg => some ⟨mode, storedMsg msg, ticksOf delayMs⟩
  | .scheduleDefault => plan.or (some defaultPlan)
  | .cancel => none
  | .tick => (plan.filter (fun p => p.left ≠ 1)).map (fun p => { p with left := p.left - 1 })

/-- The mode of a plan that is carried out by the call. -/
def carriedOut (plan : Option Plan) : Call → Option ShutdownMode
  | .tick => (plan.filter (fun p => p.left = 1)).map Plan.mode
  | _ => none

/-- The state is as the plan says. -/
structure Matches (s : Sys) (plan : Option Plan) : Prop where
  inv : Inv s (if plan.isSome then [sdTimer] else [])
  active : s.sdActive = plan.isSome
  hz : s.pitHz = 100
  ticking : s.ticking = false
  mode : ∀ p ∈ plan, s.sdMode = p.mode
  msg : ∀ p ∈ plan, s.sdMsg = p.msg
  left : ∀ p ∈ plan, Timers.left s.timers sdTimer = p.left ∧ 0 < p.left ∧ p.left ≤ 4294967
  deadline : plan.isSome → s.sdDeadline = (s.timers.timers sdTimer).expires

variable {s s' : Sys} {plan : Option Plan}

theorem ticksOf_pos (ms : Nat) : 0 < ticksOf ms := by
  unfold ticksOf
  split <;> omega

theorem ticksOf_le (ms : Nat) : ticksOf ms ≤ 4294967 := by
  have := msToTicks_le ms
  unfold ticksOf
  split <;> omega

theorem cancelShutdown_fields (h : cancelShutdown s = some s') : s'.sdActive = false ∧
    s'.pitHz = s.pitHz := by
  unfold cancelShutdown at h
  by_cases ha : s.sdActive = true
  · rw [if_pos ha] at h
    obtain ⟨x, -, hx⟩ := Option.bind_eq_some_iff.mp h
    rw [Option.some.injEq] at hx
    rw [← hx]
    exact ⟨rfl, rfl⟩
  · rw [if_neg ha, Option.some.injEq] at h
    rw [← h]
    exact ⟨Bool.eq_false_iff.mpr ha, rfl⟩

theorem scheduleShutdown_fields {mode : ShutdownMode} {ms : Nat} {msg : List Char}
    (h : scheduleShutdown s mode ms msg = some s') (hhz : s.pitHz = 100) : s'.sdActive = true ∧
      s'.sdMode = mode ∧ s'.sdMsg = storedMsg msg ∧ s'.pitHz = 100 ∧
      s'.sdDeadline = (s'.timers.tick + ticksOf ms) % 4294967296 := by
  obtain ⟨s1, hr1, h⟩ := Option.bind_eq_some_iff.mp h
  have hhz1 : s1.pitHz = 100 := (cancelShutdown_fields hr1).2.trans hhz
  obtain ⟨t, ht, h⟩ := Option.bind_eq_some_iff.mp h
  rw [Option.some.injEq] at h
  subst h
  refine ⟨rfl, rfl, rfl, hhz1, ?_⟩
  simp only [hhz1]
  rfl

/-! ### The calls and the plan -/

theorem erase_planned (plan : Option Plan) :
    (if plan.isSome then [sdTimer] else []).erase sdTimer = [] := by
  cases plan <;> rfl

/-- **`schedule_shutdown`** makes a plan, whatever the one before is. -/
theorem Matches.schedule (h : Matches s plan) (mode : ShutdownMode) (ms : Nat) (msg : List Char) :
    ∃ s', scheduleShutdown s mode ms msg = some s' ∧ s'.stopped = s.stopped ∧
      Matches s' (some ⟨mode, storedMsg msg, ticksOf ms⟩) := by
  obtain ⟨s', q', hr, hi, -, hq, hexp, htick, hstop, htk, -⟩ :=
    scheduleShutdown_spec h.inv mode ms msg
  obtain ⟨hact, hmode, hmsg, hhz, hdead⟩ := scheduleShutdown_fields hr h.hz
  have hle := ticksOf_le ms
  rw [erase_planned] at hq
  have hq' : q' = [sdTimer] := hq
  have hleft : Timers.left s'.timers sdTimer = ticksOf ms := left_set hexp htick (by omega)
  refine ⟨s', hr, hstop, hq' ▸ hi, hact, hhz, htk.trans h.ticking, ?_, ?_, ?_, fun _ => ?_⟩
  · exact fun p hp => (Option.mem_some_iff.mp hp) ▸ hmode
  · exact fun p hp => (Option.mem_some_iff.mp hp) ▸ hmsg
  · intro p hp
    obtain rfl := Option.mem_some_iff.mp hp
    exact ⟨hleft, ticksOf_pos ms, hle⟩
  · rw [hdead, hexp, htick]
    rfl

theorem Matches.unplanned (hi : Inv s []) (hact : s.sdActive = false) (hhz : s.pitHz = 100)
    (htk : s.ticking = false) : Matches s none :=
  ⟨hi, hact, hhz, htk, by simp, by simp, by simp, by simp⟩

/-- **`cancel_shutdown`** drops the plan. -/
theorem Matches.cancel (h : Matches s plan) :
    ∃ s', cancelShutdown s = some s' ∧ s'.stopped = s.stopped ∧ Matches s' none := by
  obtain ⟨s', hr, hi, -, -, -, hstop, htk, -⟩ := cancelShutdown_spec h.inv
  obtain ⟨hact, hhz⟩ := cancelShutdown_fields hr
  rw [erase_planned] at hi
  exact ⟨s', hr, hstop, .unplanned hi hact (hhz.trans h.hz) (htk.trans h.ticking)⟩

/-- **`schedule_default_shutdown`** changes nothing when there is a plan. -/
theorem Matches.scheduleDefault (h : Matches s plan) : ∃ s', scheduleDefaultShutdown s = some s' ∧
    s'.stopped = s.stopped ∧ Matches s' (plan.or (some defaultPlan)) := by
  cases plan with
  | some p =>
    have hact : s.sdActive = true := h.active
    exact ⟨s, if_pos hact, rfl, h⟩
  | none =>
    have hact : ¬ s.sdActive = true := by
      rw [h.active]
      decide
    have hdef : scheduleDefaultShutdown s = scheduleShutdown s .poweroff shutdownDefaultMs
        "automatic 10-minute shutdown".toList := if_neg hact
    rw [hdef]
    exact h.schedule _ _ _

theorem timerTick_done {fuel : Nat} (h : timerTickRound s.timers = some (none, s.timers)) :
    timerTick (fuel + 1) s = some s := by
  rw [timerTick, h]
  rfl

theorem timerTick_fired {fuel t : Nat} {timers : Timers.State}
    (h : timerTickRound s.timers = some (some t, timers))
    (hs : (callback { s with timers := timers } t).stopped.isSome = true) :
    timerTick (fuel + 1) s = some (callback { s with timers := timers } t) := by
  rw [timerTick, h]
  simp only [Option.bind_eq_bind, Option.bind_some, hs, if_true]

theorem Inv.tickCount {q : List Nat} (h : Inv s q) :
    Inv { s with timers := Timers.tickCount s.timers } q :=
  ⟨tickCount_good h.good, h.active, h.period⟩

theorem Matches.tick_none (h : Matches s none) :
    ∃ s', pitHandler s = some s' ∧ s'.stopped = s.stopped ∧ Matches s' none := by
  have hi := h.inv.tickCount
  obtain ⟨hround, -⟩ | ⟨t, rest, s1, hq, -⟩ := round_spec hi.good
  · exact ⟨_, timerTick_done hround, rfl, .unplanned hi h.active h.hz h.ticking⟩
  · cases hq

theorem left_tick {d : Nat} (hl : Timers.left s.timers sdTimer = d) (h0 : 0 < d) :
    Timers.left (tickCount s.timers) sdTimer = d - 1 := by
  unfold Timers.left Timers.tickCount wsub at *
  simp only
  omega

theorem shutdownFire_active (h : s.sdActive = true) : (shutdownFire s).stopped = some s.sdMode ∧
    (shutdownFire s).sdActive = false ∧ (shutdownFire s).sdMode = s.sdMode ∧
    (shutdownFire s).sdMsg = s.sdMsg ∧ (shutdownFire s).timers = s.timers ∧
    (shutdownFire s).pitHz = s.pitHz ∧ (shutdownFire s).ticking = s.ticking := by
  unfold shutdownFire
  rw [if_pos h]
  exact ⟨rfl, rfl, rfl, rfl, rfl, rfl, rfl⟩

theorem Matches.tick_waits {p : Plan} (h : Matches s (some p)) (h1 : p.left ≠ 1) :
    ∃ s', pitHandler s = some s' ∧ s'.stopped = s.stopped ∧ Matches s' (replan (some p) .tick) := by
  have hi := h.inv.tickCount
  obtain ⟨hleft, hpos, hle⟩ := h.left p rfl
  have hleft' : Timers.left (tickCount s.timers) sdTimer = p.left - 1 := left_tick hleft hpos
  have hdue := due_iff (s := tickCount s.timers) (a := sdTimer) (by omega)
  have hplan : replan (some p) .tick = some { p with left := p.left - 1 } := by
    simp [replan, Option.filter, h1]
  obtain ⟨hround, -⟩ | ⟨t, rest, s1, hq, hd, -⟩ := round_spec hi.good
  · rw [hplan]
    refine ⟨_, timerTick_done hround, rfl, hi, h.active, h.hz, h.ticking, ?_, ?_, ?_,
      fun _ => h.deadline rfl⟩
    · exact fun x hx => (Option.mem_some_iff.mp hx) ▸ h.mode p rfl
    · exact fun x hx => (Option.mem_some_iff.mp hx) ▸ h.msg p rfl
    · intro x hx
      obtain rfl := Option.mem_some_iff.mp hx
      exact ⟨hleft', by simp only; omega, by simp only; omega⟩
  · obtain ⟨rfl, -⟩ : sdTimer = t ∧ [] = rest := by simpa using hq
    rw [hdue.mp hd] at hleft'
    omega

/-- **With the last tick the plan is carried out.** -/
theorem Matches.tick_fires {p : Plan} (h : Matches s (some p)) (h1 : p.left = 1) :
    ∃ s', pitHandler s = some s' ∧ s'.stopped = some p.mode ∧ s'.sdMode = p.mode ∧
      s'.sdMsg = p.msg ∧
      Matches s' none := by
  have hi := h.inv.tickCount
  obtain ⟨hleft, hpos, -⟩ := h.left p rfl
  have hleft' : Timers.left (tickCount s.timers) sdTimer = p.left - 1 := left_tick hleft hpos
  have hdue := due_iff (s := tickCount s.timers) (a := sdTimer) (by omega)
  obtain ⟨-, hnot⟩ | ⟨t, rest, s1, hq, -, hround, hx, hcase⟩ := round_spec hi.good
  · have := hnot sdTimer rfl
    rw [hdue.mpr (by omega)] at this
    cases this
  · obtain ⟨rfl, rfl⟩ : sdTimer = t ∧ [] = rest := by simpa using hq
    obtain ⟨-, hg, -⟩ := hcase.resolve_right (fun hp => hp.1 hi.period)
    obtain ⟨hstop, hact, hmode, hmsg, htimers, hhz, htk⟩ :=
      shutdownFire_active (s := { s with timers := s1 }) h.active
    have hmode' : (shutdownFire { s with timers := s1 }).sdMode = p.mode :=
      hmode.trans (h.mode p rfl)
    have hmsg' : (shutdownFire { s with timers := s1 }).sdMsg = p.msg := hmsg.trans (h.msg p rfl)
    have hmatch : Matches (shutdownFire { s with timers := s1 }) none := by
      refine .unplanned ⟨htimers ▸ hg, fun hq => absurd hq List.not_mem_nil, ?_⟩ hact
        (hhz.trans h.hz)
        (htk.trans h.ticking)
      rw [htimers]
      exact (hx.period _).trans hi.period
    refine ⟨shutdownFire { s with timers := s1 }, timerTick_fired hround ?_, ?_, hmode',
      hmsg', hmatch⟩
    · show (shutdownFire { s with timers := s1 }).stopped.isSome = true
      rw [hstop]
      rfl
    · rw [hstop]
      exact congrArg some (h.mode p rfl)

/-- **Every call returns and does what the plan says.** -/
theorem Matches.call (h : Matches s plan) (hrun : s.stopped = none) (c : Call) :
    ∃ s', Shutdown.call s c = some s' ∧ s'.stopped = carriedOut plan c ∧
      Matches s' (replan plan c) ∧
      ∀ p ∈ plan, s'.stopped ≠ none → s'.stopped = some p.mode ∧ s'.sdMsg = p.msg := by
  have hquiet : ∀ {t : Sys}, t.stopped = s.stopped → ∀ p ∈ plan, t.stopped ≠ none →
      t.stopped = some p.mode ∧ t.sdMsg = p.msg := fun ht p _ hs => absurd (ht.trans hrun) hs
  cases c with
  | schedule mode delayMs msg =>
    obtain ⟨s', hr, hstop, hm⟩ := h.schedule mode delayMs msg
    exact ⟨s', hr, hstop.trans hrun, hm, hquiet hstop⟩
  | scheduleDefault =>
    obtain ⟨s', hr, hstop, hm⟩ := h.scheduleDefault
    exact ⟨s', hr, hstop.trans hrun, hm, hquiet hstop⟩
  | cancel =>
    obtain ⟨s', hr, hstop, hm⟩ := h.cancel
    exact ⟨s', hr, hstop.trans hrun, hm, hquiet hstop⟩
  | tick =>
    cases plan with
    | none =>
      obtain ⟨s', hr, hstop, hm⟩ := h.tick_none
      exact ⟨s', hr, hstop.trans hrun, hm, hquiet hstop⟩
    | some p =>
      by_cases h1 : p.left = 1
      · obtain ⟨s', hr, hstop, -, hmsg, hm⟩ := h.tick_fires h1
        have hplan : replan (some p) .tick = none := by simp [replan, Option.filter, h1]
        have hcarried : carriedOut (some p) .tick = some p.mode := by
          simp [carriedOut, Option.filter, h1]
        refine ⟨s', hr, hstop.trans hcarried.symm, hplan ▸ hm, fun x hx _ => ?_⟩
        obtain rfl := Option.mem_some_iff.mp hx
        exact ⟨hstop, hmsg⟩
      · obtain ⟨s', hr, hstop, hm⟩ := h.tick_waits h1
        have hcarried : carriedOut (some p) .tick = none := by simp [carriedOut, Option.filter, h1]
        exact ⟨s', hr, (hstop.trans hrun).trans hcarried.symm, hm, hquiet hstop⟩

/-! ### Every run -/

/-- The plan after the calls. -/
def planAfter (l : List Call) : Option Plan := l.foldl replan none

/-- **The run lemma.** -/
theorem Matches.run {l : List Call} (h : calls.Run s l s') :
    ∀ {plan : Option Plan}, Matches s plan →
    Matches s' (l.foldl replan plan) := by
  induction h with
  | nil s => exact fun h => h
  | cons hstep _ ih =>
    intro plan h
    obtain ⟨hrun, -, hc⟩ := hstep
    obtain ⟨s1, hr, -, hm, -⟩ := h.call hrun _
    rw [hr, Option.some.injEq] at hc
    exact ih (hc ▸ hm)

/-- The flag, the timer, its link in the queue and the deadline agree, and they are those of the
plan. -/
structure OnePending (s : Sys) (plan : Option Plan) : Prop where
  pending : shutdownIsPending s = plan.isSome
  linked : ∃ q, Chain (links s.timers) s.timers.queue q ∧ (shutdownIsPending s = true ↔
    (s.timers.timers sdTimer).active = true ∧ q.count sdTimer = 1) ∧
      (shutdownIsPending s = false → q = [])
  latest : ∀ p ∈ plan, s.sdMode = p.mode ∧ s.sdMsg = p.msg
  default : shutdownIsPending s = true → scheduleDefaultShutdown s = some s
  remaining : shutdownIsPending s = true →
    shutdownRemainingMs s = 10 * wsub (s.timers.timers sdTimer).expires s.timers.tick ∧
    (wint (wsub s.sdDeadline s.timers.tick)).toNat * 1000 < 4294967296
  returns : s.stopped = none → ∀ c, c.InRange → ∃ s', calls.step s c s'
  fires : ∀ c s', calls.step s c s' → s'.stopped ≠ none →
    c = .tick ∧ ∃ p ∈ plan, p.left = 1 ∧ s'.stopped = some p.mode ∧ s'.sdMsg = p.msg

theorem carriedOut_some {plan : Option Plan} {c : Call} {mode : ShutdownMode}
    (h : carriedOut plan c = some mode) : c = .tick ∧ ∃ p ∈ plan, p.left = 1 := by
  cases c with
  | tick =>
    obtain ⟨p, hp, -⟩ := Option.map_eq_some_iff.mp h
    obtain ⟨hp, hleft⟩ := Option.filter_eq_some_iff.mp hp
    exact ⟨rfl, p, hp, of_decide_eq_true hleft⟩
  | _ => cases h

theorem Matches.remaining {p : Plan} (h : Matches s (some p)) :
    shutdownRemainingMs s = 10 * wsub (s.timers.timers sdTimer).expires s.timers.tick ∧
      (wint (wsub s.sdDeadline s.timers.tick)).toNat * 1000 < 4294967296 := by
  obtain ⟨hleft, hpos, hle⟩ := h.left p rfl
  have hact : s.sdActive = true := h.active
  have hexp : wsub (s.timers.timers sdTimer).expires s.timers.tick = p.left := hleft
  have hint : wint p.left = p.left := by
    unfold wint
    rw [if_pos (by omega), Nat.mod_eq_of_lt (by omega)]
  rw [h.deadline rfl, hexp, hint, Int.toNat_natCast]
  refine ⟨?_, by omega⟩
  unfold shutdownRemainingMs
  rw [if_pos hact, h.deadline rfl, hexp, h.hz]
  simp only [hint, Int.toNat_natCast]
  rw [if_neg (by omega)]
  omega

theorem Matches.onePending (h : Matches s plan) : OnePending s plan := by
  refine ⟨h.active, ⟨_, h.inv.good.queued.chain, ?_, ?_⟩, fun p hp => ⟨h.mode p hp, h.msg p hp⟩,
    fun hact => if_pos hact, ?_, ?_, ?_⟩
  · have hmem := h.inv.good.active sdTimer
    rw [shutdownIsPending, h.active, hmem]
    cases plan <;> simp
  · intro hoff
    have hnone : plan.isSome = false := h.active.symm.trans hoff
    rw [hnone]
    rfl
  · intro hact
    obtain ⟨p, rfl⟩ := Option.isSome_iff_exists.mp (h.active.symm.trans hact)
    exact h.remaining
  · intro hrun c hc
    obtain ⟨s', hr, -⟩ := h.call hrun c
    exact ⟨s', hrun, hc, hr⟩
  · rintro c s' ⟨hrun, -, hc⟩ hstop
    obtain ⟨s1, hr, hcarried, -, hfire⟩ := h.call hrun c
    rw [hc, Option.some.injEq] at hr
    subst hr
    obtain ⟨mode, hmode⟩ := Option.ne_none_iff_exists'.mp hstop
    obtain ⟨rfl, p, hp, hleft⟩ := carriedOut_some (hcarried.symm.trans hmode)
    exact ⟨rfl, p, hp, hleft, hfire p hp hstop⟩

/-- **There is one pending shutdown at a time**, and everything that is kept about it agrees, in
every run and across the wrap of the tick count. -/
theorem one_pending {s0 : Sys} {l : List Call} (h0 : calls.init s0) (h : calls.Run s0 l s) :
    OnePending s (planAfter l) := by
  obtain ⟨hboot, hhz⟩ := h0
  have hm : Matches s0 none := .unplanned (boot_inv hboot) hboot.2.1 hhz hboot.1.2.2.2
  exact (hm.run h).onePending

/-- A reboot that replaces the default shutdown, just before the tick count wraps. -/
theorem one_pending_wrap : ∃ s, calls.Run (bootAt 4294967295)
      [.scheduleDefault, .schedule .reboot 20 "bye".toList, .tick] s ∧
    OnePending s (some ⟨.reboot, "bye".toList, 1⟩) := by
  have h0 : calls.init (bootAt 4294967295) := ⟨bootAt_boot (by decide), rfl⟩
  have hm : Matches (bootAt 4294967295) none :=
    .unplanned (boot_inv h0.1) h0.1.2.1 h0.2 h0.1.1.2.2.2
  obtain ⟨s1, hr1, hstop1, hm1, -⟩ := hm.call rfl .scheduleDefault
  obtain ⟨s2, hr2, hstop2, hm2, -⟩ := hm1.call hstop1 (.schedule .reboot 20 "bye".toList)
  obtain ⟨s3, hr3, -⟩ := hm2.call hstop2 .tick
  have hrun : calls.Run (bootAt 4294967295) [.scheduleDefault, .schedule .reboot 20 "bye".toList,
      .tick] s3 :=
    .cons ⟨rfl, trivial, hr1⟩ (.cons ⟨hstop1, (by decide : 20 < 4294967296), hr2⟩
      (.cons ⟨hstop2, trivial, hr3⟩ (.nil s3)))
  exact ⟨s3, hrun, one_pending h0 hrun⟩

end CobraOS.Shutdown
