import CobraOS.Shutdown.Model

/-!
# When a shutdown comes early

Seconds become ticks through two 32-bit products, `secs * 1000` and `ms * 100 + 999`.  For up to
`maxSecs` seconds nothing wraps and the result is `secs * 100` (`ticks_of_secs`); from there on it
is smaller, since no number of ticks that `MS_TO_TICKS` can give is as large (`msToTicks_le`).

A timer fires when the signed difference of its expiry and the tick count is not positive, so it
cannot fire before the ticks it was given are over, whatever else is in the queue
(`not_early_step`).  Hence a shutdown never comes early exactly when it is scheduled for at most
`maxSecs` seconds (`shutdown_not_early_iff`).
-/

namespace CobraOS.Shutdown

open Base Timers

/-- The seconds up to which no product wraps. -/
def maxSecs : Nat := 42949

theorem ticks_of_secs {secs : Nat} (h : secs ≤ maxSecs) :
    msToTicks (secs * 1000 % 4294967296) = secs * 100 := by
  unfold maxSecs at h
  unfold msToTicks
  omega

theorem msToTicks_le (ms : Nat) : msToTicks ms ≤ 4294967 := by
  unfold msToTicks
  omega

/-- What the timers and `shutdown.c` know of each other. -/
structure Inv (s : Sys) (q : List Nat) : Prop where
  good : Good s.timers q
  active : sdTimer ∈ q → s.sdActive = true
  period : (s.timers.timers sdTimer).period = 0

section

variable {s s' : Sys} {q : List Nat}

/-! ### The calls of `shutdown.c` -/

theorem cancelShutdown_spec (hi : Inv s q) :
    ∃ s', cancelShutdown s = some s' ∧ Inv s' (q.erase sdTimer) ∧ sdTimer ∉ q.erase sdTimer ∧
      (∀ a, (s'.timers.timers a).expires = (s.timers.timers a).expires) ∧
      s'.timers.tick = s.timers.tick ∧ s'.stopped = s.stopped ∧ s'.ticking = s.ticking ∧
      s'.sdDefaultSecs = s.sdDefaultSecs := by
  have hout := hi.good.nodup.not_mem_erase (a := sdTimer)
  unfold cancelShutdown
  by_cases ha : s.sdActive = true
  · obtain ⟨r, t, hr, hg, hexp, hx⟩ := cancel_spec hi.good sdTimer
    rw [if_pos ha, hr]
    exact ⟨_, rfl, ⟨hg, fun h => absurd h hout, (hx.period _).trans hi.period⟩, hout, hexp, hx.tick,
      rfl, rfl, rfl⟩
  · rw [if_neg ha]
    have hq : sdTimer ∉ q := fun h => ha (hi.active h)
    rw [List.erase_of_not_mem hq]
    exact ⟨s, rfl, hi, hq, fun _ => rfl, rfl, rfl, rfl, rfl⟩

/-- **`schedule_shutdown`** starts `sd_timer`, for at least one tick. -/
theorem scheduleShutdown_spec (hi : Inv s q) (mode : ShutdownMode) (ms : Nat) (msg : List Char) :
    ∃ s' q', scheduleShutdown s mode ms msg = some s' ∧ Inv s' q' ∧ sdTimer ∈ q' ∧
      q' = inserted s'.timers (q.erase sdTimer) sdTimer ∧
      (s'.timers.timers sdTimer).expires =
        (s.timers.tick + (if msToTicks ms = 0 then 1 else msToTicks ms)) % 4294967296 ∧
      s'.timers.tick = s.timers.tick ∧ s'.stopped = s.stopped ∧ s'.ticking = s.ticking ∧
      s'.sdDefaultSecs = s.sdDefaultSecs := by
  obtain ⟨s1, hr1, hi1, hout, -, ht1, hst1, htk1, hsec1⟩ := cancelShutdown_spec hi
  have hinact : (s1.timers.timers sdTimer).active = false :=
    Bool.eq_false_iff.mpr (fun h => hout ((hi1.good.active _).mp h))
  obtain ⟨-, hg2, -⟩ := setup_spec hi1.good hinact (some shutdownFireFn) 0
    (by decide : 0 < 4294967296)
  obtain ⟨t3, hr3, hg3, hx3, hexp3⟩ := add_spec hg2 (t := sdTimer) (by unfold Address; decide)
    (msToTicks ms)
  have hr3' : timerAddMs (timerSetup s1.timers sdTimer (some shutdownFireFn) 0 0) sdTimer ms =
      some t3 :=
    hr3
  rw [List.erase_of_not_mem hout] at hg3
  obtain ⟨s', hr, rfl, hact, hst, htk, hsec⟩ : ∃ s', scheduleShutdown s mode ms msg = some s' ∧
      s'.timers = t3 ∧ s'.sdActive = true ∧ s'.stopped = s1.stopped ∧ s'.ticking = s1.ticking ∧
      s'.sdDefaultSecs = s1.sdDefaultSecs := by
    unfold scheduleShutdown
    simp only [hr1, hr3', Option.bind_eq_bind, Option.bind_some]
    exact ⟨_, rfl, rfl, rfl, rfl, rfl, rfl⟩
  refine ⟨s', _, hr, ⟨hg3, fun _ => hact, ?_⟩, (mem_inserted _ _ _ _).mpr (Or.inl rfl), rfl, ?_,
    hx3.tick.trans ht1, hst.trans hst1, htk.trans htk1, hsec.trans hsec1⟩
  · rw [hx3.period]
    simp [timerSetup]
  · rw [hexp3]
    show (s1.timers.tick + _) % _ = _
    rw [ht1]

/-! ### Commands that schedule nothing -/

theorem Inv.congr (hi : Inv s q) (ht : s'.timers = s.timers) (ha : s'.sdActive = s.sdActive) :
    Inv s' q := by
  refine ⟨ht ▸ hi.good, fun h => ha.trans (hi.active h), ?_⟩
  rw [ht]
  exact hi.period

theorem cmdTimerDefault_same (s : Sys) (argv : List (List Char)) :
    (cmdTimerDefault s argv).timers = s.timers ∧ (cmdTimerDefault s argv).sdActive =
      s.sdActive := by
  unfold cmdTimerDefault
  split
  · simp
  · split <;> simp

theorem cmdTimerStatus_same (s : Sys) :
    (cmdTimerStatus s).timers = s.timers ∧ (cmdTimerStatus s).sdActive = s.sdActive := by
  unfold cmdTimerStatus
  split <;> simp

theorem cmdTimerBad_same (s : Sys) (w : List Char) :
    (cmdTimerBad s w).timers = s.timers ∧ (cmdTimerBad s w).sdActive = s.sdActive := by
  simp [cmdTimerBad]

theorem printScheduled_same (s : Sys) (secs : Nat) (mode : ShutdownMode) :
    (printScheduled s secs mode).timers = s.timers ∧
      (printScheduled s secs mode).sdActive = s.sdActive := by
  cases mode <;> simp [printScheduled]

/-- **A command that does not schedule** cancels the shutdown, or leaves it alone. -/
theorem cmdTimer_quiet (hi : Inv s q) {args : List Char} (hq : schedules args = false)
    (h : cmdTimer s args = some s') : ∃ q', Inv s' q' ∧
      (s'.timers.timers sdTimer).expires = (s.timers.timers sdTimer).expires ∧
      s'.timers.tick = s.timers.tick := by
  unfold schedules at hq
  unfold cmdTimer at h
  split at h
  · rename_i hnil
    rw [hnil] at hq
    exact absurd hq (by simp)
  · rename_i w argv hcons
    rw [hcons] at hq
    simp only at hq
    split at h
    · split at h
      · obtain ⟨s1, hr1, hi1, -, hexp, htick, -⟩ := cancelShutdown_spec hi
        rw [hr1] at h
        cases h
        exact ⟨_, hi1.congr (viprint_timers _ _) (viprint_sdActive _ _), hexp _, htick⟩
      · cases h
        exact ⟨q, hi.congr (viprint_timers _ _) (viprint_sdActive _ _), rfl, rfl⟩
    · rename_i hc
      split at h
      · cases h
        obtain ⟨h1, h2⟩ := cmdTimerStatus_same s
        exact ⟨q, hi.congr h1 h2, by rw [h1], by rw [h1]⟩
      · rename_i hst
        split at h
        · cases h
          obtain ⟨h1, h2⟩ := cmdTimerDefault_same s argv
          exact ⟨q, hi.congr h1 h2, by rw [h1], by rw [h1]⟩
        · rename_i hdef
          have hnone : ¬ (w = "cancel".toList ∨ w = "status".toList ∨ w = "default".toList) := by
            rintro (h | h | h)
            · exact hc h
            · exact hst h
            · exact hdef h
          rw [if_neg hnone, decide_eq_false_iff_not, not_or, Bool.not_eq_true,
            Option.isSome_eq_false_iff, Option.isNone_iff_eq_none] at hq
          rw [if_neg hq.1, hq.2] at h
          cases h
          obtain ⟨h1, h2⟩ := cmdTimerBad_same s w
          exact ⟨q, hi.congr h1 h2, by rw [h1], by rw [h1]⟩

/-! ### One step -/

theorem ticks_cons (e : Event) (l : List Event) : ticks (e :: l) = ticks [e] + ticks l := by
  unfold ticks
  rw [List.countP_cons, List.countP_singleton, Nat.add_comm]

theorem callback_spec (hi : Good s.timers q) (hact : sdTimer ∈ q → s.sdActive = true)
    (hper : (s.timers.timers sdTimer).period = 0) {t : Nat} (ht : t = sdTimer → sdTimer ∉ q) :
    Inv (callback s t) q ∧ (callback s t).timers = s.timers := by
  unfold callback
  split
  · rename_i heq
    have htimers : (shutdownFire s).timers = s.timers := by
      unfold shutdownFire
      split <;> simp
    refine ⟨⟨htimers ▸ hi, fun h => absurd h (ht heq), ?_⟩, htimers⟩
    rw [htimers]
    exact hper
  · exact ⟨⟨hi, hact, hper⟩, rfl⟩

theorem cmdTimer_inv (hi : Inv s q) {args : List Char} (h : cmdTimer s args = some s') :
    ∃ q', Inv s' q' := by
  cases hq : schedules args with
  | false =>
    obtain ⟨q', hi', -⟩ := cmdTimer_quiet hi hq h
    exact ⟨q', hi'⟩
  | true =>
    unfold schedules at hq
    unfold cmdTimer at h
    split at h
    · obtain ⟨s1, q1, hr, hi1, -⟩ := scheduleShutdown_spec hi .poweroff
        (s.sdDefaultSecs * 1000 % 4294967296) "default shutdown".toList
      rw [hr] at h
      cases h
      exact ⟨q1, hi1.congr (by simp) (by simp)⟩
    · rename_i w argv hcons
      rw [hcons] at hq
      simp only at hq
      split at hq
      · exact absurd hq (by decide)
      · rename_i hnone
        rw [not_or, not_or] at hnone
        rw [if_neg hnone.1, if_neg hnone.2.1, if_neg hnone.2.2] at h
        split at h
        · obtain ⟨s1, q1, hr, hi1, -⟩ := scheduleShutdown_spec hi (modeOf argv).1 0
            "immediate shutdown".toList
          rw [hr] at h
          cases h
          exact ⟨q1, hi1⟩
        · split at h
          · cases h
            obtain ⟨h1, h2⟩ := cmdTimerBad_same s w
            exact ⟨q, hi.congr h1 h2⟩
          · rename_i secs _
            obtain ⟨s1, q1, hr, hi1, -⟩ := scheduleShutdown_spec hi (modeOf argv).1
              (secs * 1000 % 4294967296) (joinMsg (modeOf argv).2)
            simp only [hr] at h
            cases h
            exact ⟨q1, hi1.congr (printScheduled_same _ _ _).1 (printScheduled_same _ _ _).2⟩

/-- **The step lemma**: what schedules nothing leaves the expiry of `sd_timer` alone, and `sd_timer`
fires only when it is due. -/
theorem sys_step {e : Event} (hi : Inv s q) (h : Step s e s') :
    ∃ q', Inv s' q' ∧ (¬ Replaces e →
      (s'.timers.timers sdTimer).expires = (s.timers.timers sdTimer).expires ∧
      s'.timers.tick = (s.timers.tick + ticks [e]) % 4294967296 ∧
      (e = .timers (.fire sdTimer) → due s.timers sdTimer = true)) := by
  obtain ⟨-, h⟩ := h
  have htick : s.timers.tick = (s.timers.tick + 0) % 4294967296 :=
    (Nat.mod_eq_of_lt hi.good.tick).symm
  cases e with
  | timer args =>
    obtain ⟨q', hi'⟩ := cmdTimer_inv hi h.2
    refine ⟨q', hi', fun hrep => ?_⟩
    obtain ⟨-, -, h1, h2⟩ := cmdTimer_quiet hi (Bool.eq_false_iff.mpr hrep) h.2
    exact ⟨h1, h2.trans htick, by simp⟩
  | schedule mode delayMs msg =>
    obtain ⟨s1, q1, hr, hi1, -⟩ := scheduleShutdown_spec hi mode delayMs msg
    have h' : scheduleShutdown s mode delayMs msg = some s' := h.2
    rw [hr] at h'
    cases h'
    exact ⟨q1, hi1, fun hrep => absurd trivial hrep⟩
  | cancelShutdown =>
    obtain ⟨s1, hr, hi1, -, hexp, ht, -⟩ := cancelShutdown_spec hi
    have h' : cancelShutdown s = some s' := h
    rw [hr] at h'
    cases h'
    exact ⟨_, hi1, fun _ => ⟨hexp _, ht.trans htick, by simp⟩⟩
  | timers e =>
    obtain ⟨htouch, m, hstep, rfl⟩ := h
    obtain ⟨q', hg', ht', hkeeps⟩ := Timers.step_spec hi.good hstep
    have hk := hkeeps sdTimer htouch
    have hper : (m.st.timers sdTimer).period = 0 := hk.period.trans hi.period
    have hact : sdTimer ∈ q' → s.sdActive = true := by
      intro h'
      refine hi.active ?_
      by_contra hn
      exact hk.out hn h'
    have hticks : ticks [Event.timers e] = if e = .pit then 1 else 0 := by
      cases e <;> rfl
    have hplain : Inv { s with timers := m.st, ticking := m.ticking } q' := ⟨hg', hact, hper⟩
    rw [hticks]
    cases e with
    | fire t =>
      obtain ⟨hi', htimers⟩ := callback_spec (s := { s with timers := m.st, ticking := m.ticking })
        (t := t) hg' hact hper (fun he => (hk.fire (by rw [he])).2 hi.period)
      refine ⟨q', hi', fun _ => ?_⟩
      show ((callback _ t).timers.timers sdTimer).expires = _ ∧ (callback _ t).timers.tick = _ ∧ _
      rw [htimers]
      refine ⟨hk.expires hi.period, ht', fun he => ?_⟩
      cases he
      exact (hk.fire rfl).1
    | pit => exact ⟨q', hplain, fun _ => ⟨hk.expires hi.period, ht', by simp⟩⟩
    | done => exact ⟨q', hplain, fun _ => ⟨hk.expires hi.period, ht', by simp⟩⟩
    | setup a fn arg period => exact ⟨q', hplain, fun _ => ⟨hk.expires hi.period, ht', by simp⟩⟩
    | add a d => exact ⟨q', hplain, fun _ => ⟨hk.expires hi.period, ht', by simp⟩⟩
    | cancel a => exact ⟨q', hplain, fun _ => ⟨hk.expires hi.period, ht', by simp⟩⟩

theorem boot_inv (h : Boot s) : Inv s [] := by
  obtain ⟨⟨hqueue, hset, htick, -⟩, -, -⟩ := h
  refine ⟨⟨⟨hqueue, by simp⟩, fun a => ?_, by simp, fun a => ?_, htick⟩, by simp, (hset _).2⟩
  · rw [(hset a).1]
    simp
  · rw [(hset a).2]
    decide

theorem reach_inv (h : system.Reach s) : ∃ q, Inv s q := by
  refine h.induct (P := fun s => ∃ q, Inv s q) (fun s hs => ⟨[], boot_inv hs⟩) ?_
  rintro s e s' ⟨q, hi⟩ hstep
  obtain ⟨q', hi', -⟩ := sys_step hi hstep
  exact ⟨q', hi'⟩

/-! ### Not early -/

/-- **The run lemma**: `sd_timer`, set to expire in `d` ticks, does not fire before. -/
theorem not_early_run {l : List Event} (h : system.Run s l s') : ∀ {q : List Nat}
    {d : Nat}, Inv s q →
    (s.timers.timers sdTimer).expires = (s.timers.tick + d) % 4294967296 → d < 2147483648 →
    (∀ e ∈ l, ¬ Replaces e) →
    ∀ pre post, l = pre ++ .timers (.fire sdTimer) :: post → d ≤ ticks pre := by
  induction h with
  | nil _ =>
    intro q d _ _ _ _ pre post heq
    exact absurd heq (by simp)
  | @cons s s1 s2 e l hstep _ ih =>
    intro q d hi hexp hd hl pre post heq
    obtain ⟨q', hi', hquiet⟩ := sys_step hi hstep
    obtain ⟨h1, h2, hdue⟩ := hquiet (hl e List.mem_cons_self)
    cases pre with
    | nil =>
      obtain ⟨rfl, -⟩ := List.cons.inj heq
      have hleft : left s.timers sdTimer = d := left_set hexp rfl (by omega)
      have hzero := (due_iff (by omega)).mp (hdue rfl)
      omega
    | cons a pre =>
      obtain ⟨rfl, hrest⟩ := List.cons.inj heq
      rw [ticks_cons]
      by_cases hle : d ≤ ticks [e]
      · exact Nat.le_add_right_of_le hle
      · have hexp' : (s1.timers.timers sdTimer).expires =
            (s1.timers.tick + (d - ticks [e])) % 4294967296 := by
          rw [h1, h2, hexp]
          omega
        have := ih hi' hexp' (by omega) (fun e he => hl e (List.mem_cons_of_mem _ he))
          pre post hrest
        omega

/-! ### Early -/

/-- The state with other timers, in or out of `timer_tick`. -/
def withTimers (s : Sys) (t : Timers.State) (ticking : Bool) : Sys :=
  { s with timers := t, ticking := ticking }

/-- **A run in which the shutdown comes after exactly `n + 1` ticks**, when no other timer is
set. -/
theorem countdown : ∀ (n : Nat) {s : Sys}, Inv s [sdTimer] → s.stopped = none → s.ticking = false →
    (s.timers.timers sdTimer).expires = (s.timers.tick + (n + 1)) % 4294967296 →
      n + 1 < 2147483648 →
    ∃ pre s', system.Run s (pre ++ [.timers (.fire sdTimer)]) s' ∧ (∀ e ∈ pre, ¬ Replaces e) ∧
      ticks pre = n + 1 := by
  intro n
  induction n with
  | zero =>
    intro s hi hstop hidle hexp _
    have hpit : system.step s (.timers .pit) (withTimers s (tickCount s.timers) true) :=
      ⟨hstop, id, _, ⟨hidle, rfl⟩, rfl⟩
    have hleft : left (tickCount s.timers) sdTimer = 0 :=
      left_set (s := tickCount s.timers) (hexp.trans (by unfold tickCount; simp)) rfl (by decide)
    rcases round_spec (tickCount_good hi.good) with ⟨-, hd⟩ | ⟨t, rest, t', hq, -, hr, -⟩
    · have hdue := (due_iff (by omega)).mpr hleft
      rw [hd sdTimer rfl] at hdue
      exact absurd hdue (by decide)
    · obtain ⟨rfl, -⟩ := List.cons.inj hq
      have hfire : system.step (withTimers s (tickCount s.timers) true) (.timers (.fire sdTimer))
          (callback (withTimers s t' true) sdTimer) :=
            ⟨hstop, id, ⟨t', true⟩, ⟨rfl, t', hr, rfl⟩, rfl⟩
      exact ⟨[.timers .pit], _, .cons hpit (.cons hfire (.nil _)), by simp [Replaces], rfl⟩
  | succ n ih =>
    intro s hi hstop hidle hexp hn
    have hpit : system.step s (.timers .pit) (withTimers s (tickCount s.timers) true) :=
      ⟨hstop, id, _, ⟨hidle, rfl⟩, rfl⟩
    have hexp' : (s.timers.timers sdTimer).expires =
        ((tickCount s.timers).tick + (n + 1)) % 4294967296 := by
      rw [hexp]
      unfold tickCount
      simp only
      omega
    have hleft : left (tickCount s.timers) sdTimer = n + 1 :=
      left_set (s := tickCount s.timers) hexp' rfl (by omega)
    rcases round_spec (tickCount_good hi.good) with ⟨hr, -⟩ | ⟨t, rest, t', hq, hdue, -⟩
    · have hdone : system.step (withTimers s (tickCount s.timers) true) (.timers .done)
          (withTimers s (tickCount s.timers) false) :=
            ⟨hstop, id, ⟨_, false⟩, ⟨rfl, _, hr, rfl⟩, rfl⟩
      have hi' : Inv (withTimers s (tickCount s.timers) false) [sdTimer] :=
        ⟨tickCount_good hi.good, hi.active, hi.period⟩
      obtain ⟨pre, s', hrun, hl, hticks⟩ := ih hi' hstop rfl hexp' (by omega)
      refine ⟨.timers .pit :: .timers .done :: pre, s', .cons hpit (.cons hdone hrun), ?_, ?_⟩
      · intro e he
        simp only [List.mem_cons] at he
        rcases he with rfl | rfl | he
        · exact id
        · exact id
        · exact hl e he
      · rw [ticks_cons (.timers .pit), ticks_cons (.timers .done) pre, hticks]
        show 1 + (0 + (n + 1)) = _
        omega
    · obtain ⟨rfl, -⟩ := List.cons.inj hq
      have := (due_iff (by omega)).mp hdue
      omega

/-- The delay of `timer <secs>` in ticks. -/
def delayTicks (secs : Nat) : Nat :=
  if msToTicks (secs * 1000 % 4294967296) = 0 then 1 else msToTicks (secs * 1000 % 4294967296)

/-- **The products wrap exactly beyond `maxSecs`**, and then the delay is too short. -/
theorem delayTicks_iff (secs : Nat) : secs * 100 ≤ delayTicks secs ↔ secs ≤ maxSecs := by
  constructor
  · intro h
    have := msToTicks_le (secs * 1000 % 4294967296)
    unfold delayTicks at h
    unfold maxSecs
    split at h <;> omega
  · intro h
    have := ticks_of_secs h
    unfold delayTicks
    split <;> omega

theorem delayTicks_bounds (secs : Nat) : 0 < delayTicks secs ∧ delayTicks secs ≤ 4294967 := by
  have := msToTicks_le (secs * 1000 % 4294967296)
  unfold delayTicks
  split <;> omega

/-- `shutdown_fire` runs only after `secs * 100` ticks of any run that follows the command, unless a
later call of `schedule_shutdown` replaces it. -/
def NotEarly (s : Sys) (args : List Char) (secs : Nat) : Prop :=
  ∀ s1, system.step s (.timer args) s1 → ∀ l s2, system.Run s1 l s2 → (∀ e ∈ l, ¬ Replaces e) →
    ∀ pre post, l = pre ++ .timers (.fire sdTimer) :: post → secs * 100 ≤ ticks pre

/-- The command schedules a shutdown after `secs` seconds. -/
def Asks (s : Sys) (args : List Char) (secs : Nat) : Prop :=
  ∃ mode msg print, (∀ s, (print s : Sys).timers = s.timers ∧ (print s).sdActive = s.sdActive ∧
      (print s).stopped = s.stopped ∧ (print s).ticking = s.ticking) ∧
    cmdTimer s args = (scheduleShutdown s mode (secs * 1000 % 4294967296) msg).map print

theorem Asks.notEarly (hi : Inv s q) {args : List Char} {secs : Nat} (ha : Asks s args secs)
    (hs : secs ≤ maxSecs) : NotEarly s args secs := by
  rintro s1 ⟨-, -, hr⟩ l s2 hrun hl pre post heq
  obtain ⟨mode, msg, print, hprint, hcmd⟩ := ha
  obtain ⟨s', q', hr', hi', -, -, hexp, htick, -⟩ := scheduleShutdown_spec hi mode
    (secs * 1000 % 4294967296) msg
  rw [hcmd, hr'] at hr
  cases hr
  obtain ⟨h1, h2, -, -⟩ := hprint s'
  have hb := delayTicks_bounds secs
  have hexp' : ((print s').timers.timers sdTimer).expires =
      ((print s').timers.tick + delayTicks secs) % 4294967296 := by
    rw [h1, htick]
    exact hexp
  have := not_early_run hrun (hi'.congr h1 h2) hexp' (by omega) hl pre post heq
  exact le_trans ((delayTicks_iff secs).mpr hs) this

/-- A run in which the shutdown comes after exactly `delayTicks secs` ticks. -/
theorem Asks.fires (hi : Inv s []) (hstop : s.stopped = none) (hidle : s.ticking = false)
    {args : List Char} {secs : Nat} (ha : Asks s args secs) :
    ∃ s1 pre s2, system.step s (.timer args) s1 ∧
      system.Run s1 (pre ++ [.timers (.fire sdTimer)]) s2 ∧
      (∀ e ∈ pre ++ [.timers (.fire sdTimer)], ¬ Replaces e) ∧ ticks pre = delayTicks secs := by
  obtain ⟨mode, msg, print, hprint, hcmd⟩ := ha
  obtain ⟨s', q', hr', hi', -, rfl, hexp, htick, hstop', hidle', -⟩ := scheduleShutdown_spec hi mode
    (secs * 1000 % 4294967296) msg
  obtain ⟨h1, h2, h3, h4⟩ := hprint s'
  have hstep : system.step s (.timer args) (print s') := by
    refine ⟨hstop, hidle, ?_⟩
    rw [hcmd, hr']
    rfl
  have hb := delayTicks_bounds secs
  have hexp' : ((print s').timers.timers sdTimer).expires =
      ((print s').timers.tick + (delayTicks secs - 1 + 1)) % 4294967296 := by
    rw [Nat.sub_add_cancel hb.1, h1, htick]
    exact hexp
  obtain ⟨pre, s2, hrun, hl, hticks⟩ := countdown (delayTicks secs - 1) (hi'.congr h1 h2)
    (h3.trans (hstop'.trans hstop)) (h4.trans (hidle'.trans hidle)) hexp' (by omega)
  refine ⟨_, pre, s2, hstep, hrun, fun e he => ?_, by omega⟩
  rcases List.mem_append.mp he with he | he
  · exact hl e he
  · rw [List.mem_singleton.mp he]
    exact id

theorem Asks.early (hi : Inv s []) (hstop : s.stopped = none) (hidle : s.ticking = false)
    {args : List Char} {secs : Nat} (ha : Asks s args secs) (h : NotEarly s args secs) :
    secs ≤ maxSecs := by
  obtain ⟨s1, pre, s2, hstep, hrun, hl, hticks⟩ := ha.fires hi hstop hidle
  have := h _ hstep _ _ hrun hl pre [] rfl
  rw [hticks] at this
  exact (delayTicks_iff secs).mp this

/-! ### The two commands -/

theorem printScheduled_rest (s : Sys) (secs : Nat) (mode : ShutdownMode) :
    (printScheduled s secs mode).stopped = s.stopped ∧
      (printScheduled s secs mode).ticking = s.ticking ∧
      (printScheduled s secs mode).sdDefaultSecs = s.sdDefaultSecs := by
  cases mode <;> simp [printScheduled]

/-- What `timer` alone prints. -/
def printDefault (s : Sys) : Sys :=
  let s := viprint s "Shutdown scheduled in "
  let s := printUint s (s.sdDefaultSecs / 60)
  let s := viprint s " min "
  let s := printUint s (s.sdDefaultSecs % 60)
  viprint s "s. Use 'timer cancel' to abort.\n"

theorem cmdTimer_nil (s : Sys) {args : List Char} (ha : argvOf args = []) :
    cmdTimer s args = (scheduleShutdown s .poweroff (s.sdDefaultSecs * 1000 % 4294967296)
      "default shutdown".toList).map printDefault := by
  unfold cmdTimer
  rw [ha]
  cases scheduleShutdown s .poweroff (s.sdDefaultSecs * 1000 % 4294967296)
    "default shutdown".toList with
  | none => rfl
  | some s1 => simp only [printDefault, Option.bind_eq_bind, Option.bind_some, Option.map_some]

theorem cmdTimer_secs (s : Sys) {args w : List Char} {argv : List (List Char)} {secs : Nat}
    (ha : argvOf args = w :: argv) (hw : parseU32 w = some secs) :
    cmdTimer s args = (scheduleShutdown s (modeOf argv).1 (secs * 1000 % 4294967296)
      (joinMsg (modeOf argv).2)).map (printScheduled · secs (modeOf argv).1) := by
  have hkey : ∀ k, parseU32 k = none → w ≠ k := by
    intro k hk hwk
    rw [hwk, hk] at hw
    exact absurd hw (by simp)
  unfold cmdTimer
  rw [ha]
  simp only
  rw [if_neg (hkey _ (by decide)), if_neg (hkey _ (by decide)), if_neg (hkey _ (by decide)),
    if_neg (hkey _ (by decide)), hw]
  simp only
  cases scheduleShutdown s (modeOf argv).1 (secs * 1000 % 4294967296) (joinMsg (modeOf argv).2) with
  | none => rfl
  | some s1 => simp only [Option.bind_eq_bind, Option.bind_some, Option.map_some]

/-- **`timer <secs>`** -/
theorem asks_secs (s : Sys) {args w : List Char} {argv : List (List Char)} {secs : Nat}
    (ha : argvOf args = w :: argv) (hw : parseU32 w = some secs) : Asks s args secs := by
  refine ⟨_, _, _, fun s => ?_, cmdTimer_secs s ha hw⟩
  have h := printScheduled_same s secs (modeOf argv).1
  have h' := printScheduled_rest s secs (modeOf argv).1
  exact ⟨h.1, h.2, h'.1, h'.2.1⟩

/-- **`timer` alone** -/
theorem asks_default (s : Sys) {args : List Char} (ha : argvOf args = []) :
    Asks s args s.sdDefaultSecs :=
  ⟨_, _, _, fun s => by simp [printDefault], cmdTimer_nil s ha⟩

/-- The event is a command `timer default ...`. -/
def SetsDefault : Event → Prop
  | .timer args => (argvOf args).head? = some "default".toList
  | _ => False

theorem setsDefault_spec {args w : List Char} {argv : List (List Char)} {secs : Nat}
    (ha : argvOf args = "default".toList :: w :: argv) (hw : parseU32 w = some secs)
    (h0 : secs ≠ 0) :
    ∃ s', cmdTimer s args = some s' ∧ s'.sdDefaultSecs = secs ∧ s'.timers = s.timers ∧
      s'.sdActive = s.sdActive ∧ s'.stopped = s.stopped ∧ s'.ticking = s.ticking := by
  obtain ⟨n, rfl⟩ := Nat.exists_eq_succ_of_ne_zero h0
  have hcmd : cmdTimer s args = some (cmdTimerDefault s (w :: argv)) := by
    unfold cmdTimer
    rw [ha]
    simp only
    rw [if_neg (by decide), if_neg (by decide), if_pos trivial]
  refine ⟨_, hcmd, ?_⟩
  unfold cmdTimerDefault
  simp only [hw]
  simp

theorem scheduleShutdown_secs (hi : Inv s q) {mode : ShutdownMode} {ms : Nat} {msg : List Char}
    (h : scheduleShutdown s mode ms msg = some s') : s'.sdDefaultSecs = s.sdDefaultSecs := by
  obtain ⟨s1, -, hr, -, -, -, -, -, -, -, hsecs⟩ := scheduleShutdown_spec hi mode ms msg
  rw [hr] at h
  cases h
  exact hsecs

theorem cmdTimer_default (hi : Inv s q) {args : List Char} (h : cmdTimer s args = some s')
    (hd : (argvOf args).head? ≠ some "default".toList) : s'.sdDefaultSecs = s.sdDefaultSecs := by
  cases hargs : argvOf args with
  | nil =>
    rw [cmdTimer_nil s hargs] at h
    obtain ⟨s1, hr, rfl⟩ := Option.map_eq_some_iff.mp h
    have := scheduleShutdown_secs hi hr
    simpa [printDefault] using this
  | cons w argv =>
    rw [hargs, List.head?_cons] at hd
    have hw : w ≠ "default".toList := fun he => hd (congrArg some he)
    cases hsecs : parseU32 w with
    | some secs =>
      rw [cmdTimer_secs s hargs hsecs] at h
      obtain ⟨s1, hr, rfl⟩ := Option.map_eq_some_iff.mp h
      exact (printScheduled_rest s1 _ _).2.2.trans (scheduleShutdown_secs hi hr)
    | none =>
      unfold cmdTimer at h
      rw [hargs] at h
      simp only [hsecs, if_neg hw] at h
      split at h
      · split at h
        · obtain ⟨s1, hr, -, -, -, -, -, -, hkeep⟩ := cancelShutdown_spec hi
          rw [hr] at h
          cases h
          simpa using hkeep
        · cases h
          simp
      · split at h
        · cases h
          unfold cmdTimerStatus
          split <;> simp
        · split at h
          · exact scheduleShutdown_secs hi h
          · cases h
            simp [cmdTimerBad]

theorem default_step {e : Event} (hi : Inv s q) (h : Step s e s') (hd : ¬ SetsDefault e) :
    s'.sdDefaultSecs = s.sdDefaultSecs := by
  obtain ⟨-, h⟩ := h
  cases e with
  | timer args => exact cmdTimer_default hi h.2 hd
  | schedule mode delayMs msg => exact scheduleShutdown_secs hi h.2
  | cancelShutdown =>
    obtain ⟨s1, hr, -, -, -, -, -, -, hsecs⟩ := cancelShutdown_spec hi
    have h' : cancelShutdown s = some s' := h
    rw [hr] at h'
    cases h'
    exact hsecs
  | timers e =>
    obtain ⟨-, m, -, rfl⟩ := h
    cases e with
    | fire t =>
      simp only [callback, shutdownFire]
      split
      · split <;> simp
      · rfl
    | _ => rfl

theorem default_run {l : List Event} (h : system.Run s l s') : ∀ {q : List Nat}, Inv s q →
    (∀ e ∈ l, ¬ SetsDefault e) → s'.sdDefaultSecs = s.sdDefaultSecs := by
  induction h with
  | nil _ => exact fun _ _ => rfl
  | cons hstep _ ih =>
    intro q hi hl
    obtain ⟨q', hi', -⟩ := sys_step hi hstep
    exact (ih hi' (fun e he => hl e (List.mem_cons_of_mem _ he))).trans
      (default_step hi hstep (hl _ List.mem_cons_self))

/-- The machine at power on, with this tick count. -/
def bootAt (tick : Nat) : Sys where
  timers := ⟨fun _ => ⟨0, 0, none, 0, false, none⟩, none, tick⟩
  ticking := false
  pitHz := 100
  sdActive := false
  sdMode := .poweroff
  sdDeadline := 0
  sdMsg := []
  sdDefaultSecs := 10 * 60
  printed := []
  stopped := none

theorem bootAt_boot {tick : Nat} (h : tick < 4294967296) : Boot (bootAt tick) :=
  ⟨⟨rfl, fun _ => ⟨rfl, rfl⟩, h, rfl⟩, rfl, (by decide : 10 * 60 < 4294967296), rfl⟩

/-- **A shutdown never comes early exactly when it is asked for in at most `maxSecs` seconds**, at
every tick count, by `timer <secs>` and by `timer default <secs>` with a later `timer`. -/
theorem shutdown_not_early_iff {tick : Nat} (ht : tick < 4294967296) {args w : List Char}
    {argv : List (List Char)} {secs : Nat} (hw : parseU32 w = some secs) :
    (argvOf args = w :: argv →
      ((∀ s, system.Reach s → s.timers.tick = tick → NotEarly s args secs) ↔ secs ≤ maxSecs)) ∧
    (argvOf args = "default".toList :: w :: argv → secs ≠ 0 →
      ((∀ s s1 l s2 args', system.Reach s → system.step s (.timer args) s1 → system.Run s1 l s2 →
          (∀ e ∈ l, ¬ SetsDefault e) → s2.timers.tick = tick → argvOf args' = [] →
          NotEarly s2 args' secs) ↔ secs ≤ maxSecs)) := by
  have hboot := bootAt_boot ht
  have hi0 := boot_inv hboot
  refine ⟨fun ha => ⟨fun h => ?_, fun hs s hs' _ => ?_⟩,
    fun ha h0 => ⟨fun h => ?_, fun hs s s1 l s2 args' hs' hstep hrun hl _ ha' => ?_⟩⟩
  · exact (asks_secs _ ha hw).early hi0 rfl rfl (h _ (.init hboot) rfl)
  · obtain ⟨q, hi⟩ := reach_inv hs'
    exact (asks_secs s ha hw).notEarly hi hs
  · obtain ⟨s1, hcmd, hsecs, htimers, hact, hstop, hidle⟩ :=
      setsDefault_spec (s := bootAt tick) ha hw h0
    have hstep : system.step (bootAt tick) (.timer args) s1 := ⟨rfl, rfl, hcmd⟩
    have hearly := h _ _ [] _ [] (.init hboot) hstep (.nil _) (by simp) (by rw [htimers]; rfl) rfl
    rw [← hsecs] at hearly ⊢
    exact (asks_default s1 rfl).early (hi0.congr htimers hact) hstop hidle hearly
  · obtain ⟨q, hi⟩ := reach_inv hs'
    obtain ⟨q1, hi1⟩ := cmdTimer_inv hi hstep.2.2
    obtain ⟨q2, hi2⟩ := reach_inv ((hs'.step hstep).run hrun)
    obtain ⟨s1', hcmd, hsecs, -⟩ := setsDefault_spec (s := s) ha hw h0
    rw [hstep.2.2] at hcmd
    cases hcmd
    have hd : s2.sdDefaultSecs = secs := (default_run hrun hi1 hl).trans hsecs
    rw [← hd] at hs ⊢
    exact (asks_default s2 ha').notEarly hi2 hs

/-- `timer 42949` never comes early; nor does a later `timer` after `timer default 42949`. -/
theorem shutdown_not_early_iff_max :
    (∀ s, system.Reach s → s.timers.tick = 0 → NotEarly s "42949".toList 42949) ∧
    (∀ s s1 l s2 args', system.Reach s → system.step s (.timer "default 42949".toList) s1 →
      system.Run s1 l s2 → (∀ e ∈ l, ¬ SetsDefault e) → s2.timers.tick = 0 → argvOf args' = [] →
      NotEarly s2 args' 42949) := by
  have hw : parseU32 "42949".toList = some 42949 := by decide
  have ha : argvOf "42949".toList = ["42949".toList] := by decide
  have hd : argvOf "default 42949".toList = ["default".toList, "42949".toList] := by decide
  exact ⟨((shutdown_not_early_iff (by decide) hw).1 ha).mpr (by decide),
    ((shutdown_not_early_iff (by decide) hw).2 hd (by decide)).mpr (by decide)⟩

/-- **`timer 42950` turns the machine off after 33 ticks**, not after 4295000. -/
theorem early_shutdown : ∃ s1 pre s2, system.Reach (bootAt 0) ∧
    system.step (bootAt 0) (.timer "42950".toList) s1 ∧
    system.Run s1 (pre ++ [.timers (.fire sdTimer)]) s2 ∧
    (∀ e ∈ pre ++ [.timers (.fire sdTimer)], ¬ Replaces e) ∧ ticks pre = 33 ∧
    ¬ NotEarly (bootAt 0) "42950".toList 42950 := by
  have hboot : Boot (bootAt 0) := bootAt_boot (by decide)
  have hasks : Asks (bootAt 0) "42950".toList 42950 :=
    asks_secs _ (by decide : argvOf "42950".toList = ["42950".toList]) (by decide)
  obtain ⟨s1, pre, s2, hstep, hrun, hl, hticks⟩ := hasks.fires (boot_inv hboot) rfl rfl
  refine ⟨s1, pre, s2, .init hboot, hstep, hrun, hl, hticks, fun h => ?_⟩
  exact absurd (hasks.early (boot_inv hboot) rfl rfl h) (by decide)

end
end CobraOS.Shutdown
