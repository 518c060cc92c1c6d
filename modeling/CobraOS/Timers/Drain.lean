import CobraOS.Timers.Punctual
import Mathlib.Data.List.MinMax

/-!
# When `timer_tick` ends

`timerTick` is the loop of `timer_tick` with callbacks that leave the timers alone.  It ends after
running the callback of every due timer once exactly for the queues of `Drains` (`tickEnds_iff`):
the due timers are in front; a periodic one goes back behind those that are still due; and when all
have had their turn, the first of the queue is not one whose period makes it due again.  Which timer
is the first then does not depend on the loop: it is the one that expires first of the periodic ones
and the first of the others.
-/

namespace CobraOS.Timers

open Base

/-- The loop of `timer_tick`, with the timers whose callbacks it runs. -/
def timerTick : Nat → State → Option (List Nat × State)
  | 0, _ => none
  | fuel + 1, s => do
    let (fired, s) ← timerTickRound s
    match fired with
    | none => some ([], s)
    | some t => (timerTick fuel s).map fun r => (t :: r.1, r.2)

/-- **The loop ends**, and has run the callback of each due timer of the queue once. -/
def TickEnds (s : State) (q : List Nat) : Prop :=
  ∃ fuel fired s', timerTick fuel s = some (fired, s') ∧ fired.Nodup ∧ ∀ t, t ∈ fired ↔ t ∈ q ∧
    due s t = true

/-- When a periodic timer expires that is put back now. -/
def periodEnd (s : State) (a : Nat) : Nat := (s.tick + (s.timers a).period) % 4294967296

/-- When a timer expires after its turn. -/
def expiry (s : State) (a : Nat) : Nat := if due s a then periodEnd s a else (s.timers a).expires

def periodic (s : State) (a : Nat) : Bool := decide ((s.timers a).period ≠ 0)

/-- **The queues that are drained**: `front` are the due timers and `rest` the others. -/
structure Drains (s : State) (front rest : List Nat) : Prop where
  due : ∀ a ∈ front, due s a = true
  waits : ∀ a ∈ rest, Timers.due s a = false
  behind : front.Pairwise fun a b => (s.timers a).period ≠ 0 → (s.timers b).expires ≤ periodEnd s a
  first : ∀ a ∈ (rest.head?.toList ++ front.filter (periodic s)).argmin (expiry s),
    Timers.due s a = true → (s.timers a).period < 2147483648

variable {s s' : State} {q l rest fired : List Nat} {t a b : Nat}

/-! ### Rounds -/

theorem due_congr (he : (s'.timers a).expires = (s.timers a).expires) (ht : s'.tick = s.tick) :
    due s' a = due s a := by
  unfold due
  rw [he, ht]

/-- A timer that is put back is due again when the signed difference is negative. -/
theorem due_periodEnd (he : (s'.timers a).expires = periodEnd s a) (ht : s'.tick = s.tick)
    (hp : (s.timers a).period < 4294967296) (h0 : (s.timers a).period ≠ 0) :
    due s' a = true ↔ 2147483648 ≤ (s.timers a).period := by
  have hleft : wsub (s'.timers a).expires s'.tick = (s.timers a).period := left_set he ht hp
  unfold due wint
  rw [decide_eq_true_iff, hleft]
  split <;> omega

theorem sublist_inserted (s : State) (q : List Nat) (t : Nat) : q.Sublist (inserted s q t) := by
  conv_lhs => rw [← List.takeWhile_append_dropWhile (l := q)
    (p := fun a => decide ((s.timers a).expires ≤ (s.timers t).expires))]
  exact List.Sublist.append_left (List.sublist_cons_self _ _) _

theorem timerTick_idle (hr : timerTickRound s = some (none, s)) (fuel : Nat) :
    timerTick (fuel + 1) s = some ([], s) := by
  rw [timerTick, hr]
  rfl

theorem timerTick_fire {s₁ : State} (hr : timerTickRound s = some (some t, s₁)) (fuel : Nat) :
    timerTick (fuel + 1) s = (timerTick fuel s₁).map fun r => (t :: r.1, r.2) := by
  rw [timerTick, hr]
  rfl

/-- **The callback of a timer is not run before that of one that stands before it.** -/
theorem fired_before : ∀ {fuel : Nat} {s s' : State} {q fired : List Nat}, Good s q →
    timerTick fuel s = some (fired, s') → [a, b].Sublist q → b ∈ fired → a ∈ fired := by
  intro fuel
  induction fuel with
  | zero => exact fun _ h => nomatch h
  | succ fuel ih =>
    intro s s' q fired hg h hab hb
    rcases round_spec hg with ⟨hr, -⟩ | ⟨t, rest, s₁, rfl, -, hr, -, hcase⟩
    · rw [timerTick_idle hr] at h
      cases h
      cases hb
    · rw [timerTick_fire hr] at h
      obtain ⟨⟨fired₁, s₂⟩, hrun, heq⟩ := Option.map_eq_some_iff.mp h
      cases heq
      cases hab with
      | cons_cons _ _ => exact List.mem_cons_self
      | cons _ hab =>
        have hbt : b ≠ t := by
          rintro rfl
          exact (List.nodup_cons.mp hg.nodup).1 (hab.subset (by simp))
        have hb₁ : b ∈ fired₁ := (List.mem_cons.mp hb).resolve_left hbt
        obtain ⟨q₁, hg₁, hsub⟩ : ∃ q₁, Good s₁ q₁ ∧ rest.Sublist q₁ := by
          rcases hcase with ⟨-, hg₁, -⟩ | ⟨-, hg₁, -⟩
          · exact ⟨rest, hg₁, .refl rest⟩
          · exact ⟨_, hg₁, sublist_inserted s₁ rest t⟩
        exact List.mem_cons_of_mem _ (ih hg₁ hrun (hab.trans hsub) hb₁)

/-! ### The first of the queue -/

section

variable {α : Type*} {f g : α → Nat}

theorem argmin_congr {l : List α} (h : ∀ a ∈ l, f a = g a) : l.argmin f = l.argmin g := by
  induction l using List.reverseRecOn with
  | nil => rfl
  | append_singleton l a ih =>
    have hl := ih fun b hb => h b (List.mem_append_left _ hb)
    rw [List.argmin_concat, List.argmin_concat, hl]
    cases hm : l.argmin g with
    | none => rfl
    | some m =>
      have hmem := List.mem_append_left [a] (List.argmin_mem hm)
      simp only [h a (by simp), h m hmem]

/-- The one of two that goes first. -/
def earlier (f : α → Nat) (o : Option α) (a : α) : Option α :=
  match o with
  | none => some a
  | some b => if f a < f b then some a else some b

theorem argmin_earlier (f : α → Nat) (o : Option α) (a : α) (l : List α) :
    (o.toList ++ a :: l).argmin f = ((earlier f o a).toList ++ l).argmin f := by
  cases o with
  | none => rfl
  | some b =>
    by_cases hlt : f a < f b <;> simp [List.argmin, List.argAux, earlier, hlt]

end

theorem inserted_head (s : State) (q : List Nat) (t : Nat) :
    (inserted s q t).head? = earlier (fun a => (s.timers a).expires) q.head? t := by
  unfold inserted earlier
  cases q with
  | nil => rfl
  | cons b q =>
    by_cases hle : (s.timers b).expires ≤ (s.timers t).expires
    · simp [hle, not_lt.mpr hle]
    · simp [hle, not_le.mp hle]

theorem inserted_append {front : List Nat}
    (h : ∀ b ∈ front, (s.timers b).expires ≤ (s.timers t).expires) (rest : List Nat) :
    inserted s (front ++ rest) t = front ++ inserted s rest t := by
  have hall : ∀ b ∈ front, decide ((s.timers b).expires ≤ (s.timers t).expires) = true :=
    fun b hb => decide_eq_true (h b hb)
  unfold inserted
  rw [List.takeWhile_append_of_pos hall, List.dropWhile_append_of_pos hall, List.append_assoc]

theorem inserted_before (hb : b ∈ q) (h : (s.timers t).expires < (s.timers b).expires) :
    [t, b].Sublist (inserted s q t) := by
  have hdrop : b ∈ q.dropWhile (fun a => decide ((s.timers a).expires ≤ (s.timers t).expires)) := by
    rw [← List.takeWhile_append_dropWhile (l := q)
      (p := fun a => decide ((s.timers a).expires ≤ (s.timers t).expires))] at hb
    exact (List.mem_append.mp hb).resolve_left fun htake =>
      absurd h (not_lt.mpr (le_of_mem_front htake))
  refine (List.Sublist.cons_cons t (List.singleton_sublist.mpr hdrop)).trans ?_
  exact List.sublist_append_right _ _

/-! ### The loop -/

/-- The callbacks that are run are those of these timers, each once. -/
def Drained (s : State) (front : List Nat) : Prop :=
  ∃ fuel fired s', timerTick fuel s = some (fired, s') ∧ fired.Perm front

theorem drained_cons {s₁ : State} (hr : timerTickRound s = some (some t, s₁)) (front : List Nat) :
    Drained s (t :: front) ↔ Drained s₁ front := by
  constructor
  · rintro ⟨fuel, fired, s', hrun, hperm⟩
    cases fuel with
    | zero => cases hrun
    | succ fuel =>
      rw [timerTick_fire hr] at hrun
      obtain ⟨⟨fired₁, s₂⟩, hrun₁, heq⟩ := Option.map_eq_some_iff.mp hrun
      cases heq
      exact ⟨fuel, fired₁, _, hrun₁, hperm.cons_inv⟩
  · rintro ⟨fuel, fired, s', hrun, hperm⟩
    exact ⟨fuel + 1, t :: fired, s', by rw [timerTick_fire hr, hrun]; rfl, hperm.cons t⟩

theorem drained_nil (hg : Good s q) : Drained s [] ↔ ∀ a ∈ q.head?, due s a = false := by
  rcases round_spec hg with ⟨hr, hnot⟩ | ⟨t, rest, s₁, rfl, hdue, hr, -⟩
  · exact iff_of_true ⟨1, [], s, timerTick_idle hr 0, .refl _⟩ hnot
  · refine iff_of_false ?_ fun hall => ?_
    · rintro ⟨fuel, fired, s', hrun, hperm⟩
      cases fuel with
      | zero => cases hrun
      | succ fuel =>
        rw [timerTick_fire hr] at hrun
        obtain ⟨r, -, heq⟩ := Option.map_eq_some_iff.mp hrun
        cases heq
        exact absurd hperm.length_eq (by simp)
    · rw [hall t rfl] at hdue
      cases hdue

/-- What the loop needs when it has come to the due timers `front`, with `rest` behind them. -/
def Needs (s : State) (front rest : List Nat) : Prop :=
  (front.Pairwise fun a b => (s.timers a).period ≠ 0 → (s.timers b).expires ≤ periodEnd s a) ∧
    ∀ a ∈ (rest.head?.toList ++ front.filter (periodic s)).argmin (expiry s),
      due s a = true → (s.timers a).period < 2147483648

/-- The timers that are due behind `front` have been put back, with so long a period. -/
def Again (s : State) (rest : List Nat) : Prop :=
  ∀ a ∈ rest, due s a = true → 2147483648 ≤ (s.timers a).period ∧
    (s.timers a).expires = periodEnd s a

theorem expiry_congr (he : (s'.timers a).expires = (s.timers a).expires)
    (hp : (s'.timers a).period = (s.timers a).period) (ht : s'.tick = s.tick) :
    expiry s' a = expiry s a := by
  unfold expiry periodEnd
  rw [due_congr he ht, he, hp, ht]

theorem Needs.once {front : List Nat} (h0 : (s.timers t).period = 0)
    (he : ∀ a, (s'.timers a).expires = (s.timers a).expires) (hx : AllBut s s' t) :
    Needs s (t :: front) rest ↔ Needs s' front rest := by
  have hnot : ¬periodic s t = true := by simp [periodic, h0]
  have hexpiry : expiry s' = expiry s := funext fun a => expiry_congr (he a) (hx.period a) hx.tick
  have hdue : due s' = due s := funext fun a => due_congr (he a) hx.tick
  have hperiodEnd : periodEnd s' = periodEnd s := funext fun a => by
    rw [periodEnd, periodEnd, hx.period, hx.tick]
  have hperiodic : periodic s' = periodic s := funext fun a => by rw [periodic, periodic, hx.period]
  unfold Needs
  rw [List.pairwise_cons, List.filter_cons_of_neg hnot, hexpiry, hdue, hperiodEnd, hperiodic]
  simp only [he, hx.period, h0, ne_eq, not_true_eq_false, false_implies, implies_true, true_and]

theorem Needs.again {front : List Nat} (hg : Good s (t :: (front ++ rest))) (hrest : Again s rest)
    (hdue : due s t = true)
    (h0 : (s.timers t).period ≠ 0) (he : (s'.timers t).expires = periodEnd s t) (hx : AllBut s s' t)
    (hall : ∀ b ∈ front, (s.timers b).expires ≤ periodEnd s t) :
    Needs s (t :: front) rest ↔ Needs s' front (inserted s' rest t) := by
  have hne : ∀ a ∈ front ++ rest, a ≠ t :=
    fun a ha hat => (List.nodup_cons.mp hg.nodup).1 (hat ▸ ha)
  have hperiodic : periodic s' = periodic s := funext fun a => by rw [periodic, periodic, hx.period]
  have hperiodEnd : periodEnd s' = periodEnd s := funext fun a => by
    rw [periodEnd, periodEnd, hx.period, hx.tick]
  have hkeep : periodic s t = true := decide_eq_true h0
  have hexpiry : ∀ a ∈ t :: (front ++ rest), expiry s' a = expiry s a := by
    intro a ha
    by_cases hat : a = t
    · subst hat
      unfold expiry
      rw [hperiodEnd, he, if_pos hdue, ite_self]
    · exact expiry_congr (hx.expires a hat) (hx.period a) hx.tick
  -- The first of the queue is the timer, or the one that was the first behind the due ones.
  have hhead : (inserted s' rest t).head? = earlier (expiry s) rest.head? t := by
    rw [inserted_head]
    cases rest with
    | nil => rfl
    | cons b rest =>
      have hb : (s'.timers b).expires = expiry s b := by
        rw [hx.expires b (hne b (by simp)), expiry]
        split_ifs with hdue'
        · exact (hrest b List.mem_cons_self hdue').2
        · rfl
      have ht : (s'.timers t).expires = expiry s t := by rw [he, expiry, if_pos hdue]
      simp only [List.head?_cons, earlier, hb, ht]
  have hmem : ∀ a ∈ (inserted s' rest t).head?.toList ++ front.filter (periodic s),
      a ∈ t :: (front ++ rest) := by
    intro a ha
    rcases List.mem_append.mp ha with ha | ha
    · have hin := (mem_inserted s' rest t a).mp (List.mem_of_head? (Option.mem_toList.mp ha))
      simp only [List.mem_cons, List.mem_append]
      tauto
    · simp [(List.mem_filter.mp ha).1]
  have hpair :
    (front.Pairwise fun a b => (s'.timers a).period ≠ 0 → (s'.timers b).expires ≤ periodEnd s' a) ↔
      front.Pairwise fun a b => (s.timers a).period ≠ 0 → (s.timers b).expires ≤ periodEnd s a := by
    refine List.Pairwise.iff_of_mem fun {a b} _ hb => ?_
    rw [hperiodEnd, hx.period, hx.expires b (hne b (List.mem_append_left _ hb))]
  unfold Needs
  rw [hpair, hperiodic, argmin_congr (fun a ha => hexpiry a (hmem a ha)), List.pairwise_cons,
    List.filter_cons_of_pos hkeep, argmin_earlier, ← hhead]
  refine and_congr ⟨And.right, fun h => ⟨fun b hb _ => hall b hb, h⟩⟩ (forall₂_congr fun a ha => ?_)
  rw [hx.period]
  by_cases hat : a = t
  · subst hat
    rw [due_periodEnd he hx.tick (hg.period a) h0, hdue]
    exact ⟨fun h _ => h rfl, fun h _ => not_le.mp fun hle => not_lt.mpr hle (h hle)⟩
  · rw [due_congr (hx.expires a hat) hx.tick]

/-- **The loop with due timers in front.** -/
theorem drained_iff : ∀ {front : List Nat} {s : State} {rest : List Nat}, Good s (front ++ rest) →
    (∀ a ∈ front, due s a = true) → Again s rest → (Drained s front ↔ Needs s front rest) := by
  intro front
  induction front with
  | nil =>
    intro s rest hg _ hrest
    rw [drained_nil hg]
    cases rest with
    | nil => simp [Needs]
    | cons a rest =>
      have ha := hrest a List.mem_cons_self
      cases hdue : due s a with
      | false => simp [Needs, hdue]
      | true => simp [Needs, hdue, (ha hdue).1]
  | cons t front ih =>
    intro s rest hg hdue hrest
    have hne : ∀ a ∈ front ++ rest, a ≠ t :=
      fun a ha hat => (List.nodup_cons.mp hg.nodup).1 (hat ▸ ha)
    rcases round_spec hg with ⟨hr, hnot⟩ | ⟨t', rest', s₁, heq, hdue', hr, hx, hcase⟩
    · have hfirst := hdue t List.mem_cons_self
      rw [hnot t rfl] at hfirst
      cases hfirst
    · obtain ⟨rfl, rfl⟩ := List.cons.inj heq
      have hdue₁ : ∀ a ∈ front, due s₁ a = true := fun a ha => by
        rw [due_congr (hx.expires a (hne a (List.mem_append_left _ ha))) hx.tick]
        exact hdue a (List.mem_cons_of_mem _ ha)
      rw [drained_cons hr]
      rcases hcase with ⟨h0, hg₁, he⟩ | ⟨h0, hg₁, he⟩
      · rw [Needs.once h0 he hx]
        refine ih hg₁ hdue₁ fun a ha hdue' => ?_
        rw [due_congr (he a) hx.tick] at hdue'
        rw [hx.period, he, periodEnd, hx.period, hx.tick]
        exact hrest a ha hdue'
      · by_cases hall : ∀ b ∈ front, (s.timers b).expires ≤ periodEnd s t
        · rw [Needs.again hg hrest hdue' h0 he hx hall]
          have hfront : ∀ b ∈ front, (s₁.timers b).expires ≤ (s₁.timers t).expires := fun b hb => by
            rw [hx.expires b (hne b (List.mem_append_left _ hb)), he]
            exact hall b hb
          replace hg₁ : Good s₁ (inserted s₁ (front ++ rest) t) := hg₁
          rw [inserted_append hfront] at hg₁
          refine ih hg₁ hdue₁ fun a ha hdue₂ => ?_
          rw [periodEnd, hx.period, hx.tick]
          by_cases hat : a = t
          · subst hat
            exact ⟨(due_periodEnd he hx.tick (hg.period a) h0).mp hdue₂, he⟩
          · have hin := ((mem_inserted s₁ rest t a).mp ha).resolve_left hat
            rw [due_congr (hx.expires a hat) hx.tick] at hdue₂
            rw [hx.expires a hat]
            exact hrest a hin hdue₂
        · -- The timer goes before one that is still due, so that one does not come before it again.
          obtain ⟨b, hb⟩ := not_forall.mp hall
          obtain ⟨hb, hlt⟩ := Classical.not_imp.mp hb
          have hbt : b ≠ t := hne b (List.mem_append_left _ hb)
          have hsub : [t, b].Sublist (inserted s₁ (front ++ rest) t) := by
            refine inserted_before (List.mem_append_left _ hb) ?_
            rw [he, hx.expires b hbt]
            exact not_le.mp hlt
          refine iff_of_false ?_ fun hneeds => hlt ((List.pairwise_cons.mp hneeds.1).1 b hb h0)
          rintro ⟨fuel, fired, s', hrun, hperm⟩
          have hfired := fired_before hg₁ hrun hsub (hperm.mem_iff.mpr hb)
          exact hne t (List.mem_append_left _ (hperm.mem_iff.mp hfired)) rfl

theorem drains_of_tickEnds (hg : Good s q) :
    TickEnds s q → ∃ front rest, q = front ++ rest ∧ Drains s front rest := by
  rintro ⟨fuel, fired, s', hrun, hnodup, hmem⟩
  have hsplit := List.takeWhile_append_dropWhile (p := due s) (l := q)
  have hfront : ∀ a ∈ q.takeWhile (due s), due s a = true := fun a ha => List.mem_takeWhile_imp ha
  have hrest : ∀ a ∈ q.dropWhile (due s), due s a = false := by
    intro a ha
    have hfirst := List.head?_dropWhile_not (due s) q
    cases hdrop : q.dropWhile (due s) with
    | nil =>
      rw [hdrop] at ha
      cases ha
    | cons x rest =>
      rw [hdrop] at ha hfirst
      replace hfirst : due s x = false := hfirst
      obtain rfl | ha := List.mem_cons.mp ha
      · exact hfirst
      · -- The callback of the first one would be run as well.
        by_contra hdue
        have hsub : [x, a].Sublist q :=
          ((List.singleton_sublist.mpr ha).cons_cons x).trans (hdrop ▸ List.dropWhile_sublist _)
        have hfired :=
          fired_before hg hrun hsub ((hmem a).mpr ⟨hsub.subset (by simp), by simpa using hdue⟩)
        rw [((hmem x).mp hfired).2] at hfirst
        cases hfirst
  refine ⟨_, _, hsplit.symm, ?_⟩
  rw [← hsplit] at hg
  have hperm : fired.Perm (q.takeWhile (due s)) := by
    refine (List.perm_ext_iff_of_nodup hnodup (List.nodup_append.mp hg.nodup).1).mpr fun a => ?_
    rw [hmem a]
    constructor
    · rintro ⟨ha, hdue⟩
      rw [← hsplit] at ha
      refine (List.mem_append.mp ha).resolve_right fun hdrop => ?_
      rw [hrest a hdrop] at hdue
      cases hdue
    · exact fun ha => ⟨(List.takeWhile_sublist _).subset ha, hfront a ha⟩
  have hneeds :=
    (drained_iff hg hfront (fun a ha hdue => by rw [hrest a ha] at hdue; cases hdue)).mp
    ⟨fuel, fired, s', hrun, hperm⟩
  exact ⟨hfront, hrest, hneeds.1, hneeds.2⟩

theorem tickEnds_of_drains (hg : Good s q) :
    (∃ front rest, q = front ++ rest ∧ Drains s front rest) → TickEnds s q := by
  rintro ⟨front, rest, rfl, hdrains⟩
  have hrest : Again s rest := fun a ha hdue => by
    rw [hdrains.waits a ha] at hdue
    cases hdue
  obtain ⟨fuel, fired, s', hrun, hperm⟩ :=
    (drained_iff hg hdrains.due hrest).mpr ⟨hdrains.behind, hdrains.first⟩
  refine ⟨fuel, fired, s', hrun, hperm.nodup_iff.mpr (List.nodup_append.mp hg.nodup).1, fun a => ?_⟩
  rw [hperm.mem_iff, List.mem_append]
  constructor
  · exact fun ha => ⟨.inl ha, hdrains.due a ha⟩
  · rintro ⟨ha | ha, hdue⟩
    · exact ha
    · rw [hdrains.waits a ha] at hdue
      cases hdue

/-- **`timer_tick` ends** after running the callback of each due timer once exactly for the queues
that are drained. -/
theorem tickEnds_iff (hg : Good s q) : TickEnds s q ↔ ∃ front rest, q = front ++ rest ∧
    Drains s front rest :=
  ⟨drains_of_tickEnds hg, tickEnds_of_drains hg⟩

/-! ### A timer of a long period -/

theorem reach_good {m : Machine} (h : system.Reach m) : ∃ q, Good m.st q := by
  refine h.induct (P := fun m => ∃ q, Good m.st q) (fun m hm => ⟨[], (fresh_inOrder hm).1⟩)
    (fun m e m' hg hstep => ?_)
  obtain ⟨q, hg⟩ := hg
  obtain ⟨q', hg', -⟩ := step_does hg hstep
  exact ⟨q', hg'⟩

/-- The timer 1 with a period, set up and added, and the tick in which it expires. -/
def setupAt (period : Nat) : State := timerSetup (boot 0).st 1 none 0 period

def addedAt (period : Nat) : State := (timerAdd (setupAt period) 1 1).get rfl

def tickAt (period : Nat) : State := tickCount (addedAt period)

theorem tickAt_reach {period : Nat} (hp : period < 4294967296) :
    system.Reach ⟨tickAt period, true⟩ ∧ Good (tickAt period) [1] := by
  have h₀ : system.Reach (boot 0) := .init (boot_fresh (by decide))
  have h₁ : system.Reach ⟨setupAt period, false⟩ :=
    h₀.step (e := .setup 1 none 0 period) ⟨by unfold Address; decide, rfl, hp, rfl⟩
  have h₂ : system.Reach ⟨addedAt period, false⟩ :=
    h₁.step (e := .add 1 1) ⟨by unfold Address; decide, by decide, addedAt period, rfl, rfl⟩
  have h₃ : system.Reach ⟨tickAt period, true⟩ := h₂.step (e := .pit) ⟨rfl, rfl⟩
  refine ⟨h₃, ?_⟩
  obtain ⟨q, hg⟩ := reach_good h₃
  have hchain : Chain (links (tickAt period)) (tickAt period).queue [1] := ⟨rfl, rfl⟩
  rwa [hchain.unique hg.queued.chain]

/-- The period 20. -/
def shortTick : State := tickAt 20

/-- The timer is due and is put back behind the tick. -/
theorem tickEnds_iff_shortTick : Good shortTick [1] ∧ due shortTick 1 = true ∧
    TickEnds shortTick [1] := by
  have hgood : Good shortTick [1] := (tickAt_reach (by decide)).2
  refine ⟨hgood, rfl, (tickEnds_iff hgood).mpr ⟨[1], [], rfl, ?_, ?_, ?_, ?_⟩⟩
  · rintro a ha
    rw [List.mem_singleton.mp ha]
    rfl
  · exact fun a ha => absurd ha List.not_mem_nil
  · exact List.pairwise_singleton _ _
  · rintro a ha -
    rw [show a = 1 from Option.some.inj ha.symm]
    decide

/-- The period 2 ^ 31. -/
def longTick : State := tickAt 2147483648

theorem longTick_reach : system.Reach ⟨longTick, true⟩ ∧ Good longTick [1] :=
  tickAt_reach (by decide)

/-- **A loop without an end**: the timer is due again as soon as it is put back. -/
theorem tick_endless : system.Reach ⟨longTick, true⟩ ∧ Good longTick [1] ∧
    ¬TickEnds longTick [1] := by
  refine ⟨longTick_reach.1, longTick_reach.2, fun h => ?_⟩
  obtain ⟨front, rest, hq, hdrains⟩ := drains_of_tickEnds longTick_reach.2 h
  have hdue : due longTick 1 = true := rfl
  cases front with
  | nil =>
    rw [List.nil_append] at hq
    have hnot := hdrains.waits 1 (hq ▸ List.mem_singleton_self 1)
    rw [hdue] at hnot
    cases hnot
  | cons a front =>
    obtain ⟨rfl, hnil⟩ := List.cons.inj hq
    obtain ⟨rfl, rfl⟩ := List.append_eq_nil_iff.mp hnil.symm
    exact absurd (hdrains.first 1 rfl hdue) (by decide)

end CobraOS.Timers
