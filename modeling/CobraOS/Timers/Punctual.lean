import CobraOS.Timers.Ops

/-!
# When timers are punctual

`timer_tick` looks at the first timer of the queue only, so every timer fires in time if the queue
is in the order of `left`.  But `queue_insert` goes by the words `expires`, and the two orders
differ when the tick count is about to wrap: an expiry beyond the wrap is a small word.

`NoStraddle s t e` says that inserting `t` with the expiry `e` is not misled by the wrap.  In runs
whose insertions all meet it the queue stays in order (`punctual_step`), and a one-shot timer fires
exactly once, in the tick it was added for (`punctual`).  `late_timer` is a run in which it does
not.
-/

namespace CobraOS.Timers

open Base

/-- **The expiry `e` and those in the queue are not told apart wrongly**: beyond the wrap it is only
inserted into a queue that is all beyond the wrap, and before the wrap only when a timer before the
wrap is later, or none is beyond the wrap. -/
def NoStraddle (s : State) (t e : Nat) : Prop :=
  (e < s.tick → ∀ a, (s.timers a).active = true → a ≠ t → (s.timers a).expires < s.tick) ∧
    (s.tick ≤ e → (∃ a, (s.timers a).active = true ∧ a ≠ t ∧ e < (s.timers a).expires) ∨
      ∀ a, (s.timers a).active = true → a ≠ t → s.tick ≤ (s.timers a).expires)

/-- The delays that the timers are meant for. -/
def Delays : Event → Prop
  | .add _ delayTicks => 0 < delayTicks ∧ delayTicks < 2147483648
  | _ => True

/-- No insertion straddles the wrap, and periods are below `2 ^ 31`. -/
def Fits (m : Machine) : Event → Prop
  | .setup _ _ _ period => period < 2147483648
  | .add t delayTicks => NoStraddle m.st t ((m.st.tick + delayTicks) % 4294967296)
  | .fire t => (m.st.timers t).period ≠ 0 →
      NoStraddle m.st t ((m.st.tick + (m.st.timers t).period) % 4294967296)
  | _ => True

/-- The runs whose steps all fit. -/
def fitting : System Machine Event := system.restrict (fun m e => Delays e ∧ Fits m e)

/-- The queue is in the order in which its timers expire, and nothing is overdue. -/
structure InOrder (m : Machine) (q : List Nat) : Prop where
  soon : ∀ a ∈ q, left m.st a < 2147483648
  sorted : q.Pairwise (fun a b => left m.st a ≤ left m.st b)
  ahead : m.ticking = false → ∀ a ∈ q, 0 < left m.st a
  period : ∀ a, (m.st.timers a).period < 2147483648

section

variable {s s' : State} {q : List Nat} {t : Nat}

/-! ### Inserting in order -/

theorem left_of_le {a : Nat} (h : s.tick ≤ (s.timers a).expires)
    (he : (s.timers a).expires < 4294967296) : left s a = (s.timers a).expires - s.tick :=
  wsub_of_le h he

theorem left_of_lt {a : Nat} (h : (s.timers a).expires < s.tick) (ht : s.tick < 4294967296) :
    left s a = (s.timers a).expires + 4294967296 - s.tick := by
  unfold left wsub
  omega

theorem pairwise_insert {α : Type} {R : α → α → Prop} {p : α → Bool} {q : List α} {t : α}
    (hq : q.Pairwise R) (hpre : ∀ a ∈ q.takeWhile p, R a t) (hpost : ∀ a ∈ q.dropWhile p, R t a) :
    (q.takeWhile p ++ t :: q.dropWhile p).Pairwise R := by
  have hsplit := List.takeWhile_append_dropWhile (p := p) (l := q)
  rw [← hsplit, List.pairwise_append] at hq
  refine List.pairwise_append.mpr ⟨hq.1, List.pairwise_cons.mpr ⟨hpost, hq.2.1⟩, ?_⟩
  intro a ha b hb
  rcases List.mem_cons.mp hb with rfl | hb
  · exact hpre a ha
  · exact hq.2.2 a ha b hb

/-- `NoStraddle` for the timers of a list. -/
def Clear (s : State) (q : List Nat) (e : Nat) : Prop :=
  (e < s.tick → ∀ a ∈ q, (s.timers a).expires < s.tick) ∧
    (s.tick ≤ e → (∃ a ∈ q, e < (s.timers a).expires) ∨ ∀ a ∈ q, s.tick ≤ (s.timers a).expires)

theorem NoStraddle.clear {e : Nat} (h : NoStraddle s t e)
    (hq : ∀ a, (s.timers a).active = true ∧ a ≠ t ↔ a ∈ q) : Clear s q e := by
  refine ⟨fun hlt a ha => ?_, fun hle => ?_⟩
  · obtain ⟨h1, h2⟩ := (hq a).mpr ha
    exact h.1 hlt a h1 h2
  · rcases h.2 hle with ⟨a, h1, h2, h3⟩ | hall
    · exact Or.inl ⟨a, (hq a).mp ⟨h1, h2⟩, h3⟩
    · exact Or.inr (fun a ha => hall a ((hq a).mpr ha).1 ((hq a).mpr ha).2)

theorem Clear.congr {e : Nat} (h : Clear s q e) (htick : s'.tick = s.tick)
    (hexp : ∀ a ∈ q, (s'.timers a).expires = (s.timers a).expires) : Clear s' q e := by
  unfold Clear
  rw [htick]
  refine ⟨fun hlt a ha => ?_, fun hle => ?_⟩
  · rw [hexp a ha]
    exact h.1 hlt a ha
  · rcases h.2 hle with ⟨a, ha, h3⟩ | hall
    · exact Or.inl ⟨a, ha, by rwa [hexp a ha]⟩
    · exact Or.inr (fun a ha => by rw [hexp a ha]; exact hall a ha)

/-- **`queue_insert` keeps the order** when the new expiry does not straddle the wrap. -/
theorem inserted_sorted (hsorted : q.Pairwise (fun a b => left s a ≤ left s b))
    (hexp : ∀ a ∈ q, (s.timers a).expires < 4294967296) (htick : s.tick < 4294967296)
    (helt : (s.timers t).expires < 4294967296) (hc : Clear s q (s.timers t).expires) :
    (inserted s q t).Pairwise (fun a b => left s a ≤ left s b) := by
  have hsplit := List.takeWhile_append_dropWhile (l := q)
    (p := fun a => decide ((s.timers a).expires ≤ (s.timers t).expires))
  refine pairwise_insert hsorted (fun a ha => ?_) (fun a ha => ?_)
  · have haq : a ∈ q := (List.takeWhile_sublist _).subset ha
    have h1 := le_of_mem_front ha
    have h2 := hexp a haq
    by_cases hw : (s.timers t).expires < s.tick
    · rw [left_of_lt hw htick, left_of_lt (hc.1 hw a haq) htick]
      omega
    · rw [left_of_le (Nat.le_of_not_lt hw) helt]
      have hup : s.tick ≤ (s.timers a).expires := by
        rcases hc.2 (Nat.le_of_not_lt hw) with ⟨b, hb, hlt⟩ | hall
        · -- `a` is before a timer that expires later and before the wrap
          have hle : left s a ≤ left s b := by
            rw [← hsplit] at hb hsorted
            refine (List.pairwise_append.mp hsorted).2.2 a ha b
              ((List.mem_append.mp hb).resolve_left fun hb => ?_)
            exact absurd (le_of_mem_front hb) (not_le.mpr hlt)
          rw [left_of_le (a := b) (by omega) (hexp b hb)] at hle
          have := hexp b hb
          by_contra hcon
          rw [left_of_lt (a := a) (by omega) htick] at hle
          omega
        · exact hall a haq
      rw [left_of_le hup h2]
      omega
  · obtain ⟨b, hbq, hlt, hba⟩ := first_behind hsorted ha
    have hb2 := hexp b hbq
    have hba : left s b ≤ left s a := by
      rcases hba with rfl | hba
      · exact le_rfl
      · exact hba
    refine le_trans ?_ hba
    by_cases hw : (s.timers t).expires < s.tick
    · rw [left_of_lt hw htick, left_of_lt (hc.1 hw b hbq) htick]
      omega
    · rw [left_of_le (Nat.le_of_not_lt hw) helt, left_of_le (by omega) hb2]
      omega

theorem left_congr {a : Nat} (he : (s'.timers a).expires = (s.timers a).expires)
    (ht : s'.tick = s.tick) :
    left s' a = left s a := by
  unfold left
  rw [he, ht]

theorem AllBut.left (h : AllBut s s' t) {a : Nat} (ha : a ≠ t) : left s' a = left s a :=
  left_congr (h.expires a ha) h.tick

theorem InOrder.insert {m n : Machine} {d : Nat}
    (hexp : ∀ a ∈ q, (m.st.timers a).expires < 4294967296) (htk : m.st.tick < 4294967296)
    (ht : t ∉ q) (ho : InOrder m q) (hx : AllBut m.st n.st t)
    (he : (n.st.timers t).expires = (m.st.tick + d) % 4294967296) (hd0 : 0 < d)
    (hd : d < 2147483648) (hc : Clear m.st q (n.st.timers t).expires)
    (htick : n.ticking = m.ticking) :
    InOrder n (inserted n.st q t) := by
  have hne : ∀ a ∈ q, a ≠ t := fun a ha he => ht (he ▸ ha)
  have hl : ∀ a ∈ q, left n.st a = left m.st a := fun a ha => hx.left (hne a ha)
  have hlt : left n.st t = d := left_set he hx.tick (by omega)
  refine ⟨fun a ha => ?_, ?_, fun hidle a ha => ?_, fun a => ?_⟩
  · rcases (mem_inserted _ _ _ _).mp ha with rfl | ha
    · rw [hlt]
      exact hd
    · rw [hl a ha]
      exact ho.soon a ha
  · refine inserted_sorted ?_ (fun a ha => ?_) ?_ ?_
      (hc.congr hx.tick fun a ha => hx.expires a (hne a ha))
    · refine ho.sorted.imp_of_mem (fun {a b} ha hb hab => ?_)
      rw [hl a ha, hl b hb]
      exact hab
    · rw [hx.expires a (hne a ha)]
      exact hexp a ha
    · rw [hx.tick]
      exact htk
    · rw [he]
      exact Nat.mod_lt _ (by decide)
  · rcases (mem_inserted _ _ _ _).mp ha with rfl | ha
    · rw [hlt]
      exact hd0
    · rw [hl a ha]
      exact ho.ahead (htick ▸ hidle) a ha
  · rw [hx.period]
    exact ho.period a

/-- What a step means for a timer that it is not a call for. -/
structure Tracks (m : Machine) (q : List Nat) (e : Event) (n : Machine) (q' : List Nat) (t : Nat) :
    Prop where
  out : t ∉ q → t ∉ q' ∧ e ≠ .fire t
  fire : t ∈ q → (m.st.timers t).period = 0 → e = .fire t → left m.st t = 0 ∧ t ∉ q'
  pit : t ∈ q → e = .pit → t ∈ q' ∧ left m.st t = left n.st t + 1
  other : t ∈ q → e ≠ .fire t → e ≠ .pit → t ∈ q' ∧ left n.st t = left m.st t
  period : (n.st.timers t).period = (m.st.timers t).period

theorem InOrder.sublist {m m' : Machine} {q' : List Nat} (ho : InOrder m q) (hsub : q'.Sublist q)
    (hl : ∀ a ∈ q', left m'.st a = left m.st a) (hp : ∀ a, (m'.st.timers a).period < 2147483648)
    (htick : m'.ticking = false → m.ticking = false) : InOrder m' q' where
  soon a ha := by
    rw [hl a ha]
    exact ho.soon a (hsub.subset ha)
  sorted := by
    refine (ho.sorted.sublist hsub).imp_of_mem (fun {a b} ha hb hab => ?_)
    rw [hl a ha, hl b hb]
    exact hab
  ahead hidle a ha := by
    rw [hl a ha]
    exact ho.ahead (htick hidle) a (hsub.subset ha)
  period := hp

theorem Good.erase_iff (hg : Good s q) (t a : Nat) :
    (s.timers a).active = true ∧ a ≠ t ↔ a ∈ q.erase t := by
  rw [hg.active, hg.nodup.mem_erase_iff, and_comm]

/-! ### One step -/

variable {m m' : Machine}

theorem pit_step (hg : Good m.st q) (ho : InOrder m q) (hidle : m.ticking = false) :
    InOrder ⟨tickCount m.st, true⟩ q ∧ ∀ a ∈ q, left m.st a = left (tickCount m.st) a + 1 := by
  have hleft : ∀ a ∈ q, left m.st a = left (tickCount m.st) a + 1 := by
    intro a ha
    have hpos := ho.ahead hidle a ha
    have hexp := hg.expires a ha
    have htick := hg.tick
    unfold left wsub tickCount at *
    simp only
    omega
  refine ⟨⟨fun a ha => ?_, ?_, (fun h => by cases h), ho.period⟩, hleft⟩
  · have h1 := ho.soon a ha
    have h2 := hleft a ha
    show left (tickCount m.st) a < _
    omega
  · refine ho.sorted.imp_of_mem (fun {a b} ha hb hab => ?_)
    have h1 := hleft a ha
    have h2 := hleft b hb
    show left (tickCount m.st) a ≤ left (tickCount m.st) b
    omega

theorem done_step (ho : InOrder m q) (hd : ∀ t ∈ q.head?, due m.st t = false) :
    InOrder ⟨m.st, false⟩ q := by
  refine ⟨ho.soon, ho.sorted, fun _ a ha => ?_, ho.period⟩
  cases q with
  | nil => exact absurd ha List.not_mem_nil
  | cons b rest =>
    have hb : 0 < left m.st b := by
      by_contra h0
      have hdue := (due_iff (ho.soon b List.mem_cons_self)).mpr (by omega)
      rw [hd b rfl] at hdue
      exact absurd hdue (by decide)
    show 0 < left m.st a
    rcases List.mem_cons.mp ha with rfl | ha
    · exact hb
    · exact lt_of_lt_of_le hb ((List.pairwise_cons.mp ho.sorted).1 a ha)

theorem Does.inOrder {e : Event} {q' : List Nat} (h : Does m q e m' q') (hg : Good m.st q)
    (ho : InOrder m q) (hdelay : Delays e) (hfit : Fits m e) : InOrder m' q' := by
  cases h with
  | pit hidle => exact (pit_step hg ho hidle).1
  | once _ hq _ hx _ hexp =>
    subst hq
    exact ho.sublist (List.sublist_cons_self _ _) (fun b _ => left_congr (hexp b) hx.tick)
      (fun b => by rw [hx.period]; exact ho.period b) (by simp)
  | @again t rest s' hticking hq _ hx hp hexp =>
    subst hq
    have hns := hfit hp
    rw [← hexp] at hns
    have hclear : Clear m.st rest (s'.timers t).expires := by
      refine hns.clear (fun b => ?_)
      rw [hg.erase_iff, List.erase_cons_head]
    have hrest : InOrder m rest :=
      ho.sublist (List.sublist_cons_self t rest) (fun _ _ => rfl) ho.period id
    exact hrest.insert (fun b hb => hg.expires b (List.mem_cons_of_mem _ hb)) hg.tick
      (List.nodup_cons.mp hg.nodup).1 hx hexp (Nat.pos_of_ne_zero hp) (ho.period t) hclear
        hticking.symm
  | done _ hnot => exact done_step ho hnot
  | @setup t arg period fn hnot _ hsame =>
    refine ho.sublist (.refl q) (fun b hb => left_congr ?_ rfl) (fun b => ?_) id
    · exact congrArg Timer.expires (hsame b fun hbt => hnot (hbt ▸ hb))
    · by_cases hb : b = t
      · subst hb
        exact lt_of_eq_of_lt (congrArg Timer.period (set_same m.st b _)) hfit
      · exact lt_of_eq_of_lt (congrArg Timer.period (hsame b hb)) (ho.period b)
  | @add t d s' hx hexp =>
    obtain ⟨hd0, hd1⟩ := hdelay
    rw [if_neg hd0.ne'] at hexp
    have hns : NoStraddle m.st t ((m.st.tick + d) % 4294967296) := hfit
    rw [← hexp] at hns
    have hrest := ho.sublist (List.erase_sublist (a := t)) (fun _ _ => rfl) ho.period id
    exact hrest.insert (fun b hb => hg.expires b (List.mem_of_mem_erase hb)) hg.tick
      hg.nodup.not_mem_erase
      hx hexp hd0 hd1 (hns.clear (hg.erase_iff t)) rfl
  | cancel hx hexp =>
    exact ho.sublist List.erase_sublist (fun b _ => left_congr (hexp b) hx.tick)
      (fun b => by rw [hx.period]; exact ho.period b) id

theorem Does.tracks {e : Event} {q' : List Nat} {t : Nat} (h : Does m q e m' q') (hg : Good m.st q)
    (ho : InOrder m q) (ht : ¬ Touches t e) : Tracks m q e m' q' t where
  out hout := by
    refine ⟨h.out ht hout, ?_⟩
    rintro rfl
    obtain ⟨rest, hq, -⟩ := h.called
    exact hout (hq ▸ List.mem_cons_self)
  fire hmem h0 he := by
    subst he
    obtain ⟨rest, -, hdue⟩ := h.called
    exact ⟨(due_iff (ho.soon t hmem)).mp hdue, h.gone hg h0⟩
  pit hmem he := by
    subst he
    cases h with
    | pit hidle => exact ⟨hmem, (pit_step hg ho hidle).2 t hmem⟩
  other hmem hfire hpit := by
    obtain ⟨hmem', -, hexp⟩ := h.leaves hmem (fun hmoved => ht hmoved.touches) hfire
    have htick := h.tick hg
    rw [if_neg hpit, Nat.add_zero, Nat.mod_eq_of_lt hg.tick] at htick
    exact ⟨hmem', left_congr hexp htick⟩
  period := h.period ht

/-- **The step lemma**: a step of a fitting run keeps the queue in order, and brings every timer
that it is not a call for one tick nearer if it is a tick. -/
theorem punctual_step (hg : Good m.st q) (ho : InOrder m q) {e : Event} (h : fitting.step m e m') :
    ∃ q', Good m'.st q' ∧ InOrder m' q' ∧ ∀ t, ¬ Touches t e → Tracks m q e m' q' t := by
  obtain ⟨⟨hdelay, hfit⟩, hstep⟩ := h
  obtain ⟨q', hg', hdoes⟩ := step_does hg hstep
  exact ⟨q', hg', hdoes.inOrder hg ho hdelay hfit, fun t ht => hdoes.tracks hg ho ht⟩

/-! ### Runs -/

theorem fresh_inOrder (h : Fresh m) : Good m.st [] ∧ InOrder m [] := by
  obtain ⟨hqueue, hset, htick, -⟩ := h
  refine ⟨⟨⟨hqueue, by simp⟩, fun a => ?_, by simp, fun a => ?_, htick⟩, by simp, List.Pairwise.nil,
    by simp, fun a => ?_⟩
  · rw [(hset a).1]
    simp
  · rw [(hset a).2]
    decide
  · rw [(hset a).2]
    decide

theorem reach_inOrder (h : fitting.Reach m) : ∃ q, Good m.st q ∧ InOrder m q := by
  refine h.induct (P := fun m => ∃ q, Good m.st q ∧ InOrder m q)
    (fun m hm => ⟨[], fresh_inOrder hm⟩) ?_
  rintro m e m' ⟨q, hg, ho⟩ hstep
  obtain ⟨q', hg', ho', -⟩ := punctual_step hg ho hstep
  exact ⟨q', hg', ho'⟩

theorem ticks_cons (e : Event) (l : List Event) :
    ticks (e :: l) = (if e = .pit then 1 else 0) + ticks l := by
  unfold ticks
  rw [List.count_cons, Nat.add_comm]
  simp only [beq_iff_eq]

/-- A timer that is not in the queue does not fire until it is added. -/
theorem not_fired {l : List Event} (h : fitting.Run m l m') : ∀ {q : List Nat}, Good m.st q →
    InOrder m q → t ∉ q → (∀ e ∈ l, ¬ Touches t e) → .fire t ∉ l := by
  induction h with
  | nil _ => intro q _ _ _ _; exact List.not_mem_nil
  | cons hstep _ ih =>
    intro q hg ho ht hl
    obtain ⟨q', hg', ho', htr⟩ := punctual_step hg ho hstep
    obtain ⟨ht', hne⟩ := (htr t (hl _ List.mem_cons_self)).out ht
    intro hmem
    rcases List.mem_cons.mp hmem with heq | hmem
    · exact hne heq.symm
    · exact ih hg' ho' ht' (fun e he => hl e (List.mem_cons_of_mem _ he)) hmem

/-- **The run lemma**: a one-shot timer of the queue fires after as many ticks as it has left, and
not again; and it has fired when that tick is over. -/
theorem fires_once {l : List Event} (h : fitting.Run m l m') : ∀ {q : List Nat}, Good m.st q →
    InOrder m q → t ∈ q → (m.st.timers t).period = 0 → (∀ e ∈ l, ¬ Touches t e) →
    (∀ pre post, l = pre ++ .fire t :: post → ticks pre = left m.st t ∧ .fire t ∉ post) ∧
      (left m.st t < ticks l ∨ left m.st t = ticks l ∧ m'.ticking = false → .fire t ∈ l) := by
  induction h with
  | nil m =>
    intro q hg ho ht _ _
    refine ⟨by simp, ?_⟩
    rintro (hlt | ⟨heq, hidle⟩)
    · exact absurd hlt (Nat.not_lt_zero _)
    · have hzero : left m.st t = 0 := heq
      have := ho.ahead hidle t ht
      omega
  | @cons m m1 m2 e l hstep hrun ih =>
    intro q hg ho ht hp hl
    have hl' : ∀ e ∈ l, ¬ Touches t e := fun e he => hl e (List.mem_cons_of_mem _ he)
    obtain ⟨q', hg', ho', htr⟩ := punctual_step hg ho hstep
    have htr := htr t (hl e List.mem_cons_self)
    rw [ticks_cons]
    by_cases hfire : e = .fire t
    · subst hfire
      obtain ⟨hzero, hout⟩ := htr.fire ht hp rfl
      have hnot := not_fired hrun hg' ho' hout hl'
      refine ⟨fun pre post heq => ?_, fun _ => List.mem_cons_self⟩
      cases pre with
      | nil =>
        obtain ⟨-, rfl⟩ := List.cons.inj heq
        exact ⟨hzero.symm, hnot⟩
      | cons a pre =>
        obtain ⟨-, rfl⟩ := List.cons.inj heq
        exact absurd (by simp) hnot
    · -- one tick nearer, or as far away as before
      have hnext : t ∈ q' ∧ left m.st t = left m1.st t + (if e = .pit then 1 else 0) := by
        by_cases hpit : e = .pit
        · rw [if_pos hpit]
          exact htr.pit ht hpit
        · obtain ⟨h1, h2⟩ := htr.other ht hfire hpit
          rw [if_neg hpit]
          exact ⟨h1, by omega⟩
      obtain ⟨ih1, ih2⟩ := ih hg' ho' hnext.1 (htr.period.trans hp) hl'
      refine ⟨fun pre post heq => ?_, fun h => List.mem_cons_of_mem _ (ih2 ?_)⟩
      · cases pre with
        | nil => exact absurd (List.cons.inj heq).1 hfire
        | cons a pre =>
          obtain ⟨rfl, hrest⟩ := List.cons.inj heq
          obtain ⟨g1, g2⟩ := ih1 pre post hrest
          refine ⟨?_, g2⟩
          rw [ticks_cons, g1, hnext.2, Nat.add_comm]
      · rcases h with h | ⟨h, hidle⟩
        · exact Or.inl (by omega)
        · exact Or.inr ⟨by omega, hidle⟩

/-- **A tick ends**: with every round one timer fewer is due, when no period is `2 ^ 31` or more. -/
theorem tick_ends : ∀ (n : Nat) {m : Machine} {q : List Nat}, Good m.st q →
    (∀ a, (m.st.timers a).period < 2147483648) → m.ticking = true → q.countP (due m.st) = n →
    ∃ l m', system.Run m l m' ∧ m'.ticking = false ∧ ∀ e ∈ l, e = .done ∨ ∃ t, e = .fire t := by
  intro n
  induction n with
  | zero =>
    intro m q hg hp ht hn
    rcases round_spec hg with ⟨hr, -⟩ | ⟨a, rest, s', rfl, hdue, -⟩
    · exact ⟨[.done], ⟨m.st, false⟩, .cons ⟨ht, m.st, hr, rfl⟩ (.nil _), rfl, by simp⟩
    · rw [List.countP_cons_of_pos hdue] at hn
      omega
  | succ n ih =>
    intro m q hg hp ht hn
    rcases round_spec hg with ⟨hr, -⟩ | ⟨a, rest, s', rfl, hdue, hr, hx, hcase⟩
    · exact ⟨[.done], ⟨m.st, false⟩, .cons ⟨ht, m.st, hr, rfl⟩ (.nil _), rfl, by simp⟩
    · rw [List.countP_cons_of_pos hdue] at hn
      have hnd := List.nodup_cons.mp hg.nodup
      have hp' : ∀ b, (s'.timers b).period < 2147483648 := by
        intro b
        rw [hx.period]
        exact hp b
      have hsame : rest.countP (due s') = rest.countP (due m.st) := by
        refine List.countP_congr (fun b hb => ?_)
        have hba : b ≠ a := fun he => hnd.1 (he ▸ hb)
        unfold due
        rw [hx.expires b hba, hx.tick]
      have hnext : ∃ q', Good s' q' ∧ q'.countP (due s') = n := by
        rcases hcase with ⟨-, hg', -⟩ | ⟨hper, hg', hexp⟩
        · exact ⟨rest, hg', by omega⟩
        · have hleft := left_set hexp hx.tick (hg.period a)
          have hnot : ¬ due s' a = true := by
            have := hp a
            rw [due_iff (by omega), hleft]
            exact hper
          refine ⟨_, hg', ?_⟩
          rw [(inserted_perm s' rest a).countP_eq, List.countP_cons_of_neg hnot]
          omega
      obtain ⟨q', hg', hn'⟩ := hnext
      obtain ⟨l, m', hrun, hidle, hl⟩ := ih (m := ⟨s', true⟩) hg' hp' rfl hn'
      refine ⟨.fire a :: l, m', .cons ⟨ht, s', hr, rfl⟩ hrun, hidle, fun e he => ?_⟩
      rcases List.mem_cons.mp he with rfl | he
      · exact Or.inr ⟨a, rfl⟩
      · exact hl e he

/-- **Timers are punctual in every fitting run**: a one-shot timer that is added for `d` ticks and
then left alone fires exactly once, in the `d`-th tick; and every tick ends. -/
theorem punctual {m1 m2 : Machine} {d : Nat} {l : List Event} (hm : fitting.Reach m)
    (hadd : fitting.step m (.add t d) m1) (hone : (m.st.timers t).period = 0)
    (hrun : fitting.Run m1 l m2) (hl : ∀ e ∈ l, ¬ Touches t e) :
    (∀ pre post, l = pre ++ .fire t :: post → ticks pre = d ∧ .fire t ∉ post) ∧
      (d < ticks l ∨ d = ticks l ∧ m2.ticking = false → .fire t ∈ l) ∧
      (m2.ticking = true → ∃ l' m3, system.Run m2 l' m3 ∧ m3.ticking = false ∧
        ∀ e ∈ l', e = .done ∨ ∃ a, e = .fire a) := by
  obtain ⟨q, hg, ho⟩ := reach_inOrder hm
  obtain ⟨q1, hg1, ho1, -⟩ := punctual_step hg ho hadd
  obtain ⟨⟨⟨hd0, hd1⟩, -⟩, haddr, hd, s1, hr, rfl⟩ := hadd
  obtain ⟨s1', hr', hgi, hx, hexp⟩ := add_spec hg haddr d
  rw [hr'] at hr
  cases hr
  rw [if_neg (by omega)] at hexp
  have hleft := left_set hexp hx.tick hd
  have htq : t ∈ q1 :=
    (hg1.active t).mp ((hgi.active t).mpr ((mem_inserted _ _ _ _).mpr (Or.inl rfl)))
  have hone' : (s1.timers t).period = 0 := (hx.period t).trans hone
  obtain ⟨h1, h2⟩ := fires_once hrun hg1 ho1 htq hone' hl
  rw [hleft] at h1 h2
  refine ⟨h1, h2, fun hticking => ?_⟩
  obtain ⟨q2, hg2, ho2⟩ : ∃ q2, Good m2.st q2 ∧ InOrder m2 q2 := by
    refine hrun.induct (P := fun m => ∃ q, Good m.st q ∧ InOrder m q) ?_ ⟨q1, hg1, ho1⟩
    rintro m e m' ⟨q, hg, ho⟩ hstep
    obtain ⟨q', hg', ho', -⟩ := punctual_step hg ho hstep
    exact ⟨q', hg', ho'⟩
  exact tick_ends _ hg2 ho2.period hticking rfl

end

/-! ### Two runs at the wrap -/

/-- No timer is set up, and the tick count is `n`. -/
def boot (n : Nat) : Machine := ⟨⟨fun _ => ⟨0, 0, none, 0, false, none⟩, none, n⟩, false⟩

theorem boot_fresh {n : Nat} (h : n < 4294967296) : Fresh (boot n) :=
  ⟨rfl, fun _ => ⟨rfl, rfl⟩, h, rfl⟩

/-- One timer that expires at the wrap, and the state after it has fired. -/
def wrapAdded : State := (timerAdd (boot 4294967295).st 1 1).get rfl

def wrapFired : State := ((timerTickRound (tickCount wrapAdded)).get rfl).2

theorem punctual_wrap : ∃ m1 m2, fitting.Reach (boot 4294967295) ∧
    fitting.step (boot 4294967295) (.add 1 1) m1 ∧ fitting.Run m1 [.pit, .fire 1, .done] m2 ∧
    ∀ pre post, [Event.pit, .fire 1, .done] = pre ++ .fire 1 :: post →
      ticks pre = 1 ∧ .fire 1 ∉ post := by
  have h0 : fitting.Reach (boot 4294967295) := .init (boot_fresh (by decide))
  have hclear : NoStraddle (boot 4294967295).st 1 ((4294967295 + 1) % 4294967296) :=
    ⟨fun _ a ha => absurd ha Bool.false_ne_true,
      fun _ => Or.inr (fun a ha => absurd ha Bool.false_ne_true)⟩
  have hadd : fitting.step (boot 4294967295) (.add 1 1) ⟨wrapAdded, false⟩ :=
    ⟨⟨⟨by decide, by decide⟩, hclear⟩, by unfold Address; decide, by decide, wrapAdded, rfl, rfl⟩
  have hrun : fitting.Run ⟨wrapAdded, false⟩ [.pit, .fire 1, .done] ⟨wrapFired, false⟩ :=
    .cons ⟨⟨trivial, trivial⟩, rfl, rfl⟩ (.cons
      (show fitting.step _ (.fire 1) ⟨wrapFired, true⟩ from
        ⟨⟨trivial, fun h => absurd rfl h⟩, rfl, wrapFired, rfl, rfl⟩)
      (.cons ⟨⟨trivial, trivial⟩, rfl, wrapFired, rfl, rfl⟩ (.nil _)))
  exact ⟨⟨wrapAdded, false⟩, ⟨wrapFired, false⟩, h0, hadd, hrun,
    (punctual h0 hadd rfl hrun (by simp [Touches])).1⟩

/-- **A timer that is late**: the first timer expires beyond the wrap, in three ticks, and the
second before it, in one tick; but the second is put behind the first, and does not fire in that
tick. -/
theorem late_timer : ∃ m m1 m2 t d l, (system.restrict (fun _ e => Delays e)).Reach m ∧
    (system.restrict (fun _ e => Delays e)).step m (.add t d) m1 ∧ (m.st.timers t).period = 0 ∧
    (system.restrict (fun _ e => Delays e)).Run m1 l m2 ∧ (∀ e ∈ l, ¬ Touches t e) ∧
    ticks l = d ∧ m2.ticking = false ∧ .fire t ∉ l := by
  let s1 := (timerAdd (boot 4294967294).st 1 3).get rfl
  let s2 := (timerAdd s1 2 1).get rfl
  have h0 : (system.restrict (fun _ e => Delays e)).Reach (boot 4294967294) :=
    .init (boot_fresh (by decide))
  have h1 : (system.restrict (fun _ e => Delays e)).Reach ⟨s1, false⟩ :=
    h0.step (e := Event.add 1 3)
      ⟨⟨by decide, by decide⟩, by unfold Address; decide, by decide, s1, rfl, rfl⟩
  refine ⟨⟨s1, false⟩, ⟨s2, false⟩, ⟨tickCount s2, false⟩, 2, 1, [.pit, .done], h1,
    ⟨⟨by decide, by decide⟩, by unfold Address; decide, by decide, s2, rfl, rfl⟩, rfl, ?_,
    by simp [Touches], rfl, rfl, by simp⟩
  exact .cons ⟨trivial, rfl, rfl⟩ (.cons ⟨trivial, rfl, tickCount s2, rfl, rfl⟩ (.nil _))

end CobraOS.Timers
