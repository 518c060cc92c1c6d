import CobraOS.Timers.Model

/-!
# The timer queue as a list

`Queued s q` says that the queue of `s` is the list `q`, and that the timers of `q` are the active
ones.  The specifications say what each function does to that list and which fields it writes; no
later proof unfolds the functions or looks at a `next` field.
-/

namespace CobraOS.Timers

open Base

/-- The queue is `q`. -/
structure Queued (s : State) (q : List Nat) : Prop where
  chain : Chain (links s) s.queue q
  address : ∀ a ∈ q, Address a

/-- Everything but the queue itself is the same. -/
structure SameFields (s s' : State) : Prop where
  expires : ∀ a, (s'.timers a).expires = (s.timers a).expires
  period : ∀ a, (s'.timers a).period = (s.timers a).period
  active : ∀ a, (s'.timers a).active = (s.timers a).active
  fn : ∀ a, (s'.timers a).fn = (s.timers a).fn
  tick : s'.tick = s.tick

namespace SameFields

theorem trans {s s' s'' : State} (h : SameFields s s') (g : SameFields s' s'') : SameFields s s'' :=
  ⟨fun a => (g.expires a).trans (h.expires a), fun a => (g.period a).trans (h.period a),
    fun a => (g.active a).trans (h.active a), fun a => (g.fn a).trans (h.fn a), g.tick.trans h.tick⟩

theorem setNext (s : State) (a : Nat) (p : Option Nat) : SameFields s (s.setNext a p) := by
  unfold State.setNext State.set
  refine ⟨?_, ?_, ?_, ?_, rfl⟩ <;> intro b <;> by_cases hb : b = a
  all_goals simp [hb]

theorem setIndirect (s : State) (pp p : Option Nat) : SameFields s (s.setIndirect pp p) := by
  cases pp with
  | none => exact ⟨fun _ => rfl, fun _ => rfl, fun _ => rfl, fun _ => rfl, rfl⟩
  | some a => exact setNext s a p

end SameFields

section

variable {s : State} {q : List Nat}

theorem links_setNext (s : State) (a b : Nat) (p : Option Nat) :
    links (s.setNext a p) b = if b = a then p else links s b := by
  unfold links State.setNext State.set
  by_cases hb : b = a <;> simp [hb]

theorem queue_setNext (s : State) (a : Nat) (p : Option Nat) : (s.setNext a p).queue = s.queue :=
  rfl

/-- The timers of the queue are at different 32-bit addresses. -/
theorem Queued.length_lt (hq : Queued s q) : q.length < queueFuel := by
  have := hq.chain.length_le hq.address
  unfold queueFuel
  omega

/-- `queue_insert` puts the timer after the longest prefix that does not expire later, by the
words. -/
def inserted (s : State) (q : List Nat) (t : Nat) : List Nat :=
  q.takeWhile (fun a => decide ((s.timers a).expires ≤ (s.timers t).expires)) ++
    t :: q.dropWhile (fun a => decide ((s.timers a).expires ≤ (s.timers t).expires))

/-- **`queue_insert`** of a timer that is not in the queue. -/
theorem queueInsert_spec (hq : Queued s q) {t : Nat} (ht : t ∉ q) (ha : Address t) :
    ∃ s', queueInsert s t = some s' ∧ Queued s' (inserted s q t) ∧ SameFields s s' := by
  have hloc := locate_chain (fun a =>
    decide ((s.timers t).expires < (s.timers a).expires)) none hq.chain hq.length_lt
  have htest : (fun a => !decide ((s.timers t).expires < (s.timers a).expires)) =
      fun a => decide ((s.timers a).expires ≤ (s.timers t).expires) := by
    funext a
    rw [← decide_not, decide_eq_decide]
    exact not_lt
  rw [htest, Option.or_none] at hloc
  have hsplit := List.takeWhile_append_dropWhile (l := q)
    (p := fun a => decide ((s.timers a).expires ≤ (s.timers t).expires))
  have hmem : ∀ a, a ∈ inserted s q t ↔ a = t ∨ a ∈ q := by
    intro a
    conv_rhs => rw [← hsplit]
    unfold inserted
    simp only [List.mem_append, List.mem_cons]
    tauto
  unfold inserted at *
  generalize q.takeWhile (fun a => decide ((s.timers a).expires ≤ (s.timers t).expires)) = pre at *
  generalize q.dropWhile (fun a => decide ((s.timers a).expires ≤ (s.timers t).expires)) = post at *
  subst hsplit
  let s1 := s.setNext t post.head?
  refine ⟨s1.setIndirect pre.getLast? (some t), ?_, ⟨?_, ?_⟩,
    (SameFields.setNext s t _).trans (SameFields.setIndirect s1 _ _)⟩
  · unfold queueInsert
    rw [hloc]
    rfl
  · have hnt : ∀ a ∈ pre ++ post, a ≠ t := fun a ha he => ht (he ▸ ha)
    cases hp : pre.getLast? with
    | none =>
      obtain rfl := List.getLast?_eq_none_iff.mp hp
      refine (hq.chain.insert (links s1) (a := t) ?_ (by simp) ?_)
      · rw [links_setNext, if_pos rfl]
      · intro c hc _
        rw [links_setNext, if_neg (hnt c hc)]
    | some b =>
      have hbp : b ∈ pre := List.mem_of_getLast? hp
      have hpre : pre ≠ [] := List.ne_nil_of_mem hbp
      have hins := hq.chain.insert (links (s1.setNext b (some t))) (a := t) ?_ ?_ ?_
      · rwa [if_neg hpre] at hins
      · rw [links_setNext, if_neg (fun he => hnt b (List.mem_append_left _ hbp) he.symm),
          links_setNext, if_pos rfl]
      · intro c hc
        rw [hp] at hc
        cases hc
        rw [links_setNext, if_pos rfl]
      · intro c hc hne
        rw [hp] at hne
        have hcb : c ≠ b := by
          rintro rfl
          exact hne rfl
        rw [links_setNext, if_neg hcb, links_setNext, if_neg (hnt c hc)]
  · intro a ha'
    rcases (hmem a).mp ha' with rfl | h
    · exact ha
    · exact hq.address a h

theorem mem_inserted (s : State) (q : List Nat) (t a : Nat) :
    a ∈ inserted s q t ↔ a = t ∨ a ∈ q := by
  conv_rhs => rw [← List.takeWhile_append_dropWhile (l := q)
    (p := fun a => decide ((s.timers a).expires ≤ (s.timers t).expires))]
  unfold inserted
  simp only [List.mem_append, List.mem_cons]
  tauto

theorem le_of_mem_front {a t : Nat}
    (ha : a ∈ q.takeWhile (fun a => decide ((s.timers a).expires ≤ (s.timers t).expires))) :
    (s.timers a).expires ≤ (s.timers t).expires :=
  of_decide_eq_true (List.mem_takeWhile_imp
    (p := fun a => decide ((s.timers a).expires ≤ (s.timers t).expires)) ha)

theorem first_behind {a t : Nat} {R : Nat → Nat → Prop} (h : q.Pairwise R)
    (ha : a ∈ q.dropWhile (fun a => decide ((s.timers a).expires ≤ (s.timers t).expires))) :
    ∃ b ∈ q, (s.timers t).expires < (s.timers b).expires ∧ (a = b ∨ R b a) := by
  have hsub :=
    List.dropWhile_sublist (fun a => decide ((s.timers a).expires ≤ (s.timers t).expires)) (l := q)
  have hrest := h.sublist hsub
  have hfirst :=
    List.head?_dropWhile_not (fun a => decide ((s.timers a).expires ≤ (s.timers t).expires)) q
  cases hdrop : q.dropWhile (fun a => decide ((s.timers a).expires ≤ (s.timers t).expires)) with
  | nil =>
    rw [hdrop] at ha
    cases ha
  | cons b rest =>
    rw [hdrop] at ha hrest hfirst hsub
    refine ⟨b, hsub.subset List.mem_cons_self, by simpa using hfirst, ?_⟩
    exact (List.mem_cons.mp ha).imp_right fun ha => (List.pairwise_cons.mp hrest).1 a ha

theorem inserted_perm (s : State) (q : List Nat) (t : Nat) : (inserted s q t).Perm (t :: q) := by
  unfold inserted
  refine List.perm_middle.trans (List.Perm.cons t ?_)
  rw [List.takeWhile_append_dropWhile]

/-- **`queue_remove`** of a timer of the queue. -/
theorem queueRemove_spec (hq : Queued s q) {t : Nat} (ht : t ∈ q) :
    ∃ s', queueRemove s t = some s' ∧ Queued s' (q.erase t) ∧ SameFields s s' := by
  obtain ⟨pre, post, rfl, hloc⟩ := locate_mem none hq.chain ht hq.length_lt
  rw [Option.or_none] at hloc
  have hnd := List.nodup_middle.mp hq.chain.nodup
  have htp : t ∉ pre ++ post := (List.nodup_cons.mp hnd).1
  have herase : (pre ++ t :: post).erase t = pre ++ post := by
    rw [List.erase_append_right _ (fun h => htp (List.mem_append_left _ h)), List.erase_cons_head]
  rw [herase]
  let s1 := s.setIndirect pre.getLast? (s.timers t).next
  refine ⟨s1.setNext t none, ?_, ⟨?_, fun a ha => hq.address a ?_⟩,
    (SameFields.setIndirect s _ _).trans (SameFields.setNext s1 t none)⟩
  · unfold queueRemove
    rw [hloc]
    rfl
  · have hnt : ∀ a ∈ pre ++ post, a ≠ t := fun a ha he => htp (he ▸ ha)
    rw [queue_setNext]
    show Chain _ (s.setIndirect pre.getLast? (links s t)).queue _
    cases hp : pre.getLast? with
    | none =>
      obtain rfl := List.getLast?_eq_none_iff.mp hp
      have hrem := hq.chain.remove (links (s1.setNext t none)) (b := t) (by simp) ?_
      · exact hrem
      · intro c hc _
        rw [links_setNext, if_neg (hnt c hc)]
        show links (s.setIndirect _ _) c = _
        rw [hp]
        rfl
    | some b =>
      have hbp : b ∈ pre := List.mem_of_getLast? hp
      have hpre : pre ≠ [] := List.ne_nil_of_mem hbp
      have hs1 : s1 = s.setNext b (links s t) := by
        show s.setIndirect pre.getLast? _ = _
        rw [hp]
        rfl
      have hrem := hq.chain.remove (links (s1.setNext t none)) (b := t) ?_ ?_
      · rwa [if_neg hpre] at hrem
      · intro c hc
        rw [hp] at hc
        cases hc
        rw [links_setNext, if_neg (hnt b (List.mem_append_left _ hbp)), hs1, links_setNext,
          if_pos rfl]
      · intro c hc hne
        rw [hp] at hne
        have hcb : c ≠ b := by
          rintro rfl
          exact hne rfl
        rw [links_setNext, if_neg (hnt c hc), hs1, links_setNext, if_neg hcb]
  · rcases List.mem_append.mp ha with h | h <;> simp [h]

end
end CobraOS.Timers
