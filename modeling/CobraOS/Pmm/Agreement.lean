import CobraOS.Pmm.Model
import CobraOS.Base.System

/-!
# The bitmap and the stack agree

`Agree s` says that the pages on the stack have different frames, that the bits set in the bitmap
are exactly those frames, and that the counter is the height of the stack.  The abstract state is
the list `pages s` on the stack: `pmm_free_page` pushes a page whose frame is not there (`freed`),
and `pmm_alloc_page` pops one.

* `pmmFreePage_spec`, `pmmAllocPage_spec`: each call keeps `Agree` and does that to the list.
* `agreement`: what holds in every run that frees only pages below `MAX_FRAMES`.
-/

namespace CobraOS.Pmm

open Base

/-- The frames that have a bit in `pmm_bitmap`. -/
def bitmapFrames : Nat := 32 * bitmapWords

/-- The pages on the stack, the one freed last at the end. -/
def pages (s : State) : List Nat := (List.range s.stackTop).map s.freeStack

structure Agree (s : State) : Prop where
  height : s.stackTop ≤ maxFrames
  distinct : ((pages s).map pageToIndex).Nodup
  inBitmap : ∀ p ∈ pages s, pageToIndex p < bitmapFrames
  bits : ∀ i < bitmapFrames, hasBit s.bitmap i = true ↔ i ∈ (pages s).map pageToIndex
  count : s.freePageCount = s.stackTop

theorem pages_length (s : State) : (pages s).length = s.stackTop := by simp [pages]

theorem checkIndex_eq {i : Nat} (h : i < bitmapFrames) : checkIndex i = .ok () := by
  unfold checkIndex
  unfold bitmapFrames at h
  exact if_pos (by omega)

theorem checkIndex_eq_error {i : Nat} (h : bitmapFrames ≤ i) :
    checkIndex i = .error .outOfBounds := by
  unfold checkIndex
  unfold bitmapFrames at h
  exact if_neg (by omega)

theorem pmmInit_agree (s : State) (totalMemory : Nat) : Agree (pmmInit s totalMemory) := by
  refine ⟨Nat.zero_le _, List.nodup_nil, fun p hp => absurd hp List.not_mem_nil, ?_, rfl⟩
  intro i hi
  have hw : i / 32 < bitmapWords := by
    unfold bitmapFrames at hi
    omega
  have h0 : hasBit (pmmInit s totalMemory).bitmap i = false := by
    rw [hasBit_eq]
    show (if i / 32 < bitmapWords then 0#32 else s.bitmap (i / 32)).getLsbD (i % 32) = false
    rw [if_pos hw, BitVec.getLsbD_zero]
  rw [h0]
  simp [pages, pmmInit]

/-- The list after `pmm_free_page`. -/
def freed (l : List Nat) (page : Nat) : List Nat :=
  if pageToIndex page ∈ l.map pageToIndex ∨ maxFrames ≤ l.length then l else l ++ [page]

theorem pages_push (s : State) (page : Nat) :
    (List.range (s.stackTop + 1)).map (Function.update s.freeStack s.stackTop page) =
      pages s ++ [page] := by
  rw [List.range_succ, List.map_append, List.map_singleton, Function.update_self]
  congr 1
  refine List.map_congr_left (fun i hi => ?_)
  exact Function.update_of_ne (by have := List.mem_range.mp hi; omega) _ _

/-- **`pmm_free_page`** of a page that has a bit: a double free and a full stack change nothing, and
otherwise the page is pushed. -/
theorem pmmFreePage_spec {s : State} (hs : Agree s) {page : Nat}
    (hp : pageToIndex page < bitmapFrames) :
    ∃ n s', pmmFreePage s page = .ok (n, s') ∧ Agree s' ∧ pages s' = freed (pages s) page ∧
      (pageToIndex page ∈ (pages s).map pageToIndex → s' = s) ∧
      (n = some .stackOverflow →
        maxFrames ≤ s.stackTop ∧ pageToIndex page ∉ (pages s).map pageToIndex) := by
  have hcheck := checkIndex_eq hp
  have hbit := hs.bits _ hp
  unfold pmmFreePage bitmapTest bitmapSet freed
  simp only [hcheck, bind, Except.bind, pages_length]
  by_cases hmem : pageToIndex page ∈ (pages s).map pageToIndex
  · rw [hbit.mpr hmem]
    simp only [if_true, if_pos (Or.inl hmem : _ ∨ maxFrames ≤ s.stackTop)]
    exact ⟨_, s, rfl, hs, rfl, fun _ => rfl, by simp⟩
  · have hfalse : hasBit s.bitmap (pageToIndex page) = false :=
      Bool.eq_false_iff.mpr (fun h => hmem (hbit.mp h))
    rw [hfalse]
    simp only [Bool.false_eq_true, if_false, hmem, false_or]
    by_cases hfull : maxFrames ≤ s.stackTop
    · rw [if_pos hfull, if_pos hfull]
      exact ⟨_, s, rfl, hs, rfl, fun h => absurd h id, fun _ => ⟨hfull, not_false⟩⟩
    · rw [if_neg hfull, if_neg hfull]
      refine ⟨none, _, rfl, ?_, pages_push s page, fun h => absurd h id, by simp⟩
      have hpush := pages_push s page
      refine ⟨by simp only; omega, ?_, ?_, ?_, congrArg (· + 1) hs.count⟩
      · show ((List.map _ (List.range (s.stackTop + 1))).map pageToIndex).Nodup
        rw [hpush, List.map_append, List.nodup_append]
        refine ⟨hs.distinct, List.nodup_singleton _, ?_⟩
        rintro i hi j hj rfl
        rw [List.map_singleton, List.mem_singleton] at hj
        exact hmem (hj ▸ hi)
      · show ∀ p ∈ List.map _ (List.range (s.stackTop + 1)), _
        rw [hpush]
        intro p hp'
        rcases List.mem_append.mp hp' with h | h
        · exact hs.inBitmap p h
        · rw [List.mem_singleton.mp h]
          exact hp
      · intro i hi
        show hasBit (setBit s.bitmap (pageToIndex page)) i = true ↔
          i ∈ (List.map _ (List.range (s.stackTop + 1))).map pageToIndex
        rw [hpush, hasBit_setBit, Bool.or_eq_true, hs.bits i hi, decide_eq_true_eq, List.map_append,
          List.mem_append, List.map_singleton, List.mem_singleton]

/-- **`pmm_alloc_page`** pops the last page, if there is one. -/
theorem pmmAllocPage_spec {s : State} (hs : Agree s) :
    (pages s = [] ∧ pmmAllocPage s = .ok (none, s)) ∨
      ∃ p s', pmmAllocPage s = .ok (some p, s') ∧ Agree s' ∧ pages s = pages s' ++ [p] := by
  by_cases h0 : s.stackTop = 0
  · left
    unfold pmmAllocPage pages
    rw [if_pos h0, h0]
    exact ⟨rfl, rfl⟩
  · right
    have hheight := hs.height
    obtain ⟨n, hn⟩ : ∃ n, s.stackTop = n + 1 := ⟨s.stackTop - 1, by omega⟩
    have hsplit : pages s = (List.range n).map s.freeStack ++ [s.freeStack n] := by
      unfold pages
      rw [hn, List.range_succ, List.map_append, List.map_singleton]
    have hp : pageToIndex (s.freeStack n) < bitmapFrames :=
      hs.inBitmap _ (by rw [hsplit]; simp)
    have hdis := hs.distinct
    rw [hsplit, List.map_append, List.nodup_append] at hdis
    obtain ⟨hd1, -, hd3⟩ := hdis
    have hout : pageToIndex (s.freeStack n) ∉ ((List.range n).map s.freeStack).map pageToIndex :=
      fun h => hd3 _ h _ (by simp) rfl
    refine ⟨s.freeStack n, { s with
      bitmap := clearBit s.bitmap (pageToIndex (s.freeStack n))
      stackTop := n
      freePageCount := n }, ?_, ⟨?_, hd1, ?_, ?_, rfl⟩, hsplit⟩
    · unfold pmmAllocPage bitmapClear
      rw [if_neg h0, if_neg (by omega)]
      have hcount : 0 < s.freePageCount := by rw [hs.count]; omega
      simp only [hn, Nat.add_sub_cancel, checkIndex_eq hp, bind, Except.bind, if_pos hcount]
      rw [hs.count, hn, Nat.add_sub_cancel]
    · simp only
      omega
    · intro p h
      exact hs.inBitmap p (by rw [hsplit]; exact List.mem_append_left _ h)
    · intro i hi
      have hbit := hs.bits i hi
      rw [hsplit, List.map_append, List.mem_append, List.map_singleton, List.mem_singleton] at hbit
      show hasBit (clearBit s.bitmap (pageToIndex (s.freeStack n))) i = true ↔ _
      rw [hasBit_clearBit, Bool.and_eq_true, hbit, decide_eq_true_eq]
      constructor
      · rintro ⟨h | h, hne⟩
        · exact h
        · exact absurd h hne
      · intro h
        exact ⟨Or.inl h, fun heq => hout (heq ▸ h)⟩

theorem Agree.card_members {s : State} (hs : Agree s) :
    (members s.bitmap bitmapFrames).card = s.stackTop := by
  have heq : members s.bitmap bitmapFrames = ((pages s).map pageToIndex).toFinset := by
    ext i
    rw [mem_members, List.mem_toFinset]
    constructor
    · rintro ⟨hi, hb⟩
      exact (hs.bits i hi).mp hb
    · intro hi
      obtain ⟨p, hp, rfl⟩ := List.mem_map.mp hi
      exact ⟨hs.inBitmap p hp, (hs.bits _ (hs.inBitmap p hp)).mpr hi⟩
  rw [heq, List.toFinset_card_of_nodup hs.distinct, List.length_map, pages_length]

/-! ### Runs -/

inductive Op
  | free (page : Nat)
  | alloc (page : Option Nat)

/-- Every run from `pmm_init` that frees pages below `MAX_FRAMES`, aligned or not and free or not,
and takes pages. -/
def system : System State Op where
  init s := ∃ s0 totalMemory, s = pmmInit s0 totalMemory
  step s op s' :=
    match op with
    | .free page => pageToIndex page < maxFrames ∧ ∃ n, pmmFreePage s page = .ok (n, s')
    | .alloc page => pmmAllocPage s = .ok (page, s')

/-- The invariant of these runs. -/
def Below (s : State) : Prop := Agree s ∧ ∀ p ∈ pages s, pageToIndex p < maxFrames

theorem lt_bitmapFrames {i : Nat} (h : i < maxFrames) : i < bitmapFrames := by
  unfold bitmapFrames bitmapWords
  unfold maxFrames at *
  omega

theorem mem_freed {l : List Nat} {page p : Nat} (h : p ∈ freed l page) : p ∈ l ∨ p = page := by
  unfold freed at h
  split at h
  · exact Or.inl h
  · rw [List.mem_append, List.mem_singleton] at h
    exact h

theorem system_step {s s' : State} {op : Op} (hb : Below s) (h : system.step s op s') :
    Below s' ∧ match op with
      | .free page => pages s' = freed (pages s) page
      | .alloc none => s' = s ∧ pages s = []
      | .alloc (some p) => pages s = pages s' ++ [p] := by
  obtain ⟨hs, hlt⟩ := hb
  cases op with
  | free page =>
    obtain ⟨hp, n, hr⟩ := h
    obtain ⟨n', s1, hr', hs', hpages, -, -⟩ := pmmFreePage_spec hs (lt_bitmapFrames hp)
    rw [hr'] at hr
    cases hr
    refine ⟨⟨hs', fun p hp' => ?_⟩, hpages⟩
    rw [hpages] at hp'
    rcases mem_freed hp' with h | rfl
    · exact hlt p h
    · exact hp
  | alloc page =>
    have hr : pmmAllocPage s = .ok (page, s') := h
    rcases pmmAllocPage_spec hs with ⟨hnil, hr'⟩ | ⟨p, s1, hr', hs', hpages⟩
    · rw [hr'] at hr
      cases hr
      exact ⟨⟨hs, hlt⟩, rfl, hnil⟩
    · rw [hr'] at hr
      cases hr
      exact ⟨⟨hs', fun q hq => hlt q (by rw [hpages]; exact List.mem_append_left _ hq)⟩, hpages⟩

theorem reach_below {s : State} (h : system.Reach s) : Below s := by
  refine h.induct ?_ (fun s op s' hb hstep => (system_step hb hstep).1)
  rintro s ⟨s0, totalMemory, rfl⟩
  exact ⟨pmmInit_agree s0 totalMemory, fun p hp => absurd hp List.not_mem_nil⟩

/-- With the frames below `MAX_FRAMES` the stack is only full when every frame is on it. -/
theorem Below.full {s : State} (hb : Below s) (hfull : maxFrames ≤ s.stackTop) {i : Nat}
    (hi : i < maxFrames) : i ∈ (pages s).map pageToIndex := by
  have hsub : ((pages s).map pageToIndex).toFinset ⊆ Finset.range maxFrames := by
    intro j hj
    obtain ⟨p, hp, rfl⟩ := List.mem_map.mp (List.mem_toFinset.mp hj)
    exact Finset.mem_range.mpr (hb.2 p hp)
  have hcard : maxFrames ≤ ((pages s).map pageToIndex).toFinset.card := by
    rw [List.toFinset_card_of_nodup hb.1.distinct, List.length_map, pages_length]
    exact hfull
  have heq := Finset.eq_of_subset_of_card_le hsub (by rwa [Finset.card_range])
  rw [← List.mem_toFinset, heq]
  exact Finset.mem_range.mpr hi

theorem off_stack_run {s s' : State} {l : List Op} {i : Nat} (h : system.Run s l s') (hb : Below s)
    (hi : i ∉ (pages s).map pageToIndex) (hl : ∀ a, Op.free a ∈ l → pageToIndex a ≠ i) :
    Below s' ∧ i ∉ (pages s').map pageToIndex := by
  induction h with
  | nil _ => exact ⟨hb, hi⟩
  | @cons s s1 s2 op l hstep _ ih =>
    obtain ⟨hb1, hpages⟩ := system_step hb hstep
    refine ih hb1 ?_ (fun a ha => hl a (List.mem_cons_of_mem _ ha))
    intro hmem
    obtain ⟨p, hp, rfl⟩ := List.mem_map.mp hmem
    cases op with
    | free page =>
      rw [hpages] at hp
      rcases mem_freed hp with h | rfl
      · exact hi (List.mem_map_of_mem h)
      · exact hl p List.mem_cons_self rfl
    | alloc page =>
      cases page with
      | none => exact hi (hpages.1 ▸ hmem)
      | some q =>
        have hpages' : pages s = pages s1 ++ [q] := hpages
        exact hi (List.mem_map_of_mem (by rw [hpages']; exact List.mem_append_left _ hp))

/-- **The bitmap, the stack and the counter agree in every run**; a double free changes nothing, the
stack never overflows, and a page that was taken is not handed out again before it is freed. -/
theorem agreement {s : State} (hs : system.Reach s) :
    ((pages s).map pageToIndex).Nodup ∧
    (∀ i < bitmapFrames, hasBit s.bitmap i = true ↔ ∃ j < s.stackTop,
      pageToIndex (s.freeStack j) = i) ∧
    s.freePageCount = s.stackTop ∧ (members s.bitmap bitmapFrames).card = s.stackTop ∧
    (∀ page, pageToIndex page < maxFrames → ∃ n s', pmmFreePage s page = .ok (n, s') ∧
      n ≠ some .stackOverflow ∧ (hasBit s.bitmap (pageToIndex page) = true → s' = s)) ∧
    (∃ r, pmmAllocPage s = .ok r) ∧
    (∀ p s1, pmmAllocPage s = .ok (some p, s1) → ∀ l s2, system.Run s1 l s2 →
      (∀ a, Op.free a ∈ l → pageToIndex a ≠ pageToIndex p) →
      ∀ q s3, pmmAllocPage s2 = .ok (some q, s3) → pageToIndex q ≠ pageToIndex p) := by
  have hb := reach_below hs
  have hstack : ∀ i, i ∈ (pages s).map pageToIndex ↔
      ∃ j < s.stackTop, pageToIndex (s.freeStack j) = i := by
    intro i
    simp [pages]
  refine ⟨hb.1.distinct, ?_, hb.1.count, hb.1.card_members, ?_, ?_, ?_⟩
  · intro i hi
    rw [hb.1.bits i hi, hstack]
  · intro page hp
    obtain ⟨n, s', hr, -, -, hdouble, hover⟩ := pmmFreePage_spec hb.1 (lt_bitmapFrames hp)
    refine ⟨n, s', hr, ?_, fun hbit => hdouble ((hb.1.bits _ (lt_bitmapFrames hp)).mp hbit)⟩
    intro hn
    obtain ⟨hfull, hnot⟩ := hover hn
    exact hnot (hb.full hfull hp)
  · rcases pmmAllocPage_spec hb.1 with ⟨-, hr⟩ | ⟨p, s', hr, -, -⟩
    · exact ⟨_, hr⟩
    · exact ⟨_, hr⟩
  · intro p s1 hp l s2 hrun hl q s3 hq
    obtain ⟨hb1, hpages⟩ := system_step hb (show system.step s (.alloc (some p)) s1 from hp)
    have hpages' : pages s = pages s1 ++ [p] := hpages
    have hdis := hb.1.distinct
    rw [hpages', List.map_append, List.nodup_append] at hdis
    have hout : pageToIndex p ∉ (pages s1).map pageToIndex := fun h => hdis.2.2 _ h _ (by simp) rfl
    obtain ⟨hb2, hout2⟩ := off_stack_run hrun hb1 hout hl
    obtain ⟨-, hpages2⟩ := system_step hb2 (show system.step s2 (.alloc (some q)) s3 from hq)
    have hpages2' : pages s2 = pages s3 ++ [q] := hpages2
    intro heq
    refine hout2 ?_
    rw [hpages2', ← heq]
    exact List.mem_map_of_mem (by simp)

theorem agreement_first : ∃ n s, pmmFreePage (pmmInit ⟨fun _ => 0, fun _ => 0, 0, 0, 0⟩ 8192) 4097 =
    .ok (n, s) ∧ s.freePageCount = s.stackTop := by
  have h0 : system.Reach (pmmInit ⟨fun _ => 0, fun _ => 0, 0, 0, 0⟩ 8192) := .init ⟨_, _, rfl⟩
  have hp : pageToIndex 4097 < maxFrames := by decide
  obtain ⟨n, s, hr, -, -⟩ := (agreement h0).2.2.2.2.1 4097 hp
  exact ⟨n, s, hr, (agreement (h0.step (e := .free 4097) ⟨hp, n, hr⟩)).2.2.1⟩

end CobraOS.Pmm
