import CobraOS.Vmm.Model

/-!
# The page tables hold the mappings

`Maps s l` says what directory and tables hold after the successful calls `l`: a directory entry
holds the frame and the flags of the first call that needed it, and a table entry what the last call
for its page asked for.  Every call keeps it (`Maps.step`), so it holds after every run
(`run_maps`).

* `mapping_law`: each page has the translation of the last successful call for it.
* `granted_iff`: the permissions of a page are those asked for exactly when the first call for its
  directory entry had asked for them.
-/

namespace CobraOS.Vmm

open Base

variable {s s' : State} {c d : Call} {l : List Call} {virt virt' : Word} {i : Nat}

/-! ### Addresses -/

theorem pdIndex_lt (virt : Word) : pdIndex virt < 1024 := by
  have hlt := virt.isLt
  unfold pdIndex
  rw [BitVec.toNat_ushiftRight, Nat.shiftRight_eq_div_pow]
  omega

theorem ptIndex_eq (virt : Word) : ptIndex virt = virt.toNat / 4096 % 1024 := by
  unfold ptIndex
  rw [BitVec.toNat_and, BitVec.toNat_ushiftRight, Nat.shiftRight_eq_div_pow]
  exact Nat.and_two_pow_sub_one_eq_mod _ 10

theorem ptIndex_lt (virt : Word) : ptIndex virt < 1024 := by
  rw [ptIndex_eq]
  exact Nat.mod_lt _ (by decide)

theorem page_eq_iff : virt >>> 12 = virt' >>> 12 ↔
    pdIndex virt = pdIndex virt' ∧ ptIndex virt = ptIndex virt' := by
  have hpage : ∀ v : Word, (v >>> 12).toNat = v.toNat / 4096 := fun v => by
    rw [BitVec.toNat_ushiftRight, Nat.shiftRight_eq_div_pow]
  have hslot : ∀ v : Word, pdIndex v = v.toNat / 4194304 := fun v => by
    unfold pdIndex
    rw [BitVec.toNat_ushiftRight, Nat.shiftRight_eq_div_pow]
  rw [← BitVec.toNat_inj, hpage, hpage, hslot, hslot, ptIndex_eq, ptIndex_eq]
  omega

theorem aligned_of_mask {a : Word} (h : a &&& flagsMask = 0) : a.toNat % 4096 = 0 := by
  have hnat := congrArg BitVec.toNat h
  rw [BitVec.toNat_and] at hnat
  exact (Nat.and_two_pow_sub_one_eq_mod a.toNat 12).symm.trans hnat

/-- The entries of different pages, and different entries of a page, are at different addresses. -/
theorem entry_ne {a b i j : Nat} (ha : a % 4096 = 0) (hb : b % 4096 = 0) (hi : i < 1024)
    (hj : j < 1024) (h : a ≠ b ∨ i ≠ j) : a + 4 * i ≠ b + 4 * j := by
  omega

theorem entry_outside {a b i : Nat} (ha : a % 4096 = 0) (hb : b % 4096 = 0) (hi : i < 1024)
    (h : a ≠ b) :
    ¬ (b ≤ a + 4 * i ∧ a + 4 * i < b + pageSize) := by
  unfold pageSize
  omega

/-! ### Words -/

/-- A directory entry. -/
def dirWord (c : Call) : Word := c.newPt ||| (c.flags &&& flagsMask) ||| 1

/-- A table entry. -/
def tableWord (c : Call) : Word := c.phys ||| c.flags ||| 1

theorem present_of_or (a : Word) : (a ||| 1) &&& 1 = 1 := by
  ext i hi
  simp only [BitVec.getElem_and, BitVec.getElem_or]
  cases a[i] <;> cases (1 : Word)[i] <;> rfl

theorem dirWord_present (c : Call) : dirWord c &&& 1 ≠ 0 := by
  rw [dirWord, present_of_or]
  decide

theorem flags_or_one {f : Word} (hf : f &&& ~~~flagsMask = 0) : (f ||| 1) &&& ~~~flagsMask = 0 := by
  have hone : (1 : Word) &&& ~~~flagsMask = 0 := by decide
  ext i hi
  have hfi := getElem_of_and_eq_zero hf hi
  have h1i := getElem_of_and_eq_zero hone hi
  rw [BitVec.getElem_and, BitVec.getElem_or, Bool.and_or_distrib_right, hfi, h1i]
  exact (BitVec.getElem_zero hi).symm

theorem tableOf_dirWord (h : c.newPt &&& flagsMask = 0) : tableOf (dirWord c) = c.newPt.toNat := by
  unfold tableOf dirWord
  rw [BitVec.or_assoc, packed_high h (flags_or_one (and_and_not c.flags flagsMask))]

theorem flags_and_mask {f : Word} (h : f &&& ~~~flagsMask = 0) : f &&& flagsMask = f := by
  have hlow : (0#32 ||| f) &&& flagsMask = f := packed_low BitVec.zero_and h
  rwa [BitVec.zero_or] at hlow

theorem dirWord_flags (h : c.newPt &&& flagsMask = 0) (hf : c.flags &&& ~~~flagsMask = 0) :
    dirWord c &&& flagsMask = c.flags ||| 1 := by
  unfold dirWord
  rw [BitVec.or_assoc, flags_and_mask hf, packed_low h (flags_or_one hf)]

/-! ### The calls of a run -/

theorem firstIn_append (l : List Call) (c : Call) (i : Nat) :
    firstIn (l ++ [c]) i = (firstIn l i).or (if pdIndex c.virt = i then some c else none) := by
  unfold firstIn
  rw [List.find?_append, List.find?_singleton]
  simp only [decide_eq_true_eq]

theorem lastFor_append (l : List Call) (c : Call) (virt : Word) :
    lastFor (l ++ [c]) virt = if c.virt >>> 12 = virt >>> 12 then some c else lastFor l virt := by
  unfold lastFor
  rw [List.reverse_append, List.reverse_singleton, List.singleton_append, List.find?_cons]
  by_cases h : c.virt >>> 12 = virt >>> 12
  · simp [h]
  · simp [h]

theorem lastFor_spec (h : lastFor l virt = some c) : c ∈ l ∧ c.virt >>> 12 = virt >>> 12 :=
  ⟨List.mem_reverse.mp (List.mem_of_find?_eq_some h), by simpa using List.find?_some h⟩

theorem firstIn_spec (h : firstIn l i = some c) : c ∈ l ∧ pdIndex c.virt = i :=
  ⟨List.mem_of_find?_eq_some h, by simpa using List.find?_some h⟩

theorem lastFor_none (h : firstIn l (pdIndex virt) = none) : lastFor l virt = none := by
  cases hlast : lastFor l virt with
  | none => rfl
  | some c =>
    obtain ⟨hmem, hpage⟩ := lastFor_spec hlast
    have hno := List.find?_eq_none.mp h c hmem
    simp [(page_eq_iff.mp hpage).1] at hno

/-! ### The invariant -/

/-- A table entry, by the last call for its page. -/
def entryWord : Option Call → Word
  | none => 0
  | some c => tableWord c

/-- **The invariant.** -/
structure Maps (s : State) (l : List Call) : Prop where
  aligned : s.pageDirectory % 4096 = 0
  args : ∀ c ∈ l, c.phys &&& flagsMask = 0 ∧ c.flags &&& ~~~flagsMask = 0
  absent : ∀ i < 1024, firstIn l i = none → s.dirEntry i &&& 1 = 0
  dir : ∀ i d, firstIn l i = some d → s.dirEntry i = dirWord d
  frame : ∀ i d, firstIn l i = some d → d.newPt &&& flagsMask = 0 ∧ d.newPt.toNat ≠ s.pageDirectory
  distinct : ∀ i j d e, firstIn l i = some d → firstIn l j = some e → i ≠ j →
    d.newPt.toNat ≠ e.newPt.toNat
  entry : ∀ virt d, firstIn l (pdIndex virt) = some d →
    s.word (d.newPt.toNat + 4 * ptIndex virt) = entryWord (lastFor l virt)

theorem firstIn_nil (i : Nat) : firstIn [] i = none := rfl

theorem Maps.init (h : Empty s) : Maps s [] := by
  refine ⟨h.aligned, fun _ hc => absurd hc List.not_mem_nil, fun i hi _ => h.entries i hi, ?_,
    ?_, ?_, ?_⟩
  all_goals
    intros
    simp_all [firstIn_nil]

theorem Maps.frame_aligned (h : Maps s l) (hd : firstIn l i = some d) : d.newPt.toNat % 4096 = 0 :=
  aligned_of_mask (h.frame i d hd).1

theorem Maps.args_append (h : Maps s l) (hphys : c.phys &&& flagsMask = 0)
    (hflags : c.flags &&& ~~~flagsMask = 0) :
    ∀ b ∈ l ++ [c], b.phys &&& flagsMask = 0 ∧ b.flags &&& ~~~flagsMask = 0 := by
  intro b hb
  obtain hb | hb := List.mem_append.mp hb
  · exact h.args b hb
  · rw [List.mem_singleton.mp hb]
    exact ⟨hphys, hflags⟩

theorem lt_of_firstIn (hd : firstIn l i = some d) : i < 1024 :=
  (firstIn_spec hd).2 ▸ pdIndex_lt _

/-- A call for a directory entry that another call has needed before. -/
theorem firstIn_append_of_some (hd : firstIn l (pdIndex c.virt) = some d) (i : Nat) :
    firstIn (l ++ [c]) i = firstIn l i := by
  rw [firstIn_append]
  by_cases hi : pdIndex c.virt = i
  · rw [← hi, hd]
    rfl
  · rw [if_neg hi, Option.or_none]

theorem firstIn_append_of_none (hnone : firstIn l (pdIndex c.virt) = none) (i : Nat) :
    firstIn (l ++ [c]) i = if i = pdIndex c.virt then some c else firstIn l i := by
  rw [firstIn_append]
  by_cases hi : i = pdIndex c.virt
  · rw [if_pos hi, hi, hnone, if_pos rfl]
    rfl
  · rw [if_neg hi, if_neg (Ne.symm hi), Option.or_none]

theorem firstIn_append_cases (hnone : firstIn l (pdIndex c.virt) = none)
    (hd : firstIn (l ++ [c]) i = some d) :
    (i = pdIndex c.virt ∧ d = c) ∨ (i ≠ pdIndex c.virt ∧ firstIn l i = some d) := by
  rw [firstIn_append_of_none hnone] at hd
  by_cases hi : i = pdIndex c.virt
  · rw [if_pos hi] at hd
    exact .inl ⟨hi, (Option.some.inj hd).symm⟩
  · rw [if_neg hi] at hd
    exact .inr ⟨hi, hd⟩

theorem Maps.write (h : Maps s l) (hphys : c.phys &&& flagsMask = 0)
    (hflags : c.flags &&& ~~~flagsMask = 0) (hd : firstIn l (pdIndex c.virt) = some d) :
    Maps (s.store (d.newPt.toNat + 4 * ptIndex c.virt) (tableWord c)) (l ++ [c]) := by
  have hal := h.frame_aligned hd
  have hne := (h.frame _ d hd).2
  have hfirst := firstIn_append_of_some hd
  have hdir : ∀ i < 1024, (s.store (d.newPt.toNat + 4 * ptIndex c.virt) (tableWord c)).dirEntry i =
      s.dirEntry i := fun i hi =>
    Function.update_of_ne (entry_ne h.aligned hal hi (ptIndex_lt _) (.inl hne.symm)) _ _
  refine ⟨h.aligned, h.args_append hphys hflags, ?_, ?_, ?_, ?_, ?_⟩
  · intro i hi hnone
    rw [hfirst] at hnone
    rw [hdir i hi]
    exact h.absent i hi hnone
  · intro i e he
    rw [hfirst] at he
    rw [hdir i (lt_of_firstIn he)]
    exact h.dir i e he
  · intro i e he
    rw [hfirst] at he
    exact h.frame i e he
  · intro i j e f he hf
    rw [hfirst] at he hf
    exact h.distinct i j e f he hf
  · intro virt e he
    rw [hfirst] at he
    rw [lastFor_append]
    by_cases hpage : c.virt >>> 12 = virt >>> 12
    · obtain ⟨hslot, hindex⟩ := page_eq_iff.mp hpage
      rw [← hslot, hd] at he
      cases he
      rw [if_pos hpage, ← hindex]
      exact Function.update_self _ _ _
    · have hother : e.newPt.toNat ≠ d.newPt.toNat ∨ ptIndex virt ≠ ptIndex c.virt := by
        by_cases hslot : pdIndex virt = pdIndex c.virt
        · right
          exact fun hindex => hpage (page_eq_iff.mpr ⟨hslot.symm, hindex.symm⟩)
        · left
          exact h.distinct _ _ e d he hd hslot
      rw [if_neg hpage, ← h.entry virt e he]
      exact Function.update_of_ne
        (entry_ne (h.frame_aligned he) hal (ptIndex_lt _) (ptIndex_lt _) hother) _ _

/-- The state with a new table. -/
def withTable (s : State) (c : Call) : State :=
  (s.zeroPage c.newPt.toNat).store (s.pageDirectory + 4 * pdIndex c.virt) (dirWord c)

/-- The state after a call that has made a table. -/
def withPage (s : State) (c : Call) : State :=
  (withTable s c).store (c.newPt.toNat + 4 * ptIndex c.virt) (tableWord c)

theorem withPage_word {a : Nat} (hout : ¬ (c.newPt.toNat ≤ a ∧ a < c.newPt.toNat + pageSize))
    (hslot : a ≠ s.pageDirectory + 4 * pdIndex c.virt) : (withPage s c).word a = s.word a := by
  have hentry : a ≠ c.newPt.toNat + 4 * ptIndex c.virt := fun heq => by
    have hlt := ptIndex_lt c.virt
    refine hout ⟨by omega, ?_⟩
    unfold pageSize
    omega
  exact (Function.update_of_ne hentry _ _).trans
    ((Function.update_of_ne hslot _ _).trans (if_neg hout))

theorem withPage_dirEntry (hpd : s.pageDirectory % 4096 = 0) (hal : c.newPt.toNat % 4096 = 0)
    (hdir : c.newPt.toNat ≠ s.pageDirectory) (hi : i < 1024) (hne : i ≠ pdIndex c.virt) :
    (withPage s c).dirEntry i = s.dirEntry i :=
  withPage_word (entry_outside hpd hal hi hdir.symm) (entry_ne hpd hpd hi (pdIndex_lt _) (.inr hne))

theorem withPage_dirEntry_self (hpd : s.pageDirectory % 4096 = 0) (hal : c.newPt.toNat % 4096 = 0)
    (hdir : c.newPt.toNat ≠ s.pageDirectory) :
    (withPage s c).dirEntry (pdIndex c.virt) = dirWord c := by
  have hne := entry_ne hpd hal (pdIndex_lt c.virt) (ptIndex_lt c.virt) (.inl hdir.symm)
  exact (Function.update_of_ne hne _ _).trans (Function.update_self _ _ _)

theorem withPage_entry (hpd : s.pageDirectory % 4096 = 0) (hal : c.newPt.toNat % 4096 = 0)
    (hdir : c.newPt.toNat ≠ s.pageDirectory) (virt : Word) :
    (withPage s c).word (c.newPt.toNat + 4 * ptIndex virt) =
      if ptIndex virt = ptIndex c.virt then tableWord c else 0 := by
  by_cases hindex : ptIndex virt = ptIndex c.virt
  · rw [if_pos hindex, hindex]
    exact Function.update_self _ _ _
  · have hne := entry_ne hal hal (ptIndex_lt virt) (ptIndex_lt c.virt) (.inr hindex)
    have hnedir := entry_ne hal hpd (ptIndex_lt virt) (pdIndex_lt c.virt) (.inl hdir)
    have hin : c.newPt.toNat ≤ c.newPt.toNat + 4 * ptIndex virt ∧
        c.newPt.toNat + 4 * ptIndex virt < c.newPt.toNat + pageSize := by
      have hlt := ptIndex_lt virt
      unfold pageSize
      omega
    rw [if_neg hindex]
    exact (Function.update_of_ne hne _ _).trans
      ((Function.update_of_ne hnedir _ _).trans (if_pos hin))

/-- The frame of a table is another one than a frame that no present entry leads to. -/
theorem Maps.frame_ne (h : Maps s l) {frame : Nat}
    (hfresh : ∀ i < 1024, s.dirEntry i &&& 1 ≠ 0 → tableOf (s.dirEntry i) ≠ frame)
    (hd : firstIn l i = some d) :
    d.newPt.toNat ≠ frame := by
  have hne := hfresh i (lt_of_firstIn hd) (by rw [h.dir i d hd]; exact dirWord_present d)
  rwa [h.dir i d hd, tableOf_dirWord (h.frame i d hd).1] at hne

theorem Maps.create (h : Maps s l) (hphys : c.phys &&& flagsMask = 0)
    (hflags : c.flags &&& ~~~flagsMask = 0) (hmask : c.newPt &&& flagsMask = 0)
    (hdir : c.newPt.toNat ≠ s.pageDirectory)
    (hfresh : ∀ i < 1024, s.dirEntry i &&& 1 ≠ 0 → tableOf (s.dirEntry i) ≠ c.newPt.toNat)
    (hnone : firstIn l (pdIndex c.virt) = none) : Maps (withPage s c) (l ++ [c]) := by
  have hal := aligned_of_mask hmask
  have hother : ∀ i < 1024, i ≠ pdIndex c.virt → (withPage s c).dirEntry i = s.dirEntry i :=
    fun i hi hne => withPage_dirEntry h.aligned hal hdir hi hne
  have hold : ∀ i e, firstIn l i = some e → e.newPt.toNat ≠ c.newPt.toNat :=
    fun i e he => h.frame_ne hfresh he
  refine ⟨h.aligned, h.args_append hphys hflags, ?_, ?_, ?_, ?_, ?_⟩
  · intro i hi hno
    rw [firstIn_append_of_none hnone] at hno
    by_cases heq : i = pdIndex c.virt
    · rw [if_pos heq] at hno
      cases hno
    · rw [if_neg heq] at hno
      rw [hother i hi heq]
      exact h.absent i hi hno
  · intro i e he
    obtain ⟨rfl, rfl⟩ | ⟨hi, he⟩ := firstIn_append_cases hnone he
    · exact withPage_dirEntry_self h.aligned hal hdir
    · rw [hother i (lt_of_firstIn he) hi]
      exact h.dir i e he
  · intro i e he
    obtain ⟨-, rfl⟩ | ⟨-, he⟩ := firstIn_append_cases hnone he
    · exact ⟨hmask, hdir⟩
    · exact h.frame i e he
  · intro i j e f he hf hij
    obtain ⟨hi, rfl⟩ | ⟨-, he₁⟩ := firstIn_append_cases hnone he
    · obtain ⟨hj, -⟩ | ⟨-, hf₁⟩ := firstIn_append_cases hnone hf
      · exact absurd (hi.trans hj.symm) hij
      · exact (hold j f hf₁).symm
    · obtain ⟨-, rfl⟩ | ⟨-, hf₁⟩ := firstIn_append_cases hnone hf
      · exact hold i e he₁
      · exact h.distinct i j e f he₁ hf₁ hij
  · intro virt e he
    rw [lastFor_append]
    obtain ⟨hi, rfl⟩ | ⟨hi, he⟩ := firstIn_append_cases hnone he
    · -- The page of the new table: no call has been for it before.
      rw [withPage_entry h.aligned hal hdir, lastFor_none (hi.symm ▸ hnone)]
      by_cases hpage : e.virt >>> 12 = virt >>> 12
      · rw [if_pos hpage, if_pos (page_eq_iff.mp hpage).2.symm]
        rfl
      · rw [if_neg hpage, if_neg (fun heq => hpage (page_eq_iff.mpr ⟨hi.symm, heq.symm⟩))]
        rfl
    · have hpage : ¬ c.virt >>> 12 = virt >>> 12 := fun heq => hi (page_eq_iff.mp heq).1.symm
      have heal := h.frame_aligned he
      rw [if_neg hpage, ← h.entry virt e he]
      exact withPage_word (entry_outside heal hal (ptIndex_lt _) (hold _ e he))
        (entry_ne heal h.aligned (ptIndex_lt _) (pdIndex_lt _) (.inl (h.frame _ e he).2))

/-- **A call** fails and changes nothing, or keeps the invariant. -/
theorem Maps.step (h : Maps s l) {e : Event} (hstep : system.step s e s') :
    (e.ok = false ∧ s' = s ∧ e.call.newPt = 0) ∨ (e.ok = true ∧ Maps s' (l ++ [e.call])) := by
  obtain ⟨hfresh, hphys, hflags, hcall⟩ := hstep
  have hslot := pdIndex_lt e.call.virt
  unfold mapPage ensureTable at hcall
  cases hfirst : firstIn l (pdIndex e.call.virt) with
  | none =>
    rw [if_pos (h.absent _ hslot hfirst)] at hcall
    by_cases hnull : e.call.newPt = 0
    · rw [if_pos hnull] at hcall
      obtain ⟨hok, hs⟩ := Prod.mk.inj hcall
      exact .inl ⟨hok.symm, hs.symm, hnull⟩
    · obtain ⟨hmask, hdir, htables⟩ := hfresh.resolve_left hnull
      rw [if_neg hnull] at hcall
      obtain ⟨hok, hs⟩ := Prod.mk.inj hcall
      have hentry : (withTable s e.call).dirEntry (pdIndex e.call.virt) = dirWord e.call :=
        Function.update_self _ _ _
      have htable : tableOf ((withTable s e.call).dirEntry (pdIndex e.call.virt)) =
          e.call.newPt.toNat := by
        rw [hentry, tableOf_dirWord hmask]
      refine .inr ⟨hok.symm, ?_⟩
      rw [← hs]
      show Maps ((withTable s e.call).store
        (tableOf ((withTable s e.call).dirEntry (pdIndex e.call.virt)) + 4 * ptIndex e.call.virt)
        (tableWord e.call)) (l ++ [e.call])
      rw [htable]
      exact h.create hphys hflags hmask hdir htables hfirst
  | some d =>
    have hentry := h.dir _ d hfirst
    have hpresent : ¬ s.dirEntry (pdIndex e.call.virt) &&& 1 = 0 := by
      rw [hentry]
      exact dirWord_present d
    rw [if_neg hpresent] at hcall
    obtain ⟨hok, hs⟩ := Prod.mk.inj hcall
    refine .inr ⟨hok.symm, ?_⟩
    rw [← hs, hentry, tableOf_dirWord (h.frame _ d hfirst).1]
    exact h.write hphys hflags hfirst

/-! ### Runs -/

theorem successes_cons (e : Event) (l : List Event) :
    successes (e :: l) = if e.ok then e.call :: successes l else successes l := by
  unfold successes
  rw [List.filter_cons]
  split <;> rfl

/-- **After every run** the tables hold the successful calls. -/
theorem Maps.run {es : List Event} (hrun : system.Run s es s') {l : List Call} (h : Maps s l) :
    Maps s' (l ++ successes es) := by
  induction hrun generalizing l with
  | nil _ => rwa [show successes [] = [] from rfl, List.append_nil]
  | @cons _ _ _ e es hstep _ ih =>
    rw [successes_cons]
    obtain ⟨hok, hs, -⟩ | ⟨hok, hmaps⟩ := h.step hstep
    · rw [hok, if_neg (by decide)]
      exact ih (hs ▸ h)
    · have hrest := ih hmaps
      rw [List.append_assoc, List.singleton_append] at hrest
      rwa [hok, if_pos rfl]

theorem run_maps {es : List Event} (h : Empty s) (hrun : system.Run s es s') :
    Maps s' (successes es) :=
  (Maps.init h).run hrun

/-! ### Translations -/

theorem Maps.tableEntry_eq (h : Maps s l) (hd : firstIn l (pdIndex virt) = some d) :
    s.tableEntry virt = entryWord (lastFor l virt) := by
  unfold State.tableEntry
  rw [h.dir _ d hd, tableOf_dirWord (h.frame _ d hd).1]
  exact h.entry virt d hd

theorem firstIn_of_lastFor (h : lastFor l virt = some c) :
    ∃ d, firstIn l (pdIndex virt) = some d := by
  cases hd : firstIn l (pdIndex virt) with
  | none => rw [lastFor_none hd] at h; cases h
  | some d => exact ⟨d, rfl⟩

theorem Maps.isMapped_eq (h : Maps s l) (virt : Word) :
    isMapped s virt = (lastFor l virt).isSome := by
  unfold isMapped
  cases hd : firstIn l (pdIndex virt) with
  | none => rw [if_pos (h.absent _ (pdIndex_lt virt) hd), lastFor_none hd]; rfl
  | some d =>
    have hpresent : ¬ s.dirEntry (pdIndex virt) &&& 1 = 0 := by
      rw [h.dir _ d hd]
      exact dirWord_present d
    rw [if_neg hpresent, h.tableEntry_eq hd]
    cases lastFor l virt with
    | none => rfl
    | some c =>
      show ((c.phys ||| c.flags ||| 1) &&& 1 != 0) = true
      rw [present_of_or]
      rfl

/-- **Walking the tables** gives what the last call for the page asked for. -/
theorem Maps.walk_eq (h : Maps s l) (virt : Word) :
    walk s virt = (lastFor l virt).map (fun c => (c.phys, c.flags ||| 1)) := by
  unfold walk
  rw [h.isMapped_eq]
  cases hlast : lastFor l virt with
  | none => rfl
  | some c =>
    obtain ⟨d, hd⟩ := firstIn_of_lastFor hlast
    obtain ⟨hphys, hflags⟩ := h.args c (lastFor_spec hlast).1
    have hentry : s.tableEntry virt = c.phys ||| (c.flags ||| 1) := by
      rw [h.tableEntry_eq hd, hlast, ← BitVec.or_assoc]
      rfl
    rw [hentry, packed_high hphys (flags_or_one hflags), packed_low hphys (flags_or_one hflags)]
    rfl

theorem lastFor_isSome_iff : (lastFor l virt).isSome = true ↔
    ∃ c ∈ l, c.virt >>> 12 = virt >>> 12 := by
  unfold lastFor
  rw [List.find?_isSome]
  simp

/-- **The page-table law**: after every run a page is mapped if a successful call was for it,
walking the tables gives the page and the flags of the last one, and a further call changes no other
page, and nothing at all when it fails. -/
theorem mapping_law {es : List Event} (h : Empty s) (hrun : system.Run s es s') :
    (∀ virt, isMapped s' virt = true ↔ ∃ c ∈ successes es, c.virt >>> 12 = virt >>> 12) ∧
    (∀ virt, walk s' virt = (lastFor (successes es) virt).map (fun c => (c.phys, c.flags ||| 1))) ∧
    ∀ e s₂, system.step s' e s₂ →
      (∀ virt : Word, e.call.virt >>> 12 ≠ virt >>> 12 → walk s₂ virt = walk s' virt) ∧
        (e.ok = false → s₂ = s') := by
  have hmaps := run_maps h hrun
  refine ⟨fun virt => ?_, hmaps.walk_eq, fun e s₂ hstep => ?_⟩
  · rw [hmaps.isMapped_eq, lastFor_isSome_iff]
  · obtain ⟨-, hs, -⟩ | ⟨hok, hmaps₂⟩ := hmaps.step hstep
    · exact ⟨fun virt _ => by rw [hs], fun _ => hs⟩
    · refine ⟨fun virt hne => ?_, fun hfail => by rw [hok] at hfail; cases hfail⟩
      rw [hmaps₂.walk_eq, hmaps.walk_eq, lastFor_append, if_neg hne]

/-- A directory at `0x1000`, in memory that is zero. -/
def blankTables : State := ⟨0x1000, fun _ => 0⟩

theorem blankTables_absent (i : Nat) : blankTables.dirEntry i &&& 1 = 0 := BitVec.zero_and

theorem empty_blankTables : Empty blankTables := ⟨rfl, fun i _ => blankTables_absent i⟩

/-- The page `0x5000` at `0x400000`, with a table at `0x2000`. -/
def userPage : Call := ⟨0x400000, 0x5000, 6, 0x2000⟩

theorem step_userPage :
    system.step blankTables ⟨userPage, true⟩ (mapPage blankTables userPage).2 := by
  have hfresh : Fresh blankTables userPage.newPt :=
    .inr ⟨by decide, by decide, fun i _ hpresent => absurd (blankTables_absent i) hpresent⟩
  have hok : (mapPage blankTables userPage).1 = true := by
    unfold mapPage ensureTable
    rw [if_pos (blankTables_absent _), if_neg (by decide)]
  exact ⟨hfresh, by decide, by decide, Prod.ext hok rfl⟩

/-- The page `0x6000` behind it, in the same table, and a page for which there is no table. -/
def nextPage : Call := ⟨0x401000, 0x6000, 2, 0⟩

def refusedPage : Call := ⟨0x800000, 0x7000, 2, 0⟩

theorem run_threePages : ∃ s, system.Run blankTables
    [⟨userPage, true⟩, ⟨nextPage, true⟩, ⟨refusedPage, false⟩] s := by
  obtain ⟨s₁, h₁⟩ : ∃ s₁, system.step blankTables ⟨userPage, true⟩ s₁ := ⟨_, step_userPage⟩
  have hmaps₁ : Maps s₁ [userPage] := run_maps empty_blankTables (.cons h₁ (.nil _))
  have hpresent : ¬ s₁.dirEntry (pdIndex nextPage.virt) &&& 1 = 0 := by
    rw [hmaps₁.dir _ userPage (by decide)]
    exact dirWord_present userPage
  have hok : (mapPage s₁ nextPage).1 = true := by
    unfold mapPage ensureTable
    rw [if_neg hpresent]
  have h₂ : system.step s₁ ⟨nextPage, true⟩ (mapPage s₁ nextPage).2 :=
    ⟨.inl rfl, by decide, by decide, Prod.ext hok rfl⟩
  have hmaps₂ : Maps (mapPage s₁ nextPage).2 [userPage, nextPage] :=
    run_maps empty_blankTables (.cons h₁ (.cons h₂ (.nil _)))
  have hfail : mapPage (mapPage s₁ nextPage).2 refusedPage = (false, (mapPage s₁ nextPage).2) := by
    have hnone : ensureTable (mapPage s₁ nextPage).2 refusedPage = none := by
      rw [ensureTable, if_pos (hmaps₂.absent _ (by decide) (by decide)), if_pos (by decide)]
    rw [mapPage, hnone]
  exact ⟨_, .cons h₁ (.cons h₂ (.cons ⟨.inl rfl, by decide, by decide, hfail⟩ (.nil _)))⟩

/-- Two pages are mapped, and the call for the third fails. -/
theorem mapping_law_threePages : ∃ s, system.Run blankTables
      [⟨userPage, true⟩, ⟨nextPage, true⟩, ⟨refusedPage, false⟩] s ∧
    walk s 0x400123 = some (0x5000, 7) ∧ walk s 0x401456 = some (0x6000, 3) ∧
      walk s 0x800000 = none := by
  obtain ⟨s, hrun⟩ := run_threePages
  have hwalk := (mapping_law empty_blankTables hrun).2.1
  refine ⟨s, hrun, ?_, ?_, ?_⟩
  · rw [hwalk]
    decide
  · rw [hwalk]
    decide
  · rw [hwalk]
    decide

/-! ### Permissions -/

/-- The permission bits of flags. -/
def rights (flags : Word) : Word := flags &&& (pageRw ||| pageUser)

theorem rights_or (a b : Word) : rights (a ||| b) = rights a ||| rights b := by
  unfold rights
  ext i hi
  simp only [BitVec.getElem_and, BitVec.getElem_or, Bool.and_or_distrib_right]

theorem rights_and_mask (a : Word) : rights (a &&& flagsMask) = rights a := by
  unfold rights
  rw [BitVec.and_assoc]
  congr 1

theorem rights_or_one (a : Word) : rights (a ||| 1) = rights a := by
  rw [rights_or, show rights 1 = 0#32 from by decide, BitVec.or_zero]

theorem Maps.permissions_eq (h : Maps s l) (hd : firstIn l (pdIndex virt) = some d)
    (hc : lastFor l virt = some c) : permissions s virt = rights d.flags &&& rights c.flags := by
  have hdflags := (h.args d (firstIn_spec hd).1).2
  have hcargs := h.args c (lastFor_spec hc).1
  have hdir : rights (s.dirEntry (pdIndex virt)) = rights d.flags := by
    rw [h.dir _ d hd, ← rights_and_mask, dirWord_flags (h.frame _ d hd).1 hdflags, rights_or_one]
  have htable : rights (s.tableEntry virt) = rights c.flags := by
    have hlow : tableWord c &&& flagsMask = c.flags ||| 1 := by
      unfold tableWord
      rw [BitVec.or_assoc, packed_low hcargs.1 (flags_or_one hcargs.2)]
    rw [h.tableEntry_eq hd, hc]
    show rights (tableWord c) = _
    rw [← rights_and_mask, hlow, rights_or_one]
  rw [← hdir, ← htable]
  unfold permissions rights
  ext i hi
  simp only [BitVec.getElem_and]
  generalize (s.dirEntry (pdIndex virt))[i] = x
  generalize (s.tableEntry virt)[i] = y
  generalize (pageRw ||| pageUser)[i] = z
  cases x <;> cases y <;> cases z <;> rfl

/-- The page of `virt` has all the rights that `c` asked for. -/
def Grants (s : State) (c : Call) (virt : Word) : Prop :=
  rights c.flags &&& ~~~permissions s virt = 0

/-- `c` asks for no right that `d` did not ask for. -/
def Covers (d c : Call) : Prop := rights c.flags &&& ~~~rights d.flags = 0

instance (d c : Call) : Decidable (Covers d c) := inferInstanceAs (Decidable (_ = _))

theorem Maps.grants_iff (h : Maps s l) (hd : firstIn l (pdIndex virt) = some d)
    (hc : lastFor l virt = some c) : Grants s c virt ↔ Covers d c := by
  unfold Grants Covers
  rw [h.permissions_eq hd hc]
  have heq : rights c.flags &&& ~~~(rights d.flags &&& rights c.flags) =
      rights c.flags &&& ~~~rights d.flags := by
    ext i hi
    simp only [BitVec.getElem_and, BitVec.getElem_not]
    generalize (rights c.flags)[i] = x
    generalize (rights d.flags)[i] = y
    cases x <;> cases y <;> rfl
  rw [heq]

/-- With a page for every table all calls succeed. -/
theorem successes_eq {es : List Event} (hrun : system.Run s es s') {l : List Call} (h : Maps s l)
    (hpages : ∀ e ∈ es, e.call.newPt ≠ 0) : successes es = es.map Event.call := by
  induction hrun generalizing l with
  | nil _ => rfl
  | @cons _ _ _ e es hstep _ ih =>
    obtain ⟨-, -, hnull⟩ | ⟨hok, hmaps⟩ := h.step hstep
    · exact absurd hnull (hpages e List.mem_cons_self)
    · rw [successes_cons, hok, if_pos rfl, List.map_cons,
        ih hmaps (fun f hf => hpages f (List.mem_cons_of_mem _ hf))]

theorem firstIn_prefix {l' : List Call} (h : firstIn l i = some d) :
    firstIn (l ++ l') i = some d := by
  unfold firstIn at *
  rw [List.find?_append, h]
  rfl

/-- **The rights of every page are those asked for**, after every call of a run, exactly when every
call asks for no right that the first call for its directory entry did not ask for. -/
theorem granted_iff {es : List Event} (h : Empty s) (hrun : system.Run s es s')
    (hpages : ∀ e ∈ es, e.call.newPt ≠ 0) :
    (∀ pre post s₁, es = pre ++ post → system.Run s pre s₁ →
      ∀ virt c, lastFor (pre.map Event.call) virt = some c → Grants s₁ c virt) ↔
    ∀ c ∈ es.map Event.call, ∀ d, firstIn (es.map Event.call) (pdIndex c.virt) = some d →
      Covers d c := by
  have hmaps : ∀ pre post s₁, es = pre ++ post → system.Run s pre s₁ →
      Maps s₁ (pre.map Event.call) := by
    intro pre post s₁ heq hpre
    have hok := successes_eq hpre (Maps.init h) fun e he =>
      hpages e (by rw [heq]; exact List.mem_append_left _ he)
    exact hok ▸ run_maps h hpre
  constructor
  · intro hall c hc d hd
    obtain ⟨e, he, rfl⟩ := List.mem_map.mp hc
    obtain ⟨pre, post, rfl⟩ := List.append_of_mem he
    have heq : pre ++ e :: post = (pre ++ [e]) ++ post := by simp
    rw [heq] at hrun
    obtain ⟨s₁, hpre, -⟩ := hrun.split
    have hlast : lastFor ((pre ++ [e]).map Event.call) e.call.virt = some e.call := by
      rw [List.map_append, List.map_singleton, lastFor_append, if_pos rfl]
    obtain ⟨d', hd'⟩ := firstIn_of_lastFor hlast
    have hsame : firstIn ((pre ++ e :: post).map Event.call) (pdIndex e.call.virt) = some d' := by
      rw [heq, List.map_append]
      exact firstIn_prefix hd'
    rw [hsame] at hd
    cases hd
    exact ((hmaps _ post s₁ heq hpre).grants_iff hd' hlast).mp (hall _ post s₁ heq hpre _ _ hlast)
  · intro hall pre post s₁ heq hpre virt c hc
    obtain ⟨d, hd⟩ := firstIn_of_lastFor hc
    obtain ⟨hmem, hpage⟩ := lastFor_spec hc
    have hslot : pdIndex c.virt = pdIndex virt := (page_eq_iff.mp hpage).1
    have hfirst : firstIn (es.map Event.call) (pdIndex c.virt) = some d := by
      rw [heq, List.map_append, hslot]
      exact firstIn_prefix hd
    have hin : c ∈ es.map Event.call := by
      rw [heq, List.map_append]
      exact List.mem_append_left _ hmem
    exact ((hmaps pre post s₁ heq hpre).grants_iff hd hc).mpr (hall c hin d hfirst)

theorem granted_iff_userPage : Empty blankTables ∧
    ∃ s, system.Run blankTables [⟨userPage, true⟩] s ∧
    Grants s userPage 0x400000 := by
  have hrun := System.Run.cons step_userPage (.nil _)
  refine ⟨empty_blankTables, _, hrun, ?_⟩
  refine (granted_iff empty_blankTables hrun (fun e he => ?_)).mpr (fun c hc d hd => ?_)
    _ [] _ (List.append_nil _).symm hrun _ _ (by decide)
  · rw [List.mem_singleton.mp he]
    decide
  · rw [List.mem_singleton.mp hc] at hd ⊢
    cases hd
    decide

/-- A page for the kernel, read-only, in the slot of `userPage`. -/
def kernelPage : Call := ⟨0x401000, 0x6000, 0, 0x3000⟩

theorem step_kernelPage :
    system.step blankTables ⟨kernelPage, true⟩ (mapPage blankTables kernelPage).2 := by
  have hfresh : Fresh blankTables kernelPage.newPt :=
    .inr ⟨by decide, by decide, fun i _ hpresent => absurd (blankTables_absent i) hpresent⟩
  have hok : (mapPage blankTables kernelPage).1 = true := by
    unfold mapPage ensureTable
    rw [if_pos (blankTables_absent _), if_neg (by decide)]
  exact ⟨hfresh, by decide, by decide, Prod.ext hok rfl⟩

theorem fresh_userPage (h : Maps s [kernelPage]) (hdir : s.pageDirectory = 0x1000) :
    Fresh s userPage.newPt := by
  refine .inr ⟨by decide, by rw [hdir]; decide, fun i hi hpresent => ?_⟩
  cases hd : firstIn [kernelPage] i with
  | none => exact absurd (h.absent i hi hd) hpresent
  | some d =>
    have hframe := h.frame i d hd
    rw [h.dir i d hd, tableOf_dirWord hframe.1, List.mem_singleton.mp (firstIn_spec hd).1]
    decide

/-- **A page for the user is not granted** to the user behind a page for the kernel. -/
theorem user_page_denied : ∃ s s₂ : State, ∃ c₁ c₂ : Call, Empty s ∧
    system.Run s [⟨c₁, true⟩, ⟨c₂, true⟩] s₂ ∧ c₁.newPt ≠ 0 ∧ c₂.newPt ≠ 0 ∧
    c₂.flags = pageRw ||| pageUser ∧ ¬ Grants s₂ c₂ c₂.virt := by
  have hfirst := step_kernelPage
  have hrun₁ := System.Run.cons hfirst (.nil _)
  have hmaps₁ := run_maps empty_blankTables hrun₁
  have hdir : (mapPage blankTables kernelPage).2.pageDirectory = 0x1000 := by
    unfold mapPage ensureTable
    rw [if_pos (blankTables_absent _), if_neg (by decide)]
    rfl
  generalize (mapPage blankTables kernelPage).2 = s₁ at hfirst hmaps₁ hdir
  have hpresent : ¬ s₁.dirEntry (pdIndex userPage.virt) &&& 1 = 0 := by
    rw [hmaps₁.dir _ kernelPage (by decide)]
    exact dirWord_present _
  have hok : (mapPage s₁ userPage).1 = true := by
    unfold mapPage ensureTable
    rw [if_neg hpresent]
  have hsecond : system.step s₁ ⟨userPage, true⟩ (mapPage s₁ userPage).2 :=
    ⟨fresh_userPage hmaps₁ hdir, by decide, by decide, Prod.ext hok rfl⟩
  have hrun := System.Run.cons hfirst (.cons hsecond (.nil _))
  have hmaps := run_maps empty_blankTables hrun
  refine ⟨blankTables, _, kernelPage, userPage, empty_blankTables, hrun, by decide,
    by decide, rfl, ?_⟩
  rw [hmaps.grants_iff (d := kernelPage) (by decide) (by decide)]
  decide

end CobraOS.Vmm
