import CobraOS.Boot.Owners

/-!
# The bounds of the arrays of the page allocator

`pmm_bitmap` has bits for `MAX_FRAMES + 32` frames, and no function asks whether a frame has one.
The page loop of an entry visits the addresses of `Entry.Visits`; when it wraps, it visits every
address with the remainder of its base and never ends.  So the accesses stay inside the arrays
exactly for the maps of `InBounds` (`bounds_iff`).

The null pointer of an empty stack is the address of the first page.  It is only returned for an
empty stack when the map does not give that page (`null_iff`).
-/

namespace CobraOS.Boot

open Base Pmm

/-- The page loop of the entry wraps, and never ends. -/
def Entry.Endless (e : Entry) : Prop :=
  e.type = memoryAvailable ∧ 4294967296 ≤ e.baseAddrLow + pageSize * e.count

/-- The page loop of the entry comes to `x` and does not skip it. -/
structure Entry.Visits (kernelPhysEnd : Nat) (e : Entry) (x : Nat) : Prop where
  available : e.type = memoryAvailable
  address : x < 4294967296
  aligned : x % pageSize = e.baseAddrLow % pageSize
  before : x < e.stop
  after : e.baseAddrLow ≤ x ∨ e.Endless
  off : offKernel kernelPhysEnd x = true

/-- **The maps that stay in the bitmap**: every address that is visited has a bit.  What comes
behind an entry without an end is not visited. -/
def InBounds (kernelPhysEnd : Nat) : List Entry → Prop
  | [] => True
  | e :: es => (∀ x, e.Visits kernelPhysEnd x → pageToIndex x < bitmapFrames) ∧
      (¬ e.Endless → InBounds kernelPhysEnd es)

section

variable {s s' : Pmm.State} {fuel kernelPhysEnd : Nat}

/-! ### The page loop -/

theorem pageBody_agree (hs : Agree s) {addr : Nat}
    (hin : offKernel kernelPhysEnd addr = true → pageToIndex addr < bitmapFrames) :
    ∃ s', pageBody kernelPhysEnd s addr = .ok s' ∧ Agree s' := by
  cases hoff : offKernel kernelPhysEnd addr with
  | false => exact ⟨s, pageBody_skip hoff, hs⟩
  | true =>
    obtain ⟨s', hr, hs', -⟩ := freePage_ok hs (hin hoff)
    exact ⟨s', (pageBody_free hoff).trans hr, hs'⟩

/-- The loop stays in the bitmap if the addresses `V` it runs through do. -/
theorem pagesLoop_inBounds {stop : Nat} {V : Nat → Prop}
    (hnext : ∀ x, V x → x < stop → V ((x + pageSize) % 4294967296))
    (hin : ∀ x, V x → x < stop → offKernel kernelPhysEnd x = true → pageToIndex x < bitmapFrames) :
    ∀ (fuel addr : Nat) (s : Pmm.State), Agree s → V addr →
      pagesLoop kernelPhysEnd stop fuel addr s = .error .endless ∨
        ∃ s', pagesLoop kernelPhysEnd stop fuel addr s = .ok s' ∧ Agree s' := by
  intro fuel
  induction fuel with
  | zero => exact fun _ _ _ _ => .inl rfl
  | succ fuel ih =>
    intro addr s hs hV
    by_cases hlt : addr < stop
    · obtain ⟨s₁, hr, hs₁⟩ := pageBody_agree hs (hin addr hV hlt)
      rw [pagesLoop, if_pos hlt]
      simp only [hr, bind, Except.bind]
      exact ih _ s₁ hs₁ (hnext addr hV hlt)
    · exact .inr ⟨s, by rw [pagesLoop, if_neg hlt], hs⟩

theorem pagesLoop_reaches {stop N : Nat} : ∀ (n addr : Nat), addr < 4294967296 →
    (∀ i ≤ n, (addr + pageSize * i) % 4294967296 < stop) →
    (∀ fuel, N ≤ fuel → ∃ s, Agree s ∧ pagesLoop kernelPhysEnd stop fuel addr s ≠
      .error .outOfBounds) →
    offKernel kernelPhysEnd ((addr + pageSize * n) % 4294967296) = true →
    pageToIndex ((addr + pageSize * n) % 4294967296) < bitmapFrames := by
  intro n
  induction n with
  | zero =>
    intro addr ha hbefore hrun hoff
    have hlt := hbefore 0 (Nat.le_refl _)
    simp only [Nat.mul_zero, Nat.add_zero, Nat.mod_eq_of_lt ha] at hlt hoff ⊢
    by_contra hbad
    obtain ⟨s, hs, hne⟩ := hrun (N + 1) (Nat.le_succ N)
    refine hne ?_
    rw [pagesLoop, if_pos hlt]
    simp only [pageBody_free hoff, freePage_error (Nat.le_of_not_lt hbad), bind, Except.bind]
  | succ n ih =>
    intro addr ha hbefore hrun hoff
    have hlt := hbefore 0 (Nat.zero_le _)
    simp only [Nat.mul_zero, Nat.add_zero, Nat.mod_eq_of_lt ha] at hlt
    have hshift : ∀ i, ((addr + pageSize) % 4294967296 + pageSize * i) % 4294967296 =
        (addr + pageSize * (i + 1)) % 4294967296 := by
      intro i
      have hsum : addr + pageSize + pageSize * i = addr + (pageSize * i + pageSize) := by omega
      rw [Nat.mod_add_mod, Nat.mul_succ, hsum]
    rw [← hshift n] at hoff ⊢
    refine ih _ (Nat.mod_lt _ (by decide)) (fun i hi => ?_) (fun fuel hfuel => ?_) hoff
    · rw [hshift]
      exact hbefore (i + 1) (by omega)
    · obtain ⟨s, hs, hne⟩ := hrun (fuel + 1) (by omega)
      have hin : offKernel kernelPhysEnd addr = true → pageToIndex addr < bitmapFrames := by
        intro hoff
        by_contra hbad
        refine hne ?_
        rw [pagesLoop, if_pos hlt]
        simp only [pageBody_free hoff, freePage_error (Nat.le_of_not_lt hbad), bind, Except.bind]
      obtain ⟨s₁, hr, hs₁⟩ := pageBody_agree hs hin
      refine ⟨s₁, hs₁, fun herr => hne ?_⟩
      rw [pagesLoop, if_pos hlt]
      simp only [hr, bind, Except.bind]
      exact herr

/-! ### An entry -/

/-- The addresses that the loop of an entry runs through. -/
def Entry.Along (e : Entry) (x : Nat) : Prop :=
  x < 4294967296 ∧ x % pageSize = e.baseAddrLow % pageSize ∧ (e.baseAddrLow ≤ x ∨ e.Endless)

theorem Entry.stop_lt (e : Entry) : e.stop < 4294967296 := Nat.mod_lt _ (by decide)

theorem Entry.Along.next {e : Entry} {x : Nat} (ht : e.type = memoryAvailable) (h : e.Along x)
    (hlt : x < e.stop) : e.Along ((x + pageSize) % 4294967296) := by
  obtain ⟨hx, hal, hafter⟩ := h
  refine ⟨Nat.mod_lt _ (by decide), ?_, ?_⟩
  · unfold pageSize at *
    omega
  by_cases hend : e.Endless
  · exact .inr hend
  · left
    have hbase := hafter.resolve_right hend
    have hnowrap : e.baseAddrLow + pageSize * e.count < 4294967296 := by
      by_contra hge
      exact hend ⟨ht, Nat.le_of_not_lt hge⟩
    have hcount : e.count = pageCount e.baseAddrLow e.stop := rfl
    unfold pageCount at hcount
    unfold pageSize at *
    omega

/-- **An entry stays in the bitmap** when the addresses it visits do. -/
theorem freeEntry_inBounds (hs : Agree s) {e : Entry} (hb : e.baseAddrLow < 4294967296)
    (hin : ∀ x, e.Visits kernelPhysEnd x → pageToIndex x < bitmapFrames) :
    freeEntry fuel kernelPhysEnd e s = .error .endless ∨
      ∃ s', freeEntry fuel kernelPhysEnd e s = .ok s' ∧ Agree s' ∧ ¬ e.Endless := by
  by_cases ht : e.type = memoryAvailable
  · have hfree :
        freeEntry fuel kernelPhysEnd e s = pagesLoop kernelPhysEnd e.stop fuel e.baseAddrLow s :=
      if_pos ht
    have hstart : e.Along e.baseAddrLow := ⟨hb, rfl, .inl (Nat.le_refl _)⟩
    rw [hfree]
    obtain hend | ⟨s', hr, hs'⟩ :=
      pagesLoop_inBounds (V := e.Along) (fun x hx hlt => hx.next ht hlt)
      (fun x hx hlt hoff => hin x ⟨ht, hx.1, hx.2.1, hlt, hx.2.2, hoff⟩) fuel _ s hs hstart
    · exact .inl hend
    · refine .inr ⟨s', hr, hs', fun hend => ?_⟩
      have hnowrap : e.baseAddrLow + pageSize * e.count < 4294967296 := pagesLoop_noWrap hb hr
      exact absurd hend.2 (Nat.not_le.mpr hnowrap)
  · exact .inr ⟨s, if_neg ht, hs, fun hend => ht hend.1⟩

/-- An entry that never leaves the bitmap visits only addresses with a bit. -/
theorem freeEntry_visits {e : Entry} {N : Nat} (hb : e.baseAddrLow < 4294967296)
    (hrun : ∀ fuel, N ≤ fuel → ∃ s, Agree s ∧ freeEntry fuel kernelPhysEnd e s ≠
      .error .outOfBounds) {x : Nat}
    (hx : e.Visits kernelPhysEnd x) : pageToIndex x < bitmapFrames := by
  have hrun' : ∀ fuel, N ≤ fuel → ∃ s, Agree s ∧
      pagesLoop kernelPhysEnd e.stop fuel e.baseAddrLow s ≠ .error .outOfBounds := by
    intro fuel hfuel
    obtain ⟨s, hs, hne⟩ := hrun fuel hfuel
    refine ⟨s, hs, ?_⟩
    rwa [freeEntry, if_pos hx.available] at hne
  have hat : ∀ n, (e.baseAddrLow + pageSize * n) % 4294967296 = x →
      (∀ i ≤ n, (e.baseAddrLow + pageSize * i) % 4294967296 < e.stop) →
        pageToIndex x < bitmapFrames := by
    intro n hn hbefore
    have hreach := pagesLoop_reaches n _ hb hbefore hrun'
    rw [hn] at hreach
    exact hreach hx.off
  have haddr := hx.address
  have hal := hx.aligned
  have hbefore := hx.before
  obtain hafter | hend := hx.after
  · refine hat ((x - e.baseAddrLow) / pageSize) ?_ (fun i hi => ?_)
    · unfold pageSize at *
      omega
    · unfold pageSize at *
      omega
  · -- the loop wraps, so all addresses with this remainder are before its end
    have hwraps := hend.2
    have hcount : e.count = pageCount e.baseAddrLow e.stop := rfl
    have hall : ∀ y < 4294967296, y % pageSize = e.baseAddrLow % pageSize → y < e.stop := by
      intro y hy hyr
      have hstop := e.stop_lt
      unfold pageCount at hcount
      unfold pageSize at *
      omega
    refine hat ((x + 4294967296 - e.baseAddrLow) / pageSize) ?_ (fun i _ => ?_)
    · unfold pageSize at *
      omega
    · refine hall _ (Nat.mod_lt _ (by decide)) ?_
      unfold pageSize at *
      omega

/-! ### The map -/

theorem mem_pageRange_lt : ∀ (n addr : Nat) {p : Nat}, p ∈ pageRange addr n →
    p < addr + pageSize * n
  | 0, _, _, h => absurd h List.not_mem_nil
  | n + 1, addr, p, h => by
    have hpos : 0 < pageSize := by decide
    rw [Nat.mul_succ]
    rcases List.mem_cons.mp h with rfl | h
    · omega
    · have := mem_pageRange_lt n _ h
      omega

/-- The second walk stays in the bitmap for a map of `InBounds`, and comes to its end only when no
entry is endless. -/
theorem freeEntries_inBounds : ∀ (es : List Entry) (s : Pmm.State), Agree s →
    (∀ e ∈ es, e.baseAddrLow < 4294967296) → InBounds kernelPhysEnd es →
    es.foldlM (fun s e => freeEntry fuel kernelPhysEnd e s) s ≠ .error .outOfBounds := by
  intro es
  induction es with
  | nil => exact fun s _ _ _ h => by cases h
  | cons e es ih =>
    intro s hs hb hin
    rw [List.foldlM_cons]
    obtain hend | ⟨s₁, hr, hs₁, hne⟩ := freeEntry_inBounds hs (hb e List.mem_cons_self) hin.1
    · rw [hend]
      exact fun h => by cases h
    · rw [hr]
      exact ih s₁ hs₁ (fun d hd => hb d (List.mem_cons_of_mem _ hd)) (hin.2 hne)

theorem inBounds_of_freeEntries : ∀ (es : List Entry)
    (N : Nat), (∀ e ∈ es, e.baseAddrLow < 4294967296) →
    (∀ fuel, N ≤ fuel → ∃ s, Agree s ∧
      es.foldlM (fun s e => freeEntry fuel kernelPhysEnd e s) s ≠ .error .outOfBounds) →
    InBounds kernelPhysEnd es := by
  intro es
  induction es with
  | nil => exact fun _ _ _ => trivial
  | cons e es ih =>
    intro N hb hrun
    have hbase := hb e List.mem_cons_self
    have hfirst : ∀ fuel, N ≤ fuel → ∃ s, Agree s ∧ freeEntry fuel kernelPhysEnd e s ≠
        .error .outOfBounds := by
      intro fuel hfuel
      obtain ⟨s, hs, hne⟩ := hrun fuel hfuel
      refine ⟨s, hs, fun herr => hne ?_⟩
      rw [List.foldlM_cons, herr]
      rfl
    have hvisits : ∀ x, e.Visits kernelPhysEnd x → pageToIndex x < bitmapFrames :=
      fun x hx => freeEntry_visits hbase hfirst hx
    refine ⟨hvisits, fun hend => ?_⟩
    refine ih (max N (e.count + 1)) (fun d hd => hb d (List.mem_cons_of_mem _ hd))
      (fun fuel hfuel => ?_)
    obtain ⟨s, hs, hne⟩ := hrun fuel (by omega)
    have hfrees : e.Frees fuel kernelPhysEnd := by
      have hnowrap : e.NoWrap := fun ht => Nat.lt_of_not_le (fun hge => hend ⟨ht, hge⟩)
      refine ⟨hnowrap, fun _ => by omega, fun p hp => ?_⟩
      unfold Entry.pages at hp
      split at hp
      · rename_i ht
        obtain ⟨hrange, hoff⟩ := List.mem_filter.mp hp
        obtain ⟨hle, hal⟩ := mem_pageRange _ _ hrange
        have hlt := mem_pageRange_lt _ _ hrange
        have hwrap := hnowrap ht
        refine hvisits p ⟨ht, by omega, hal, ?_, .inl hle, hoff⟩
        have hcount : e.count = pageCount e.baseAddrLow e.stop := rfl
        unfold pageCount at hcount
        unfold pageSize at *
        omega
      · exact absurd hp List.not_mem_nil
    obtain ⟨s₁, hr, hs₁, -⟩ := freeEntry_ok hs hfrees
    refine ⟨s₁, hs₁, fun herr => hne ?_⟩
    rw [List.foldlM_cons, hr]
    exact herr

end

section

variable {m : Mem} {mbi kernelPhysEnd : Nat} {es : List Entry}

theorem addLength_inBounds (m : Mem) (stop : Nat) : ∀ (fuel a total : Nat),
    mmapLoop m stop addLength fuel a total ≠ .error .outOfBounds := by
  intro fuel
  induction fuel with
  | zero => exact fun _ _ h => by cases h
  | succ fuel ih =>
    intro a total
    have hbody : ∃ t, addLength (mmapEntry m a) total = .ok t := by
      unfold addLength
      split <;> exact ⟨_, rfl⟩
    obtain ⟨t, ht⟩ := hbody
    rw [mmapLoop]
    split
    · simp only [ht, bind, Except.bind]
      exact ih _ t
    · exact fun h => by cases h

/-- **`parse_multiboot_info` stays inside the arrays** for the maps of `InBounds`, and for no
others. -/
theorem parse_inBounds_iff (hm : HasMap m mbi es) (s : State) :
    (∀ fuel, parseMultibootInfo fuel m kernelPhysEnd s mbi ≠ .error .outOfBounds) ↔
      InBounds kernelPhysEnd es := by
  have hbase := hm.entries.base_lt
  constructor
  · intro hall
    refine inBounds_of_freeEntries es (es.length + 1) hbase (fun fuel hfuel => ?_)
    obtain ⟨total, hr⟩ := parse_eq kernelPhysEnd s hm (show es.length < fuel by omega)
    refine ⟨pmmInit s.pmm total, pmmInit_agree _ _, fun herr => hall fuel ?_⟩
    rw [hr, herr]
    rfl
  · intro hin fuel herr
    by_cases hfuel : es.length < fuel
    · obtain ⟨total, hr⟩ := parse_eq kernelPhysEnd s hm hfuel
      have hne : es.foldlM (fun s e => freeEntry fuel kernelPhysEnd e s) (pmmInit s.pmm total) ≠
          .error .outOfBounds := freeEntries_inBounds es _ (pmmInit_agree _ _) hbase hin
      rw [hr] at herr
      cases hfold :
        es.foldlM (fun s e => freeEntry fuel kernelPhysEnd e s) (pmmInit s.pmm total) with
      | error err =>
        rw [hfold] at herr hne
        cases err with
        | outOfBounds => exact hne rfl
        | noMemoryMap => cases herr
        | endless => cases herr
      | ok pmm =>
        rw [hfold] at herr
        cases herr
    · unfold parseMultibootInfo at herr
      rw [if_neg hm.given] at herr
      simp only [Nat.mod_eq_of_lt hm.fits] at herr
      cases hwalk :
        mmapLoop m (mbiMmapAddr m mbi + mbiMmapLength m mbi) addLength fuel
          (mbiMmapAddr m mbi) 0 with
      | error err =>
        have hne := addLength_inBounds m (mbiMmapAddr m mbi + mbiMmapLength m mbi) fuel
          (mbiMmapAddr m mbi) 0
        rw [hwalk] at herr hne
        cases err with
        | outOfBounds => exact hne rfl
        | noMemoryMap => cases herr
        | endless => cases herr
      | ok total => exact hfuel (mmapLoop_fuel hm.fits es fuel _ _ _ hm.entries hwalk)

theorem obtained_inBitmap (hm : HasMap m mbi es) {s₀ : State} {w : World}
    (hw : (system m kernelPhysEnd s₀ mbi).Reach w) {p : Nat} (hp : p ∈ w.obtained) :
    pageToIndex p < bitmapFrames := by
  have hparse : Parses kernelPhysEnd es := by
    refine hw.induct (P := fun _ => Parses kernelPhysEnd es) ?_ (fun _ _ _ h _ => h)
    intro w hinit
    obtain ⟨fuel, s, h0, h, hr, -⟩ := hinit
    exact (parse_ok hm hr).1
  obtain ⟨o, ho, rfl⟩ := (reach_given hm hw).obtained p hp
  exact hparse.inBitmap o ho.mem

/-- **All accesses to `pmm_bitmap` and `free_stack` are inside them**, those of
`parse_multiboot_info` and those of the calls for the pages it gives, exactly for the maps of
`InBounds`. -/
theorem bounds_iff (hm : HasMap m mbi es) (s : State) :
    ((∀ fuel, parseMultibootInfo fuel m kernelPhysEnd s mbi ≠ .error .outOfBounds) ∧
      ∀ w, (system m kernelPhysEnd s mbi).Reach w → pmmAllocPage w.pmm ≠ .error .outOfBounds ∧
        ∀ p ∈ w.obtained, pmmIsPageFree w.pmm p ≠ .error .outOfBounds) ↔
          InBounds kernelPhysEnd es := by
  rw [← parse_inBounds_iff hm s]
  refine ⟨fun h => h.1, fun h => ⟨h, fun w hw => ⟨?_, fun p hp => ?_⟩⟩⟩
  · obtain ⟨-, hr⟩ | ⟨p, s', hr, -⟩ := pmmAllocPage_spec (reach_given hm hw).agree
    · rw [hr]
      exact fun herr => by cases herr
    · rw [hr]
      exact fun herr => by cases herr
  · unfold pmmIsPageFree bitmapTest
    rw [checkIndex_eq (obtained_inBitmap hm hw hp)]
    exact fun herr => by cases herr

theorem bounds_iff_highMemory :
    parseMultibootInfo 8 (mapOf highMemory) 0x180000 blank 4096 ≠ .error .outOfBounds := by
  have hmap : HasMap (mapOf highMemory) 4096 [highMemory] :=
    ⟨by decide, by decide, by decide, by decide, rfl⟩
  refine ((bounds_iff hmap blank).mpr ⟨fun x hx => ?_, fun _ => trivial⟩).1 8
  have hbefore : x < 0x202000 := hx.before
  unfold pageToIndex pageSize bitmapFrames bitmapWords maxFrames
  omega

/-- One page of available memory behind the frames that have a bit. -/
def farMemory : Entry := ⟨20, 0x8020000, 0, 0x1000, 0, 1⟩

/-- The page at `0x8020000` has no bit. -/
theorem farMemory_outOfBounds : ∃ m mbi kernelPhysEnd es s, HasMap m mbi es ∧
    ∃ fuel, parseMultibootInfo fuel m kernelPhysEnd s mbi = .error .outOfBounds := by
  have hmap : HasMap (mapOf farMemory) 4096 [farMemory] :=
    ⟨by decide, by decide, by decide, by decide, rfl⟩
  refine ⟨_, _, 0x200000, _, blank, hmap, ?_⟩
  by_contra hno
  obtain ⟨hvisits, -⟩ := (parse_inBounds_iff hmap blank).mp (fun fuel herr => hno ⟨fuel, herr⟩)
  have hat : farMemory.Visits 0x200000 0x8020000 :=
    ⟨rfl, by decide, rfl, by decide, .inl (Nat.le_refl _), by decide⟩
  exact absurd (hvisits _ hat) (by decide)

/-! ### The null pointer -/

/-- The pointer that `pmm_alloc_page` returns. -/
def pagePointer (page : Option Nat) : Nat := page.getD 0

theorem reach_popped {s₀ : State} : ∀ (n : Nat) (w : World), (Pmm.pages w.pmm).length = n →
    (system m kernelPhysEnd s₀ mbi).Reach w → Agree w.pmm → ∀ p ∈ Pmm.pages w.pmm,
    ∃ w' pmm, (system m kernelPhysEnd s₀ mbi).Reach w' ∧ Agree w'.pmm ∧
      pmmAllocPage w'.pmm = .ok (some p, pmm) := by
  intro n
  induction n with
  | zero =>
    intro w hn _ _ p hp
    rw [List.length_eq_zero_iff.mp hn] at hp
    exact absurd hp List.not_mem_nil
  | succ n ih =>
    intro w hn hw hag p hp
    obtain ⟨hnil, -⟩ | ⟨q, s', hr, hs', hpages⟩ := pmmAllocPage_spec hag
    · rw [hnil] at hp
      exact absurd hp List.not_mem_nil
    · have hstep : (system m kernelPhysEnd s₀ mbi).Reach ⟨s', w.heap, q :: w.obtained⟩ :=
        hw.step (e := Op.allocPage) ⟨some q, s', hr, rfl⟩
      rw [hpages] at hp
      obtain hp | hp := List.mem_append.mp hp
      · refine ih _ ?_ hstep hs' p hp
        rw [hpages, List.length_append, List.length_singleton] at hn
        exact Nat.succ_injective hn
      · rw [List.mem_singleton.mp hp]
        exact ⟨w, s', hw, hag, hr⟩

theorem pages_nil_iff {s : Pmm.State} (hs : Agree s) : Pmm.pages s = [] ↔
    pmmGetFreePageCount s = 0 := by
  rw [← List.length_eq_zero_iff, pages_length]
  unfold pmmGetFreePageCount
  rw [hs.count]

/-- **The null pointer means that there is no free page**, in every run, exactly for the maps that
can be parsed and do not give the page at address `0`. -/
theorem null_iff (hm : HasMap m mbi es) (s : State) :
    ((∃ fuel s', parseMultibootInfo fuel m kernelPhysEnd s mbi = .ok s') ∧
      ∀ w, (system m kernelPhysEnd s mbi).Reach w → ∃ page pmm, pmmAllocPage w.pmm =
        .ok (page, pmm) ∧
        (pagePointer page = 0 ↔ pmmGetFreePageCount w.pmm = 0) ∧
          (pagePointer page = 0 → pmm = w.pmm)) ↔
      Parses kernelPhysEnd es ∧ ∀ o, First (offers kernelPhysEnd es) o → o.page ≠ 0 := by
  constructor
  · intro hall
    obtain ⟨⟨fuel, s', hr⟩, hruns⟩ := hall
    obtain ⟨hparse, hag, hpages⟩ := parse_ok hm hr
    refine ⟨hparse, fun o ho hzero => ?_⟩
    obtain ⟨h, hh, -⟩ := Heap.kmallocInit_spec Heap.blank
    have hw : (system m kernelPhysEnd s mbi).Reach ⟨s'.pmm, ⟨h, []⟩, []⟩ :=
      .init ⟨fuel, s', Heap.blank, h, hr, hh, rfl⟩
    have hmem : 0 ∈ Pmm.pages s'.pmm := by
      rw [hpages]
      exact mem_stack.mpr ⟨o, ho, hzero⟩
    obtain ⟨w', pmm, hw', hag', hpop⟩ := reach_popped _ _ rfl hw hag 0 hmem
    obtain ⟨page, pmm', hcall, hiff, -⟩ := hruns w' hw'
    rw [hpop] at hcall
    cases hcall
    obtain ⟨hnil, hr'⟩ | ⟨p, s₁, hr', -, hsplit⟩ := pmmAllocPage_spec hag'
    · rw [hpop] at hr'
      cases hr'
    · have hnil := (pages_nil_iff hag').mpr (hiff.mp rfl)
      rw [hsplit] at hnil
      exact absurd hnil (by simp)
  · intro hmap
    obtain ⟨hparse, hfirst⟩ := hmap
    obtain ⟨fuel, s', hr, -⟩ := parse_total hm hparse s
    refine ⟨⟨fuel, s', hr⟩, fun w hw => ?_⟩
    have hgiven := reach_given hm hw
    obtain ⟨hnil, hcall⟩ | ⟨p, pmm, hcall, -, hpages⟩ := pmmAllocPage_spec hgiven.agree
    · exact ⟨none, w.pmm, hcall, ⟨fun _ => (pages_nil_iff hgiven.agree).mp hnil, fun _ => rfl⟩,
        fun _ => rfl⟩
    · have hne : p ≠ 0 := by
        obtain ⟨o, ho, hpage⟩ := hgiven.pages p (by rw [hpages]; simp)
        exact hpage ▸ hfirst o ho
      refine ⟨some p, pmm, hcall, ⟨fun hzero => absurd hzero hne, fun hcount => ?_⟩,
        fun hzero => absurd hzero hne⟩
      have hnil := (pages_nil_iff hgiven.agree).mpr hcount
      rw [hpages] at hnil
      exact absurd hnil (by simp)

theorem null_iff_highMemory : HasMap (mapOf highMemory) 4096 [highMemory] ∧
    ∀ w, (system (mapOf highMemory) 0x180000 blank 4096).Reach w → ∃ page pmm,
      pmmAllocPage w.pmm = .ok (page, pmm) ∧
        (pagePointer page = 0 ↔ pmmGetFreePageCount w.pmm = 0) := by
  have hmap : HasMap (mapOf highMemory) 4096 [highMemory] :=
    ⟨by decide, by decide, by decide, by decide, rfl⟩
  have hparse : Parses 0x180000 [highMemory] := by
    refine ⟨fun e he _ => ?_, by decide⟩
    rw [List.mem_singleton.mp he]
    decide
  have hoffers : ∀ o ∈ offers 0x180000 [highMemory], o.page ≠ 0 := by decide
  refine ⟨hmap, fun w hw => ?_⟩
  obtain ⟨page, pmm, hcall, hiff, -⟩ :=
    ((null_iff hmap blank).mpr ⟨hparse, fun o ho => hoffers o ho.mem⟩).2 w hw
  exact ⟨page, pmm, hcall, hiff⟩

/-- The first page is handed out as the null pointer, while a page is free. -/
theorem lowMemory_null : ∃ m mbi kernelPhysEnd es s w page pmm, HasMap m mbi es ∧
    (system m kernelPhysEnd s mbi).Reach w ∧ pmmAllocPage w.pmm = .ok (page, pmm) ∧
      pagePointer page = 0 ∧
      pmmGetFreePageCount w.pmm ≠ 0 ∧ pmm ≠ w.pmm := by
  obtain ⟨fuel, s, hr, hag, hpages⟩ := parse_total lowMemory_map lowMemory_parses blank
  obtain ⟨h, hh, -⟩ := Heap.kmallocInit_spec Heap.blank
  have hw : (system (mapOf lowMemory) 0x200000 blank 4096).Reach ⟨s.pmm, ⟨h, []⟩, []⟩ :=
    .init ⟨fuel, s, Heap.blank, h, hr, hh, rfl⟩
  have hmem : 0 ∈ Pmm.pages s.pmm := by
    rw [hpages]
    decide +kernel
  obtain ⟨w', pmm, hw', hag', hpop⟩ := reach_popped _ _ rfl hw hag 0 hmem
  obtain ⟨-, hr'⟩ | ⟨p, s₁, hr', hag₁, hsplit⟩ := pmmAllocPage_spec hag'
  · rw [hpop] at hr'
    cases hr'
  · rw [hpop] at hr'
    cases hr'
    have hne : Pmm.pages w'.pmm ≠ [] := by
      rw [hsplit]
      simp
    refine ⟨_, _, _, _, _, w', some 0, pmm, lowMemory_map, hw', hpop, rfl, ?_, fun heq => ?_⟩
    · exact fun hzero => hne ((pages_nil_iff hag').mpr hzero)
    · rw [heq] at hsplit
      exact absurd (congrArg List.length hsplit) (by simp)

end

end CobraOS.Boot
