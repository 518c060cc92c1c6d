import CobraOS.Boot.Multiboot
import CobraOS.Pmm.Agreement

/-!
# The pages that a memory map gives

`offers kernelPhysEnd es` are the pages that the second walk gives to the page allocator, each with
the entry it comes from.  When the loops end and the frames are in the bitmap, the stack is the
result of pushing them in turn (`parse_ok`, `parse_total`), so it holds the first page offered for
each of the first `MAX_FRAMES` frames (`mem_foldl_freed`).
-/

namespace CobraOS.Boot

open Base Pmm

/-- The iterations of the page loop from `addr` to `stop`. -/
def pageCount (addr stop : Nat) : Nat := (stop - addr + (pageSize - 1)) / pageSize

/-- `n` page addresses from `addr` on. -/
def pageRange : Nat → Nat → List Nat
  | _, 0 => []
  | addr, n + 1 => addr :: pageRange (addr + pageSize) n

/-- The page loop does not skip `addr`. -/
def offKernel (kernelPhysEnd addr : Nat) : Bool :=
  decide (¬ (kernelPhysStart ≤ addr ∧ addr < kernelPhysEnd))

/-- The value the page loop compares addresses with. -/
def Entry.stop (e : Entry) : Nat := (e.baseAddrLow + e.lengthLow) % 4294967296

/-- The iterations of the page loop of an entry. -/
def Entry.count (e : Entry) : Nat := pageCount e.baseAddrLow e.stop

/-- The page addresses that an entry gives. -/
def Entry.pages (kernelPhysEnd : Nat) (e : Entry) : List Nat :=
  if e.type = memoryAvailable then
    (pageRange e.baseAddrLow e.count).filter (offKernel kernelPhysEnd)
  else []

/-- The page loop of the entry does not run past the end of the address space. -/
def Entry.NoWrap (e : Entry) : Prop :=
  e.type = memoryAvailable → e.baseAddrLow + pageSize * e.count < 4294967296

/-- A page and the entry it comes from. -/
structure Offer where
  entry : Entry
  page : Nat

def offers (kernelPhysEnd : Nat) (es : List Entry) : List Offer :=
  es.flatMap (fun e => (e.pages kernelPhysEnd).map (Offer.mk e))

/-! ### Pushing a list of pages -/

section

variable {s s' : Pmm.State} {fuel kernelPhysEnd : Nat}

theorem freePage_ok (hs : Agree s) {page : Nat} (hp : pageToIndex page < bitmapFrames) :
    ∃ s', freePage s page = .ok s' ∧ Agree s' ∧ Pmm.pages s' = freed (Pmm.pages s) page := by
  obtain ⟨n, s', hr, hs', hpages, -⟩ := pmmFreePage_spec hs hp
  refine ⟨s', ?_, hs', hpages⟩
  unfold freePage
  rw [hr]

theorem freePage_error {page : Nat} (hp : bitmapFrames ≤ pageToIndex page) :
    freePage s page = .error .outOfBounds := by
  unfold freePage pmmFreePage bitmapTest
  simp only [checkIndex_eq_error hp, bind, Except.bind]

theorem pageBody_skip {page : Nat} (h : offKernel kernelPhysEnd page = false) :
    pageBody kernelPhysEnd s page = .ok s :=
  if_pos (not_not.mp (of_decide_eq_false h))

theorem pageBody_free {page : Nat} (h : offKernel kernelPhysEnd page = true) :
    pageBody kernelPhysEnd s page = freePage s page :=
  if_neg (of_decide_eq_true h)

theorem pageCount_zero {addr stop : Nat} (h : stop ≤ addr) : pageCount addr stop = 0 := by
  unfold pageCount pageSize
  omega

theorem pageCount_succ {addr stop : Nat} (h : addr < stop) :
    pageCount addr stop = pageCount (addr + pageSize) stop + 1 := by
  unfold pageCount pageSize
  omega

theorem pageCount_step {addr stop n : Nat} (hn : pageCount addr stop = n + 1)
    (hw : addr + pageSize * (n + 1) < 4294967296) :
    addr < stop ∧ pageCount (addr + pageSize) stop = n ∧
      addr + pageSize + pageSize * n < 4294967296 ∧
      (addr + pageSize) % 4294967296 = addr + pageSize := by
  have hlt : addr < stop := by
    by_contra h
    rw [pageCount_zero (by omega)] at hn
    omega
  rw [Nat.mul_succ] at hw
  rw [pageCount_succ hlt] at hn
  exact ⟨hlt, by omega, by omega, Nat.mod_eq_of_lt (by omega)⟩

/-- **The page loop**, when it does not wrap and the frames it frees are in the bitmap. -/
theorem pagesLoop_ok {stop : Nat} : ∀ (n fuel addr : Nat) (s : Pmm.State), Agree s →
    pageCount addr stop = n → addr + pageSize * n < 4294967296 → n < fuel →
    (∀ p ∈ (pageRange addr n).filter (offKernel kernelPhysEnd), pageToIndex p < bitmapFrames) →
    ∃ s', pagesLoop kernelPhysEnd stop fuel addr s = .ok s' ∧ Agree s' ∧
      Pmm.pages s' = ((pageRange addr n).filter (offKernel kernelPhysEnd)).foldl freed
        (Pmm.pages s) := by
  intro n
  induction n with
  | zero =>
    intro fuel addr s hs hn hw hf _
    obtain ⟨fuel, rfl⟩ : ∃ k, fuel = k + 1 := ⟨fuel - 1, by omega⟩
    have hge : ¬ addr < stop := fun h => by
      rw [pageCount_succ h] at hn
      omega
    exact ⟨s, by rw [pagesLoop, if_neg hge], hs, rfl⟩
  | succ n ih =>
    intro fuel addr s hs hn hw hf hin
    obtain ⟨fuel, rfl⟩ : ∃ k, fuel = k + 1 := ⟨fuel - 1, by omega⟩
    obtain ⟨hlt, hn', hw', hmod⟩ := pageCount_step hn hw
    rw [pagesLoop, if_pos hlt, hmod, pageRange]
    cases hoff : offKernel kernelPhysEnd addr with
    | false =>
      rw [pageRange, List.filter_cons_of_neg (by rw [hoff]; decide)] at hin
      rw [List.filter_cons_of_neg (by rw [hoff]; decide)]
      simp only [pageBody_skip hoff, bind, Except.bind]
      exact ih fuel _ s hs hn' hw' (by omega) hin
    | true =>
      rw [pageRange, List.filter_cons_of_pos hoff] at hin
      rw [List.filter_cons_of_pos hoff]
      obtain ⟨s1, hr1, hs1, hp1⟩ := freePage_ok hs (hin addr List.mem_cons_self)
      simp only [pageBody_free hoff, hr1, bind, Except.bind, List.foldl_cons, ← hp1]
      exact ih fuel _ s1 hs1 hn' hw' (by omega) (fun p hp => hin p (List.mem_cons_of_mem _ hp))

/-- When every address with the remainder of `addr` is before `stop`, the page loop does not end. -/
theorem pagesLoop_endless {stop r : Nat} (hall : ∀ x < 4294967296, x % pageSize = r → x < stop) :
    ∀ (fuel addr : Nat) (s : Pmm.State), addr < 4294967296 → addr % pageSize = r →
    pagesLoop kernelPhysEnd stop fuel addr s ≠ .ok s' := by
  intro fuel
  induction fuel with
  | zero => intro addr s _ _ h; cases h
  | succ fuel ih =>
    intro addr s ha hr h
    rw [pagesLoop, if_pos (hall addr ha hr)] at h
    cases hb : pageBody kernelPhysEnd s addr with
    | error e =>
      rw [hb] at h
      cases h
    | ok s1 =>
      rw [hb] at h
      refine ih _ s1 (Nat.mod_lt _ (by decide)) ?_ h
      unfold pageSize at *
      omega

theorem pagesLoop_noWrap {stop addr : Nat} (ha : addr < 4294967296)
    (h : pagesLoop kernelPhysEnd stop fuel addr s = .ok s') :
    addr + pageSize * pageCount addr stop < 4294967296 := by
  by_contra hw
  refine pagesLoop_endless (r := addr % pageSize) ?_ fuel addr s ha rfl h
  intro x hx hr
  unfold pageCount pageSize at *
  omega

theorem pagesLoop_inBitmap {stop : Nat} : ∀ (n fuel addr : Nat) (s : Pmm.State), Agree s →
    pageCount addr stop = n → addr + pageSize * n < 4294967296 →
    pagesLoop kernelPhysEnd stop fuel addr s = .ok s' →
    n < fuel ∧
    ∀ p ∈ (pageRange addr n).filter (offKernel kernelPhysEnd), pageToIndex p < bitmapFrames := by
  intro n
  induction n with
  | zero =>
    intro fuel addr s _ _ _ h
    cases fuel with
    | zero => cases h
    | succ fuel => exact ⟨by omega, fun p hp => absurd hp List.not_mem_nil⟩
  | succ n ih =>
    intro fuel addr s hs hn hw h
    cases fuel with
    | zero => cases h
    | succ fuel =>
      obtain ⟨hlt, hn', hw', hmod⟩ := pageCount_step hn hw
      rw [pagesLoop, if_pos hlt, hmod] at h
      rw [pageRange]
      cases hoff : offKernel kernelPhysEnd addr with
      | false =>
        simp only [pageBody_skip hoff, bind, Except.bind] at h
        obtain ⟨g1, g2⟩ := ih fuel _ s hs hn' hw' h
        rw [List.filter_cons_of_neg (by rw [hoff]; decide)]
        exact ⟨by omega, g2⟩
      | true =>
        have hp : pageToIndex addr < bitmapFrames := by
          by_contra hp
          simp only [pageBody_free hoff, freePage_error (s := s) (Nat.le_of_not_lt hp), bind,
            Except.bind] at h
          cases h
        obtain ⟨s1, hr1, hs1, -⟩ := freePage_ok hs hp
        simp only [pageBody_free hoff, hr1, bind, Except.bind] at h
        obtain ⟨g1, g2⟩ := ih fuel _ s1 hs1 hn' hw' h
        rw [List.filter_cons_of_pos hoff]
        refine ⟨by omega, fun p hp' => ?_⟩
        rcases List.mem_cons.mp hp' with rfl | hp'
        · exact hp
        · exact g2 p hp'

/-! ### Walking the map -/

/-- The walk over a well-formed map runs the body for each entry in turn. -/
theorem mmapLoop_ok {σ : Type} {m : Mem} {stop : Nat} {body : Entry → σ → Except BootStop σ}
    (hstop : stop < 4294967296) : ∀ (es : List Entry) (fuel a : Nat) (s : σ), MapAt m stop a es →
    es.length < fuel →
    mmapLoop m stop body fuel a s = es.foldlM (fun s e => body e s) s := by
  intro es
  induction es with
  | nil =>
    intro fuel a s ha hf
    obtain ⟨fuel, rfl⟩ : ∃ k, fuel = k + 1 := ⟨fuel - 1, by omega⟩
    have ha' : a = stop := ha
    rw [mmapLoop, if_neg (by omega)]
    rfl
  | cons e es ih =>
    intro fuel a s ⟨he, hsize, hrest⟩ hf
    rw [List.length_cons] at hf
    obtain ⟨fuel, rfl⟩ : ∃ k, fuel = k + 1 := ⟨fuel - 1, by omega⟩
    have hle := hrest.le
    rw [mmapLoop, if_pos (by omega), List.foldlM_cons, ← he]
    simp only [Nat.mod_eq_of_lt (show a + e.size + 4 < 4294967296 by omega)]
    cases hb : body e s with
    | error err => rfl
    | ok s1 => exact ih fuel _ s1 hrest (by omega)

theorem MapAt.base_lt {m : Mem} {stop : Nat} : ∀ {es : List Entry} {a : Nat}, MapAt m stop a es →
    ∀ e ∈ es, e.baseAddrLow < 4294967296
  | [], _, _, _, he => absurd he List.not_mem_nil
  | _ :: _, a, ⟨heq, _, h⟩, e, he => by
    rcases List.mem_cons.mp he with rfl | he
    · rw [heq]
      exact load32_lt m (a + 4)
    · exact h.base_lt e he

theorem addLength_fold : ∀ (es : List Entry) (total : Nat),
    ∃ t, es.foldlM (fun t e => addLength e t) total = .ok t
  | [], total => ⟨total, rfl⟩
  | e :: es, total => by
    rw [List.foldlM_cons]
    unfold addLength
    split
    · exact addLength_fold es _
    · exact addLength_fold es _

/-- The entry `e` can be freed: its page loop ends within the fuel and stays in the bitmap. -/
structure Entry.Frees (fuel kernelPhysEnd : Nat) (e : Entry) : Prop where
  noWrap : e.NoWrap
  fuel : e.type = memoryAvailable → e.count < fuel
  inBitmap : ∀ p ∈ e.pages kernelPhysEnd, pageToIndex p < bitmapFrames

theorem freeEntry_ok (hs : Agree s) {e : Entry} (he : e.Frees fuel kernelPhysEnd) :
    ∃ s', freeEntry fuel kernelPhysEnd e s = .ok s' ∧ Agree s' ∧
      Pmm.pages s' = (e.pages kernelPhysEnd).foldl freed (Pmm.pages s) := by
  have hin := he.inBitmap
  unfold freeEntry
  unfold Entry.pages at *
  by_cases ht : e.type = memoryAvailable
  · rw [if_pos ht] at hin
    rw [if_pos ht, if_pos ht]
    exact pagesLoop_ok e.count fuel e.baseAddrLow s hs rfl (he.noWrap ht) (he.fuel ht) hin
  · rw [if_neg ht, if_neg ht]
    exact ⟨s, rfl, hs, rfl⟩

theorem freeEntry_frees (hs : Agree s) {e : Entry} (hb : e.baseAddrLow < 4294967296)
    (h : freeEntry fuel kernelPhysEnd e s = .ok s') : e.Frees fuel kernelPhysEnd := by
  unfold freeEntry at h
  by_cases ht : e.type = memoryAvailable
  · rw [if_pos ht] at h
    have hw := pagesLoop_noWrap hb h
    obtain ⟨hf, hin⟩ := pagesLoop_inBitmap _ fuel _ s hs rfl hw h
    refine ⟨fun _ => hw, fun _ => hf, ?_⟩
    unfold Entry.pages
    rw [if_pos ht]
    exact hin
  · refine ⟨fun h => absurd h ht, fun h => absurd h ht, ?_⟩
    unfold Entry.pages
    rw [if_neg ht]
    exact fun p hp => absurd hp List.not_mem_nil

theorem offers_pages (es : List Entry) : (offers kernelPhysEnd es).map Offer.page =
    es.flatMap (fun e => e.pages kernelPhysEnd) := by
  unfold offers
  rw [List.map_flatMap]
  congr 1
  funext e
  rw [List.map_map]
  exact List.map_id _

/-- **The second walk** pushes the pages of the entries in turn, if every entry can be freed. -/
theorem freeEntries_ok : ∀ (es : List Entry) (s : Pmm.State), Agree s →
    (∀ e ∈ es, e.Frees fuel kernelPhysEnd) →
    ∃ s', es.foldlM (fun s e => freeEntry fuel kernelPhysEnd e s) s = .ok s' ∧ Agree s' ∧
      Pmm.pages s' = ((offers kernelPhysEnd es).map Offer.page).foldl freed (Pmm.pages s) := by
  intro es
  induction es with
  | nil => intro s hs _; exact ⟨s, rfl, hs, rfl⟩
  | cons e es ih =>
    intro s hs he
    obtain ⟨s1, hr1, hs1, hp1⟩ := freeEntry_ok hs (he e List.mem_cons_self)
    obtain ⟨s2, hr2, hs2, hp2⟩ := ih s1 hs1 (fun d hd => he d (List.mem_cons_of_mem _ hd))
    refine ⟨s2, ?_, hs2, ?_⟩
    · rw [List.foldlM_cons, hr1]
      exact hr2
    · rw [offers_pages] at *
      rw [hp2, hp1, List.flatMap_cons, List.foldl_append]

theorem freeEntries_frees : ∀ (es : List Entry) (s : Pmm.State), Agree s →
    (∀ e ∈ es, e.baseAddrLow < 4294967296) →
    es.foldlM (fun s e => freeEntry fuel kernelPhysEnd e s) s = .ok s' →
    ∀ e ∈ es, e.Frees fuel kernelPhysEnd := by
  intro es
  induction es with
  | nil => intro s _ _ _ e he; exact absurd he List.not_mem_nil
  | cons e es ih =>
    intro s hs hb h d hd
    rw [List.foldlM_cons] at h
    cases hr : freeEntry fuel kernelPhysEnd e s with
    | error err =>
      rw [hr] at h
      cases h
    | ok s1 =>
      rw [hr] at h
      have he := freeEntry_frees hs (hb e List.mem_cons_self) hr
      rcases List.mem_cons.mp hd with rfl | hd
      · exact he
      · obtain ⟨s1', hr', hs1, -⟩ := freeEntry_ok hs he
        rw [hr'] at hr
        cases hr
        exact ih s1 hs1 (fun d hd => hb d (List.mem_cons_of_mem _ hd)) h d hd

end

/-! ### `parse_multiboot_info` -/

section

variable {m : Mem} {mbi kernelPhysEnd : Nat} {es : List Entry} {s : State}

/-- **The map can be parsed**: no page loop wraps, and no page outside the kernel image has a frame
past the end of the bitmap. -/
structure Parses (kernelPhysEnd : Nat) (es : List Entry) : Prop where
  noWrap : ∀ e ∈ es, e.NoWrap
  inBitmap : ∀ o ∈ offers kernelPhysEnd es, pageToIndex o.page < bitmapFrames

theorem mem_offers {o : Offer} :
    o ∈ offers kernelPhysEnd es ↔ o.entry ∈ es ∧ o.page ∈ o.entry.pages kernelPhysEnd := by
  unfold offers
  rw [List.mem_flatMap]
  constructor
  · rintro ⟨e, he, ho⟩
    obtain ⟨p, hp, rfl⟩ := List.mem_map.mp ho
    exact ⟨he, hp⟩
  · rintro ⟨he, hp⟩
    exact ⟨o.entry, he, List.mem_map.mpr ⟨o.page, hp, rfl⟩⟩

variable (kernelPhysEnd s) in
theorem parse_eq (hm : HasMap m mbi es) {fuel : Nat} (hf : es.length < fuel) :
    ∃ total, parseMultibootInfo fuel m kernelPhysEnd s mbi = (do
      let pmm ← es.foldlM (fun s e => freeEntry fuel kernelPhysEnd e s) (pmmInit s.pmm total)
      .ok ⟨mbiMmapAddr m mbi, mbiMmapLength m mbi, pmm⟩) := by
  obtain ⟨total, ht⟩ := addLength_fold es 0
  refine ⟨total, ?_⟩
  unfold parseMultibootInfo
  rw [if_neg hm.given]
  simp only [Nat.mod_eq_of_lt hm.fits, mmapLoop_ok hm.fits es fuel _ _ hm.entries hf, ht, bind,
    Except.bind]

/-- **`parse_multiboot_info` returns** when the map can be parsed, and the stack then holds the
pages offered, pushed in turn. -/
theorem parse_total (hm : HasMap m mbi es) (hp : Parses kernelPhysEnd es) (s : State) :
    ∃ fuel s', parseMultibootInfo fuel m kernelPhysEnd s mbi = .ok s' ∧ Agree s'.pmm ∧
      Pmm.pages s'.pmm = ((offers kernelPhysEnd es).map Offer.page).foldl freed [] := by
  let fuel := es.length + (es.map Entry.count).sum + 1
  have hfrees : ∀ e ∈ es, e.Frees fuel kernelPhysEnd := by
    intro e he
    refine ⟨hp.noWrap e he, fun _ => ?_, fun p hpe => hp.inBitmap ⟨e, p⟩ (mem_offers.mpr ⟨he, hpe⟩)⟩
    have := List.single_le_sum (l := es.map Entry.count) (by simp) e.count (List.mem_map_of_mem he)
    show e.count < es.length + (es.map Entry.count).sum + 1
    omega
  obtain ⟨total, hr⟩ := parse_eq kernelPhysEnd s hm
    (show es.length < fuel by show _ < es.length + _ + 1; omega)
  obtain ⟨s1, hr1, hs1, hp1⟩ := freeEntries_ok es (pmmInit s.pmm total)
    (pmmInit_agree s.pmm total) hfrees
  refine ⟨fuel, ⟨mbiMmapAddr m mbi, mbiMmapLength m mbi, s1⟩, ?_, hs1, hp1⟩
  rw [hr, hr1]
  rfl

/-- A call that runs out of fuel in the first walk does not return. -/
theorem mmapLoop_fuel {σ : Type} {stop : Nat} {body : Entry → σ → Except BootStop σ}
    (hstop : stop < 4294967296) : ∀ (es : List Entry) (fuel a : Nat) (s s' : σ), MapAt m stop a es →
    mmapLoop m stop body fuel a s = .ok s' → es.length < fuel := by
  intro es
  induction es with
  | nil =>
    intro fuel a s s' _ h
    cases fuel with
    | zero => cases h
    | succ fuel => exact Nat.succ_pos fuel
  | cons e es ih =>
    intro fuel a s s' ⟨he, hsize, hrest⟩ h
    cases fuel with
    | zero => cases h
    | succ fuel =>
      have hle := hrest.le
      rw [mmapLoop, if_pos (by omega), ← he] at h
      simp only [Nat.mod_eq_of_lt (show a + e.size + 4 < 4294967296 by omega)] at h
      cases hb : body e s with
      | error err =>
        rw [hb] at h
        cases h
      | ok s1 =>
        rw [hb] at h
        have := ih fuel _ s1 s' hrest h
        rw [List.length_cons]
        omega

/-- **When `parse_multiboot_info` returns**, the map can be parsed and the stack holds the pages
offered, pushed in turn. -/
theorem parse_ok (hm : HasMap m mbi es) {fuel : Nat} {s' : State}
    (h : parseMultibootInfo fuel m kernelPhysEnd s mbi = .ok s') :
    Parses kernelPhysEnd es ∧ Agree s'.pmm ∧
      Pmm.pages s'.pmm = ((offers kernelPhysEnd es).map Offer.page).foldl freed [] := by
  have hf : es.length < fuel := by
    unfold parseMultibootInfo at h
    rw [if_neg hm.given] at h
    simp only [Nat.mod_eq_of_lt hm.fits] at h
    cases hr : mmapLoop m (mbiMmapAddr m mbi + mbiMmapLength m mbi) addLength fuel
        (mbiMmapAddr m mbi) 0 with
    | error err =>
      rw [hr] at h
      cases h
    | ok total => exact mmapLoop_fuel hm.fits es fuel _ _ _ hm.entries hr
  obtain ⟨total, hr⟩ := parse_eq kernelPhysEnd s hm hf
  rw [hr] at h
  cases hr1 : es.foldlM (fun s e => freeEntry fuel kernelPhysEnd e s) (pmmInit s.pmm total) with
  | error err =>
    rw [hr1] at h
    cases h
  | ok s1 =>
    rw [hr1] at h
    cases h
    have hag := pmmInit_agree s.pmm total
    have hfrees := freeEntries_frees es _ hag hm.entries.base_lt hr1
    obtain ⟨s1', hr2, hs1, hp1⟩ := freeEntries_ok es _ hag hfrees
    rw [hr2] at hr1
    cases hr1
    refine ⟨⟨fun e he => (hfrees e he).noWrap, fun o ho => ?_⟩, hs1, hp1⟩
    obtain ⟨he, hp⟩ := mem_offers.mp ho
    exact (hfrees o.entry he).inBitmap o.page hp

end
end CobraOS.Boot
