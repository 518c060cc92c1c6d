import CobraOS.Boot.Frames
import Mathlib.Algebra.Order.Floor.Div

/-!
# Which boot loops end

The control of the loops does not depend on the page allocator: `pageVisits` are the addresses that
a page loop comes to, and `visitEntry` is the second walk with the addresses in place of the
allocator (`freeWalk_of_visits`).  The walks over a well-formed map end.  A page loop ends when the
last page of its region ends below 4 GiB or the end of the region wraps, and then it comes to no
address twice; otherwise it never ends (`loopsEnd_iff`).
-/

namespace CobraOS.Boot

open Base Pmm

/-- The addresses that the page loop comes to; `none` when the fuel is not enough. -/
def pageVisits (stop : Nat) : Nat → Nat → Option (List Nat)
  | 0, _ => none
  | fuel + 1, addr =>
    if addr < stop then (pageVisits stop fuel ((addr + pageSize) % 4294967296)).map (addr :: ·)
    else some []

/-- The body of the second walk, with the addresses of each region. -/
def visitEntry (fuel : Nat) (e : Entry) (visited : List (List Nat)) :
    Except BootStop (List (List Nat)) :=
  if e.type = memoryAvailable then
    match pageVisits e.stop fuel e.baseAddrLow with
    | none => .error .endless
    | some addrs => .ok (visited ++ [addrs])
  else .ok visited

/-- **The loops of `parse_multiboot_info` end**, and no page loop comes to an address twice. -/
def LoopsEnd (m : Mem) (mbi : Nat) : Prop :=
  let stop := (mbiMmapAddr m mbi + mbiMmapLength m mbi) % 4294967296
  ∃ fuel total visited, mmapLoop m stop addLength fuel (mbiMmapAddr m mbi) 0 = .ok total ∧
    mmapLoop m stop (visitEntry fuel) fuel (mbiMmapAddr m mbi) [] = .ok visited ∧
      ∀ l ∈ visited, l.Nodup

/-- Where the region ends below 4 GiB, its last page does too. -/
def Entry.PagesFit (e : Entry) : Prop :=
  e.baseAddrLow + e.lengthLow < 4294967296 →
    e.baseAddrLow + pageSize * (e.lengthLow ⌈/⌉ pageSize) < 4294967296

section

variable {m : Mem} {mbi kernelPhysEnd stop fuel : Nat} {es : List Entry}

/-! ### The page loop -/

theorem pagesLoop_of_visits : ∀ {fuel addr : Nat} {addrs : List Nat} (s : Pmm.State),
    pageVisits stop fuel addr = some addrs →
      pagesLoop kernelPhysEnd stop fuel addr s = addrs.foldlM (pageBody kernelPhysEnd) s := by
  intro fuel
  induction fuel with
  | zero => exact fun _ h => nomatch h
  | succ fuel ih =>
    intro addr addrs s h
    rw [pageVisits] at h
    rw [pagesLoop]
    split_ifs at h ⊢ with hlt
    · obtain ⟨rest, hrest, rfl⟩ := Option.map_eq_some_iff.mp h
      rw [List.foldlM_cons]
      exact bind_congr fun s' => ih s' hrest
    · cases h
      rfl

theorem pageVisits_eq : ∀ (n : Nat) {fuel addr : Nat}, pageCount addr stop = n →
    addr + pageSize * n < 4294967296 → n < fuel →
      pageVisits stop fuel addr = some (pageRange addr n) := by
  intro n
  induction n with
  | zero =>
    intro fuel addr hn _ hf
    obtain ⟨fuel, rfl⟩ : ∃ k, fuel = k + 1 := ⟨fuel - 1, by omega⟩
    have hge : ¬ addr < stop := fun h => by
      rw [pageCount_succ h] at hn
      omega
    rw [pageVisits, if_neg hge]
    rfl
  | succ n ih =>
    intro fuel addr hn hw hf
    obtain ⟨fuel, rfl⟩ : ∃ k, fuel = k + 1 := ⟨fuel - 1, by omega⟩
    have hlt : addr < stop := by
      by_contra h
      rw [pageCount_zero (by omega)] at hn
      omega
    rw [pageCount_succ hlt] at hn
    rw [Nat.mul_succ] at hw
    rw [pageVisits, if_pos hlt, Nat.mod_eq_of_lt (by omega),
      ih (Nat.succ.inj hn) (by omega) (by omega)]
    rfl

/-- When every address with the remainder of `addr` is before `stop`, no fuel is enough. -/
theorem pageVisits_none {r : Nat} (hall : ∀ x < 4294967296, x % pageSize = r → x < stop) :
    ∀ (fuel addr : Nat), addr < 4294967296 → addr % pageSize = r →
      pageVisits stop fuel addr = none := by
  intro fuel
  induction fuel with
  | zero => exact fun _ _ _ => rfl
  | succ fuel ih =>
    intro addr ha hr
    have hr' : (addr + pageSize) % 4294967296 % pageSize = r := by
      unfold pageSize at *
      omega
    rw [pageVisits, if_pos (hall addr ha hr), ih _ (Nat.mod_lt _ (by decide)) hr']
    rfl

theorem pageRange_nodup : ∀ n addr, (pageRange addr n).Nodup
  | 0, _ => List.nodup_nil
  | n + 1, addr => by
    refine List.nodup_cons.mpr ⟨fun hmem => ?_, pageRange_nodup n _⟩
    have hle := (mem_pageRange n _ hmem).1
    unfold pageSize at hle
    omega

/-- **The page loop of an entry ends** exactly when it does not wrap. -/
theorem pageVisits_isSome_iff {addr : Nat} (ha : addr < 4294967296) :
    (∃ fuel addrs, pageVisits stop fuel addr = some addrs) ↔
      addr + pageSize * pageCount addr stop < 4294967296 := by
  constructor
  · rintro ⟨fuel, addrs, hvisits⟩
    by_contra hwrap
    have hnone : pageVisits stop fuel addr = none := by
      refine pageVisits_none (r := addr % pageSize) (fun x hx hr => ?_) fuel addr ha rfl
      unfold pageCount pageSize at *
      omega
    rw [hnone] at hvisits
    cases hvisits
  · exact fun h => ⟨_, _, pageVisits_eq _ rfl h (Nat.lt_succ_self _)⟩

/-! ### The condition -/

theorem MapAt.words : ∀ {es : List Entry} {a : Nat}, MapAt m stop a es →
    ∀ e ∈ es, e.baseAddrLow < 4294967296 ∧ e.lengthLow < 4294967296
  | [], _, _, _, he => absurd he List.not_mem_nil
  | _ :: _, a, ⟨heq, _, h⟩, e, he => by
    rcases List.mem_cons.mp he with rfl | he
    · rw [heq]
      exact ⟨load32_lt m (a + 4), load32_lt m (a + 12)⟩
    · exact h.words e he

/-- A region whose end wraps has no pages; one that ends below 4 GiB has those of its length. -/
theorem Entry.pagesFit_iff {e : Entry} (hb : e.baseAddrLow < 4294967296)
    (hl : e.lengthLow < 4294967296) :
    e.PagesFit ↔ e.baseAddrLow + pageSize * e.count < 4294967296 := by
  have hceil : e.lengthLow ⌈/⌉ pageSize = (e.lengthLow + (pageSize - 1)) / pageSize :=
    Nat.ceilDiv_eq_add_pred_div _ _
  unfold Entry.PagesFit Entry.count Entry.stop
  rw [hceil]
  by_cases hend : e.baseAddrLow + e.lengthLow < 4294967296
  · have hlen : e.baseAddrLow + e.lengthLow - e.baseAddrLow = e.lengthLow :=
      Nat.add_sub_cancel_left ..
    rw [Nat.mod_eq_of_lt hend, pageCount, hlen]
    exact ⟨fun h => h hend, fun h _ => h⟩
  · have hstop : (e.baseAddrLow + e.lengthLow) % 4294967296 ≤ e.baseAddrLow := by omega
    rw [pageCount_zero hstop, Nat.mul_zero, Nat.add_zero]
    exact iff_of_true (fun h => absurd h hend) hb

/-! ### The walks -/

theorem visitEntry_eq {e : Entry} (hb : e.baseAddrLow < 4294967296) (hl : e.lengthLow < 4294967296)
    (hfit : e.type = memoryAvailable → e.PagesFit) (hf : 1048576 < fuel)
    (visited : List (List Nat)) :
    ∃ ls, visitEntry fuel e visited = .ok (visited ++ ls) ∧ ∀ l ∈ ls, l.Nodup := by
  by_cases ht : e.type = memoryAvailable
  · have hcount : e.count < fuel := by
      have hstop : e.stop < 4294967296 := Nat.mod_lt _ (by decide)
      unfold Entry.count pageCount pageSize
      omega
    have hvisits := pageVisits_eq _ rfl ((Entry.pagesFit_iff hb hl).mp (hfit ht)) hcount
    refine ⟨[pageRange e.baseAddrLow e.count], ?_, fun l hmem => ?_⟩
    · rw [visitEntry, if_pos ht, hvisits]
      rfl
    · rw [List.mem_singleton.mp hmem]
      exact pageRange_nodup _ _
  · refine ⟨[], ?_, fun l hmem => absurd hmem List.not_mem_nil⟩
    rw [visitEntry, if_neg ht, List.append_nil]

theorem visitEntries_eq (hf : 1048576 < fuel) : ∀ (es : List Entry) (visited : List (List Nat)),
    (∀ e ∈ es, e.baseAddrLow < 4294967296 ∧ e.lengthLow < 4294967296) →
    (∀ e ∈ es, e.type = memoryAvailable → e.PagesFit) →
    ∃ ls, es.foldlM (fun v e => visitEntry fuel e v) visited = .ok (visited ++ ls) ∧
      ∀ l ∈ ls, l.Nodup := by
  intro es
  induction es with
  | nil =>
    exact fun visited _ _ =>
      ⟨[], by rw [List.append_nil]; rfl, fun l hl => absurd hl List.not_mem_nil⟩
  | cons e es ih =>
    intro visited hwords hfit
    obtain ⟨⟨hb, hl⟩, hwords⟩ := List.forall_mem_cons.mp hwords
    obtain ⟨hfit₁, hfit⟩ := List.forall_mem_cons.mp hfit
    obtain ⟨ls₁, hr₁, hnodup₁⟩ := visitEntry_eq hb hl hfit₁ hf visited
    obtain ⟨ls, hr, hnodup⟩ := ih (visited ++ ls₁) hwords hfit
    refine ⟨ls₁ ++ ls, ?_, fun l hmem => ?_⟩
    · rw [List.foldlM_cons, hr₁, ← List.append_assoc]
      exact hr
    · exact (List.mem_append.mp hmem).elim (hnodup₁ l) (hnodup l)

theorem visits_of_walk : ∀ (es : List Entry) {visited result : List (List Nat)},
    es.foldlM (fun v e => visitEntry fuel e v) visited = .ok result →
    ∀ e ∈ es, e.type = memoryAvailable → ∃ addrs, pageVisits e.stop fuel e.baseAddrLow =
      some addrs := by
  intro es
  induction es with
  | nil => exact fun _ e he => absurd he List.not_mem_nil
  | cons e es ih =>
    intro visited result h d hd ht
    rw [List.foldlM_cons] at h
    cases hr : visitEntry fuel e visited with
    | error err =>
      rw [hr] at h
      cases h
    | ok v =>
      rw [hr] at h
      obtain rfl | hd := List.mem_cons.mp hd
      · rw [visitEntry, if_pos ht] at hr
        cases hvisits : pageVisits d.stop fuel d.baseAddrLow with
        | none =>
          rw [hvisits] at hr
          cases hr
        | some addrs => exact ⟨addrs, rfl⟩
      · exact ih h d hd ht

variable (kernelPhysEnd) in
theorem freeEntry_of_visits {e : Entry} {visited result : List (List Nat)}
    (h : visitEntry fuel e visited = .ok result) : ∃ ls, result = visited ++ ls ∧
      ∀ s, freeEntry fuel kernelPhysEnd e s = ls.flatten.foldlM (pageBody kernelPhysEnd) s := by
  rw [visitEntry] at h
  split_ifs at h with ht
  · cases hvisits : pageVisits e.stop fuel e.baseAddrLow with
    | none =>
      rw [hvisits] at h
      cases h
    | some addrs =>
      rw [hvisits] at h
      cases h
      refine ⟨[addrs], rfl, fun s => ?_⟩
      rw [freeEntry, if_pos ht, List.flatten_singleton]
      exact pagesLoop_of_visits s hvisits
  · cases h
    exact ⟨[], (List.append_nil _).symm, fun s => if_neg ht⟩

variable (kernelPhysEnd) in
/-- The second walk runs the body of the page loop for all the addresses, one after the other. -/
theorem freeWalk_of_visits : ∀ {n a : Nat} {visited result : List (List Nat)},
    mmapLoop m stop (visitEntry fuel) n a visited = .ok result → ∃ ls, result = visited ++ ls ∧
      ∀ s, mmapLoop m stop (freeEntry fuel kernelPhysEnd) n a s =
        ls.flatten.foldlM (pageBody kernelPhysEnd) s := by
  intro n
  induction n with
  | zero => exact fun h => nomatch h
  | succ n ih =>
    intro a visited result h
    simp only [mmapLoop] at h ⊢
    split_ifs at h ⊢ with hlt
    · cases hr : visitEntry fuel (mmapEntry m a) visited with
      | error err =>
        rw [hr] at h
        cases h
      | ok v =>
        rw [hr] at h
        obtain ⟨ls₁, rfl, hfree⟩ := freeEntry_of_visits kernelPhysEnd hr
        obtain ⟨ls, rfl, hrest⟩ := ih h
        refine ⟨ls₁ ++ ls, List.append_assoc .., fun s => ?_⟩
        rw [hfree, List.flatten_append, List.foldlM_append]
        exact bind_congr hrest
    · cases h
      exact ⟨[], (List.append_nil _).symm, fun s => rfl⟩

theorem loopsEnd_of_fit (hm : HasMap m mbi es)
    (hfit : ∀ e ∈ es, e.type = memoryAvailable → e.PagesFit) :
    LoopsEnd m mbi := by
  obtain ⟨total, htotal⟩ := addLength_fold es 0
  have hfuel : es.length < es.length + 1048577 := by omega
  obtain ⟨ls, hr, hnodup⟩ := visitEntries_eq (by omega : 1048576 < es.length + 1048577) es []
    hm.entries.words hfit
  refine ⟨es.length + 1048577, total, [] ++ ls, ?_, ?_, hnodup⟩
  · rw [Nat.mod_eq_of_lt hm.fits, mmapLoop_ok hm.fits es _ _ _ hm.entries hfuel, htotal]
  · rw [Nat.mod_eq_of_lt hm.fits, mmapLoop_ok hm.fits es _ _ _ hm.entries hfuel, hr]

theorem fit_of_loopsEnd (hm : HasMap m mbi es) (h : LoopsEnd m mbi) :
    ∀ e ∈ es, e.type = memoryAvailable → e.PagesFit := by
  obtain ⟨fuel, total, visited, hfirst, hsecond, -⟩ := h
  rw [Nat.mod_eq_of_lt hm.fits] at hfirst hsecond
  have hfuel := mmapLoop_fuel hm.fits es fuel _ _ _ hm.entries hfirst
  rw [mmapLoop_ok hm.fits es _ _ _ hm.entries hfuel] at hsecond
  intro e he ht
  obtain ⟨hb, hl⟩ := hm.entries.words e he
  obtain ⟨addrs, hvisits⟩ := visits_of_walk es hsecond e he ht
  exact (Entry.pagesFit_iff hb hl).mpr ((pageVisits_isSome_iff hb).mp ⟨fuel, addrs, hvisits⟩)

/-- When its loops end, `parse_multiboot_info` is the body of the page loop run for a list of
addresses. -/
theorem parse_of_loopsEnd (hm : HasMap m mbi es) (h : LoopsEnd m mbi) :
    ∃ fuel total addrs, ∀ s : State,
    parseMultibootInfo fuel m kernelPhysEnd s mbi =
      (List.foldlM (pageBody kernelPhysEnd) (pmmInit s.pmm total) addrs).map
        fun pmm => ⟨mbiMmapAddr m mbi, mbiMmapLength m mbi, pmm⟩ := by
  obtain ⟨fuel, total, visited, hfirst, hsecond, -⟩ := h
  obtain ⟨ls, -, hwalk⟩ := freeWalk_of_visits kernelPhysEnd hsecond
  refine ⟨fuel, total, ls.flatten, fun s => ?_⟩
  unfold parseMultibootInfo
  rw [if_neg hm.given]
  simp only [hfirst, hwalk, bind, Except.bind]
  cases ls.flatten.foldlM (pageBody kernelPhysEnd) (pmmInit s.pmm total) <;> rfl

/-- `parse_multiboot_info` returns only when its loops end. -/
theorem loopsEnd_of_parse (hm : HasMap m mbi es) {s s' : State}
    (h : parseMultibootInfo fuel m kernelPhysEnd s mbi = .ok s') : LoopsEnd m mbi := by
  refine loopsEnd_of_fit hm fun e he ht => ?_
  obtain ⟨hb, hl⟩ := hm.entries.words e he
  exact (Entry.pagesFit_iff hb hl).mpr ((parse_ok hm h).1.noWrap e he ht)

/-- **The loops end** exactly when no available region that ends below 4 GiB has a last page that
does not. -/
theorem loopsEnd_iff (hm : HasMap m mbi es) :
    LoopsEnd m mbi ↔ ∀ e ∈ es, e.type = memoryAvailable → e.PagesFit :=
  ⟨fit_of_loopsEnd hm, loopsEnd_of_fit hm⟩

end

theorem loopsEnd_iff_lowMemory : HasMap (mapOf lowMemory) 4096 [lowMemory] ∧
    LoopsEnd (mapOf lowMemory) 4096 := by
  refine ⟨lowMemory_map, (loopsEnd_iff lowMemory_map).mpr fun e he _ => ?_⟩
  rw [List.mem_singleton.mp he]
  exact fun _ => by decide

/-- All but the last byte of the first 4 GiB. -/
def wholeMemory : Entry := ⟨20, 0, 0, 0xFFFFFFFF, 0, 1⟩

theorem wholeMemory_map : HasMap (mapOf wholeMemory) 4096 [wholeMemory] :=
  ⟨by decide, by decide, by decide, by decide, rfl⟩

/-- The page loop of this region comes to 0 again and again. -/
theorem wholeMemory_endless :
    HasMap (mapOf wholeMemory) 4096 [wholeMemory] ∧ ¬ LoopsEnd (mapOf wholeMemory) 4096 := by
  refine ⟨wholeMemory_map, fun h => ?_⟩
  have hfit := fit_of_loopsEnd wholeMemory_map h wholeMemory (List.mem_singleton_self _) rfl
  exact absurd (hfit (by decide)) (by decide)

end CobraOS.Boot
