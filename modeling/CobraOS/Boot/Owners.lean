import CobraOS.Boot.Frames
import CobraOS.Heap.Run

/-!
# The page allocator and the heap

After boot the pages of the memory map and the blocks of the heap are handed out side by side.  A
run takes pages, returns pages it has taken, and uses the heap as its clients may.  The page
allocator never has a page that the map did not give it (`reach_given`), and it can be emptied
(`reach_obtained`); so whether it hands out a page of the heap is decided by the map alone
(`disjoint_iff`).  Nothing in `parse_multiboot_info` takes the heap out of the map.
-/

namespace CobraOS.Boot

open Base Pmm

structure World where
  pmm : Pmm.State
  heap : Heap.World
  /-- the pages that `pmm_alloc_page` has returned -/
  obtained : List Nat

inductive Op
  | allocPage
  | freePage (page : Nat)
  | heap (op : Heap.Op)

/-- Every run after `parse_multiboot_info` and `heap_init`. -/
def system (m : Mem) (kernelPhysEnd : Nat) (s0 : State) (mbi : Nat) : System World Op where
  init w := ∃ fuel s h0 h, parseMultibootInfo fuel m kernelPhysEnd s0 mbi = .ok s ∧
    Heap.heapInit h0 = .ok h ∧ w = ⟨s.pmm, ⟨h, []⟩, []⟩
  step w op w' :=
    match op with
    | .allocPage => ∃ page pmm, pmmAllocPage w.pmm = .ok (page, pmm) ∧
        w' = ⟨pmm, w.heap, page.toList ++ w.obtained⟩
    | .freePage page => page ∈ w.obtained ∧ ∃ n pmm, pmmFreePage w.pmm page = .ok (n, pmm) ∧
        w' = ⟨pmm, w.heap, w.obtained⟩
    | .heap op => Heap.Valid w.heap op ∧ ∃ heap, Heap.exec w.heap op = .ok heap ∧
        w' = ⟨w.pmm, heap, w.obtained⟩

/-- The page at `p` has no address of the heap. -/
def OffHeap (p : Nat) : Prop :=
  p + pageSize ≤ Heap.heapStart ∨ Heap.heapStart + Heap.heapSize ≤ p

section

variable {m : Mem} {mbi kernelPhysEnd : Nat} {es : List Entry} {s0 : State}

/-- The pages on the stack and those taken are pages that the map gave. -/
structure Given (kernelPhysEnd : Nat) (es : List Entry) (w : World) : Prop where
  agree : Agree w.pmm
  pages : ∀ p ∈ Pmm.pages w.pmm, ∃ o, First (offers kernelPhysEnd es) o ∧ o.page = p
  obtained : ∀ p ∈ w.obtained, ∃ o, First (offers kernelPhysEnd es) o ∧ o.page = p

theorem reach_given (hm : HasMap m mbi es) {w : World}
    (hw : (system m kernelPhysEnd s0 mbi).Reach w) : Given kernelPhysEnd es w := by
  have hparse : Parses kernelPhysEnd es := by
    refine hw.induct (P := fun _ => Parses kernelPhysEnd es) ?_ (fun _ _ _ h _ => h)
    rintro w ⟨fuel, s, h0, h, hr, -⟩
    exact (parse_ok hm hr).1
  refine hw.induct ?_ ?_
  · rintro w ⟨fuel, s, h0, h, hr, -, rfl⟩
    obtain ⟨-, hag, hpages⟩ := parse_ok hm hr
    refine ⟨hag, fun p hp => ?_, fun p hp => absurd hp List.not_mem_nil⟩
    rw [hpages] at hp
    exact mem_stack.mp hp
  · rintro w op w' hg hstep
    cases op with
    | allocPage =>
      obtain ⟨page, pmm, hr, rfl⟩ := hstep
      rcases pmmAllocPage_spec hg.agree with ⟨-, hr'⟩ | ⟨p, s', hr', hs', hpages⟩
      · rw [hr'] at hr
        cases hr
        exact hg
      · rw [hr'] at hr
        cases hr
        refine ⟨hs', fun q hq => hg.pages q ?_, fun q hq => ?_⟩
        · rw [hpages]
          exact List.mem_append_left _ hq
        · rcases List.mem_cons.mp hq with rfl | hq
          · exact hg.pages q (by rw [hpages]; simp)
          · exact hg.obtained q hq
    | freePage page =>
      obtain ⟨hmem, n, pmm, hr, rfl⟩ := hstep
      obtain ⟨o, ho, hpage⟩ := hg.obtained page hmem
      have hin : pageToIndex page < bitmapFrames := hpage ▸ hparse.inBitmap o ho.mem
      obtain ⟨n', s', hr', hs', hpages, -⟩ := pmmFreePage_spec hg.agree hin
      rw [hr'] at hr
      cases hr
      refine ⟨hs', fun q hq => ?_, hg.obtained⟩
      rw [hpages] at hq
      rcases mem_freed hq with hq | rfl
      · exact hg.pages q hq
      · exact ⟨o, ho, hpage⟩
    | heap op =>
      obtain ⟨-, heap, -, rfl⟩ := hstep
      exact ⟨hg.agree, hg.pages, hg.obtained⟩

theorem reach_obtained : ∀ (n : Nat) (w : World), (Pmm.pages w.pmm).length = n →
    (system m kernelPhysEnd s0 mbi).Reach w → Agree w.pmm → ∀ p ∈ Pmm.pages w.pmm,
    ∃ w', (system m kernelPhysEnd s0 mbi).Reach w' ∧ p ∈ w'.obtained := by
  intro n
  induction n with
  | zero =>
    intro w hn _ _ p hp
    rw [List.length_eq_zero_iff.mp hn] at hp
    exact absurd hp List.not_mem_nil
  | succ n ih =>
    intro w hn hw hag p hp
    rcases pmmAllocPage_spec hag with ⟨hnil, -⟩ | ⟨q, s', hr, hs', hpages⟩
    · rw [hnil] at hp
      exact absurd hp List.not_mem_nil
    · have hstep : (system m kernelPhysEnd s0 mbi).Reach ⟨s', w.heap, q :: w.obtained⟩ :=
        hw.step (e := Op.allocPage) ⟨some q, s', hr, rfl⟩
      rw [hpages] at hp
      rcases List.mem_append.mp hp with hp | hp
      · refine ih _ ?_ hstep hs' p hp
        rw [hpages, List.length_append, List.length_singleton] at hn
        exact Nat.succ_injective hn
      · exact ⟨_, hstep, by rw [List.mem_singleton.mp hp]; exact List.mem_cons_self⟩

/-- **No page handed out in any run meets the heap exactly when no page that the map is the first to
give for its frame does.** -/
theorem disjoint_iff (hm : HasMap m mbi es)
    (hboot : ∃ fuel s, parseMultibootInfo fuel m kernelPhysEnd s0 mbi = .ok s) :
    (∀ w, (system m kernelPhysEnd s0 mbi).Reach w → ∀ p ∈ w.obtained, OffHeap p) ↔
      ∀ o, First (offers kernelPhysEnd es) o → OffHeap o.page := by
  constructor
  · intro hall o ho
    obtain ⟨fuel, s, hr⟩ := hboot
    obtain ⟨h, hh, -⟩ := Heap.kmallocInit_spec Heap.blank
    obtain ⟨-, hag, hpages⟩ := parse_ok hm hr
    have hw : (system m kernelPhysEnd s0 mbi).Reach ⟨s.pmm, ⟨h, []⟩, []⟩ :=
      .init ⟨fuel, s, Heap.blank, h, hr, hh, rfl⟩
    obtain ⟨w', hw', hp⟩ := reach_obtained _ _ rfl hw hag
      o.page (by rw [hpages]; exact mem_stack.mpr ⟨o, ho, rfl⟩)
    exact hall w' hw' o.page hp
  · intro hall w hw p hp
    obtain ⟨o, ho, rfl⟩ := (reach_given hm hw).obtained p hp
    exact hall o ho

end

theorem disjoint_iff_lowMemory : HasMap (mapOf lowMemory) 4096 [lowMemory] ∧
    ∀ w, (system (mapOf lowMemory) 0x200000 blank 4096).Reach w → ∀ p ∈ w.obtained, OffHeap p := by
  refine ⟨lowMemory_map, ?_⟩
  obtain ⟨fuel, s, hr, -⟩ := parse_total lowMemory_map lowMemory_parses blank
  have hlow : ∀ o ∈ offers 0x200000 [lowMemory], o.page + pageSize ≤ Heap.heapStart := by
    decide +kernel
  exact (disjoint_iff lowMemory_map ⟨fuel, s, hr⟩).mpr (fun o ho => Or.inl (hlow o ho.mem))

/-- A page of available memory at the start of the heap. -/
def heapPage : Entry := ⟨20, 0x2000000, 0, 0x1000, 0, 1⟩

theorem heapPage_obtained : ∃ m mbi kernelPhysEnd es s0 w p, HasMap m mbi es ∧
    (system m kernelPhysEnd s0 mbi).Reach w ∧ p ∈ w.obtained ∧ ¬ OffHeap p := by
  have hmap : HasMap (mapOf heapPage) 4096 [heapPage] :=
    ⟨by decide, by decide, by decide, by decide, rfl⟩
  have hparse : Parses 0x200000 [heapPage] := by
    refine ⟨fun e he _ => ?_, by decide⟩
    rw [List.mem_singleton.mp he]
    decide
  obtain ⟨fuel, s, hr, hag, hpages⟩ := parse_total hmap hparse blank
  obtain ⟨h, hh, -⟩ := Heap.kmallocInit_spec Heap.blank
  have hw : (system (mapOf heapPage) 0x200000 blank 4096).Reach ⟨s.pmm, ⟨h, []⟩, []⟩ :=
    .init ⟨fuel, s, Heap.blank, h, hr, hh, rfl⟩
  obtain ⟨w', hw', hp⟩ := reach_obtained _ _ rfl hw hag
    0x2000000 (by rw [hpages]; decide)
  refine ⟨_, _, _, _, _, w', _, hmap, hw', hp, ?_⟩
  unfold OffHeap
  decide

end CobraOS.Boot
