import CobraOS.Boot.Pages

/-!
# Which pages the allocator owns after boot

The stack keeps the first page that is offered for a frame, as long as fewer than `MAX_FRAMES`
frames came before (`mem_foldl_freed`).  `parse_multiboot_info` takes the low words of an available
entry for its extent, starts at a base that need not be a page address and rounds the end of the
entry up; so it returns with only whole available frames on the stack exactly for the maps of
`MapFits` (`boot_sound_iff`).
-/

namespace CobraOS.Boot

open Base Pmm

/-! ### The first page of each frame -/

/-- The frames of a list of pages. -/
def frames (l : List Nat) : Finset Nat := (l.map pageToIndex).toFinset

theorem frames_append (l : List Nat) (a : Nat) : frames (l ++ [a]) = insert (pageToIndex a)
    (frames l) := by
  ext i
  simp [frames]

theorem mem_frames {l : List Nat} {i : Nat} : i ∈ frames l ↔ i ∈ l.map pageToIndex :=
  List.mem_toFinset

/-- Pages of `r` are the first ones of `l`, one a frame, as many as fit. -/
structure Kept (l r : List Nat) : Prop where
  sub : frames r ⊆ frames l
  distinct : (r.map pageToIndex).Nodup
  length : r.length = min maxFrames (frames l).card

namespace Kept

variable {l r : List Nat}

theorem card (h : Kept l r) : (frames r).card = r.length := by
  unfold frames
  rw [List.toFinset_card_of_nodup h.distinct, List.length_map]

/-- A page is pushed when its frame is new and the stack is not full, and that can be told from the
pages offered. -/
theorem push_iff (h : Kept l r) (a : Nat) :
    (pageToIndex a ∈ r.map pageToIndex ∨ maxFrames ≤ r.length) ↔
      ¬ (pageToIndex a ∉ l.map pageToIndex ∧ (frames l).card < maxFrames) := by
  have hlen := h.length
  constructor
  · rintro (hr | hr) ⟨hn, hlt⟩
    · exact hn (mem_frames.mp (h.sub (mem_frames.mpr hr)))
    · omega
  · intro hcon
    by_contra hnot
    rw [not_or, not_le] at hnot
    have hlt : (frames l).card < maxFrames := by omega
    have heq : frames r = frames l :=
      Finset.eq_of_subset_of_card_le h.sub (by rw [h.card]; omega)
    refine hcon ⟨fun hl => hnot.1 ?_, hlt⟩
    rwa [← mem_frames, heq, mem_frames]

theorem step (h : Kept l r) (a : Nat) : Kept (l ++ [a]) (freed r a) := by
  have hlen := h.length
  have hpush := h.push_iff a
  unfold freed
  by_cases hp : pageToIndex a ∈ r.map pageToIndex ∨ maxFrames ≤ r.length
  · rw [if_pos hp]
    refine ⟨fun i hi => ?_, h.distinct, ?_⟩
    · rw [frames_append]
      exact Finset.mem_insert_of_mem (h.sub hi)
    · rw [frames_append]
      have hle := Finset.card_le_card (Finset.subset_insert (pageToIndex a) (frames l))
      by_cases hmem : pageToIndex a ∈ frames l
      · rw [Finset.insert_eq_self.mpr hmem]
        exact hlen
      · have : ¬ (frames l).card < maxFrames := fun hlt =>
          hpush.mp hp ⟨fun hm => hmem (mem_frames.mpr hm), hlt⟩
        omega
  · rw [if_neg hp]
    have hnew := not_not.mp (fun hn => hp (hpush.mpr hn))
    rw [not_or, not_le] at hp
    refine ⟨?_, ?_, ?_⟩
    · rw [frames_append, frames_append]
      exact Finset.insert_subset_insert _ h.sub
    · rw [List.map_append, List.nodup_append]
      refine ⟨h.distinct, by simp, ?_⟩
      rintro i hi j hj rfl
      rw [List.map_singleton, List.mem_singleton] at hj
      exact hp.1 (hj ▸ hi)
    · rw [frames_append, Finset.card_insert_of_notMem (fun hm => hnew.1 (mem_frames.mp hm)),
        List.length_append, List.length_singleton]
      omega

end Kept

theorem subset_freed (l : List Nat) (a : Nat) : l ⊆ freed l a := by
  unfold freed
  split
  · exact List.Subset.refl l
  · exact List.subset_append_left l [a]

theorem kept_foldl (l : List Nat) : Kept l (l.foldl freed []) := by
  induction l using List.reverseRecOn with
  | nil => exact ⟨subset_rfl, List.nodup_nil, by simp [frames]⟩
  | append_singleton l a ih =>
    rw [List.foldl_append]
    exact ih.step a

/-- **What is on the stack**: the pages whose frame is offered for the first time, while fewer than
`MAX_FRAMES` frames were offered before. -/
theorem mem_foldl_freed {l : List Nat} {p : Nat} : p ∈ l.foldl freed [] ↔
    ∃ pre post, l = pre ++ p :: post ∧ pageToIndex p ∉ pre.map pageToIndex ∧
      (frames pre).card < maxFrames := by
  induction l using List.reverseRecOn with
  | nil => simp
  | append_singleton l a ih =>
    have hpush := (kept_foldl l).push_iff a
    rw [List.foldl_append, List.foldl_cons, List.foldl_nil]
    constructor
    · intro hp
      unfold freed at hp
      split at hp
      · obtain ⟨pre, post, rfl, h1, h2⟩ := ih.mp hp
        exact ⟨pre, post ++ [a], by simp, h1, h2⟩
      · rename_i hnot
        rcases List.mem_append.mp hp with hp | hp
        · obtain ⟨pre, post, rfl, h1, h2⟩ := ih.mp hp
          exact ⟨pre, post ++ [a], by simp, h1, h2⟩
        · have hnew := not_not.mp (fun hn => hnot (hpush.mpr hn))
          rw [List.mem_singleton.mp hp]
          exact ⟨l, [], rfl, hnew⟩
    · rintro ⟨pre, post, heq, h1, h2⟩
      rcases List.eq_nil_or_concat post with rfl | ⟨post', b, rfl⟩
      · obtain ⟨rfl, hpa⟩ := List.append_inj' heq rfl
        cases hpa
        have hnew : freed (l.foldl freed []) p = l.foldl freed [] ++ [p] :=
          if_neg (fun h => hpush.mp h ⟨h1, h2⟩)
        rw [hnew]
        simp
      · rw [List.concat_eq_append, ← List.cons_append, ← List.append_assoc] at heq
        obtain ⟨rfl, -⟩ := List.append_inj' heq rfl
        exact subset_freed _ a (ih.mpr ⟨pre, post', rfl, h1, h2⟩)

/-- `o` is the first offer of its frame, and fewer than `MAX_FRAMES` frames are offered before. -/
def First (os : List Offer) (o : Offer) : Prop :=
  ∃ pre post, os = pre ++ o :: post ∧ (∀ q ∈ pre, pageToIndex q.page ≠ pageToIndex o.page) ∧
    (frames (pre.map Offer.page)).card < maxFrames

theorem mem_stack {os : List Offer} {p : Nat} : p ∈ (os.map Offer.page).foldl freed [] ↔
    ∃ o, First os o ∧ o.page = p := by
  rw [mem_foldl_freed]
  constructor
  · rintro ⟨pre, post, heq, h1, h2⟩
    obtain ⟨pre', rest, rfl, rfl, hrest⟩ := List.map_eq_append_iff.mp heq
    obtain ⟨o, post', rfl, rfl, rfl⟩ := List.map_eq_cons_iff.mp hrest
    refine ⟨o, ⟨pre', post', rfl, fun q hq hne => h1 ?_, h2⟩, rfl⟩
    rw [← hne]
    exact List.mem_map_of_mem (List.mem_map_of_mem hq)
  · rintro ⟨o, ⟨pre, post, rfl, h1, h2⟩, rfl⟩
    refine ⟨pre.map Offer.page, post.map Offer.page, by simp, fun hmem => ?_, h2⟩
    obtain ⟨p, hp, heq⟩ := List.mem_map.mp hmem
    obtain ⟨q, hq, rfl⟩ := List.mem_map.mp hp
    exact h1 q hq heq

/-! ### Soundness of the map -/

/-- A whole frame of an available region, outside the kernel image. -/
structure GoodPage (kernelPhysEnd : Nat) (es : List Entry) (p : Nat) : Prop where
  aligned : p % pageSize = 0
  available : ∃ e ∈ es, e.type = memoryAvailable ∧ e.base ≤ p ∧ p + pageSize ≤ e.base + e.length
  offKernel : ∀ x, p ≤ x → x < p + pageSize → ¬ (kernelPhysStart ≤ x ∧ x < kernelPhysEnd)

/-- **The maps that `parse_multiboot_info` handles**: it can parse them, and an entry that is the
first to offer a frame begins at a page address, and the page fits in an available region by both
words of base and length. -/
structure MapFits (kernelPhysEnd : Nat) (es : List Entry) : Prop where
  parses : Parses kernelPhysEnd es
  first : ∀ o, First (offers kernelPhysEnd es) o → o.entry.baseAddrLow % pageSize = 0 ∧
    ∃ e ∈ es, e.type = memoryAvailable ∧ e.base ≤ o.page ∧ o.page + pageSize ≤ e.base + e.length

section

variable {m : Mem} {mbi kernelPhysEnd : Nat} {es : List Entry}

theorem mem_pageRange : ∀ (n addr : Nat) {p : Nat}, p ∈ pageRange addr n →
    addr ≤ p ∧ p % pageSize = addr % pageSize
  | 0, _, _, h => absurd h List.not_mem_nil
  | n + 1, addr, p, h => by
    rcases List.mem_cons.mp h with rfl | h
    · exact ⟨le_rfl, rfl⟩
    · obtain ⟨h1, h2⟩ := mem_pageRange n _ h
      unfold pageSize at *
      omega

/-- An offer is as far into its page as its entry, and is not in the kernel image. -/
theorem offer_page {o : Offer} (ho : o ∈ offers kernelPhysEnd es) :
    o.page % pageSize = o.entry.baseAddrLow % pageSize ∧
      ¬ (kernelPhysStart ≤ o.page ∧ o.page < kernelPhysEnd) := by
  obtain ⟨-, hp⟩ := mem_offers.mp ho
  unfold Entry.pages at hp
  split at hp
  · obtain ⟨h1, h2⟩ := List.mem_filter.mp hp
    exact ⟨(mem_pageRange _ _ h1).2, of_decide_eq_true h2⟩
  · exact absurd hp List.not_mem_nil

theorem First.mem {os : List Offer} {o : Offer} (h : First os o) : o ∈ os := by
  obtain ⟨pre, post, rfl, -⟩ := h
  simp

/-- A page address outside the kernel image begins a page outside it. -/
theorem page_offKernel {p : Nat} (hal : p % pageSize = 0)
    (h : ¬ (kernelPhysStart ≤ p ∧ p < kernelPhysEnd)) :
    ∀ x, p ≤ x → x < p + pageSize → ¬ (kernelPhysStart ≤ x ∧ x < kernelPhysEnd) := by
  intro x h1 h2
  unfold kernelPhysStart pageSize at *
  omega

/-- **Every page on the stack is a whole available frame exactly for the maps of `MapFits`.** -/
theorem boot_sound_iff (hm : HasMap m mbi es) (s : State) :
    (∃ fuel s', parseMultibootInfo fuel m kernelPhysEnd s mbi = .ok s' ∧
      ∀ p ∈ Pmm.pages s'.pmm, GoodPage kernelPhysEnd es p) ↔ MapFits kernelPhysEnd es := by
  constructor
  · rintro ⟨fuel, s', hr, hgood⟩
    obtain ⟨hparse, -, hpages⟩ := parse_ok hm hr
    refine ⟨hparse, fun o ho => ?_⟩
    have hp := hgood o.page (by rw [hpages]; exact mem_stack.mpr ⟨o, ho, rfl⟩)
    exact ⟨(offer_page ho.mem).1.symm.trans hp.aligned, hp.available⟩
  · intro hfits
    obtain ⟨fuel, s', hr, -, hpages⟩ := parse_total hm hfits.parses s
    refine ⟨fuel, s', hr, fun p hp => ?_⟩
    rw [hpages] at hp
    obtain ⟨o, ho, rfl⟩ := mem_stack.mp hp
    obtain ⟨hal, hav⟩ := hfits.first o ho
    obtain ⟨h1, h2⟩ := offer_page ho.mem
    exact ⟨h1.trans hal, hav, page_offKernel (h1.trans hal) h2⟩

theorem first_of_mem {os : List Offer} {o : Offer}
    (hdistinct : (os.map fun o => pageToIndex o.page).Nodup) (hroom : os.length ≤ maxFrames)
    (ho : o ∈ os) : First os o := by
  obtain ⟨pre, post, rfl⟩ := List.append_of_mem ho
  refine ⟨pre, post, rfl, fun q hq heq => ?_, ?_⟩
  · rw [List.map_append, List.nodup_append] at hdistinct
    exact hdistinct.2.2 _ (List.mem_map_of_mem hq) _ (by simp) heq
  · have hcard : (frames (pre.map Offer.page)).card ≤ pre.length :=
      (List.toFinset_card_le _).trans (by simp)
    simp only [List.length_append, List.length_cons] at hroom
    omega

/-- **Where no frame is offered twice**, and the stack has room for all of them, it is a condition
on each entry. -/
theorem mapFits_iff (hdistinct : ((offers kernelPhysEnd es).map fun o => pageToIndex o.page).Nodup)
    (hroom : (offers kernelPhysEnd es).length ≤ maxFrames) : MapFits kernelPhysEnd es ↔
      Parses kernelPhysEnd es ∧ ∀ e ∈ es, ∀ p ∈ e.pages kernelPhysEnd,
        e.baseAddrLow % pageSize = 0 ∧
        ∃ e' ∈ es, e'.type = memoryAvailable ∧ e'.base ≤ p ∧
          p + pageSize ≤ e'.base + e'.length := by
  constructor
  · intro h
    refine ⟨h.parses, fun e he p hp => ?_⟩
    exact h.first ⟨e, p⟩ (first_of_mem hdistinct hroom (mem_offers.mpr ⟨he, hp⟩))
  · rintro ⟨hparses, hentries⟩
    refine ⟨hparses, fun o ho => ?_⟩
    obtain ⟨he, hp⟩ := mem_offers.mp ho.mem
    exact hentries o.entry he o.page hp

end

/-! ### Two maps -/

/-- Consecutive words from `a` on. -/
def storeWords (m : Mem) : Nat → List Nat → Mem
  | _, [] => m
  | a, w :: ws => storeWords (store32 m a w) (a + 4) ws

/-- A boot information at 4096 whose memory map has one entry. -/
def mapOf (e : Entry) : Mem :=
  storeWords (storeWords (fun _ => 0) 4096 [64, 0, 0, 0, 0, 0, 0, 0, 0, 0, 0, 24, 8192]) 8192
    [e.size, e.baseAddrLow, e.baseAddrHigh, e.lengthLow, e.lengthHigh, e.type]

/-- The state before the boot. -/
def blank : State := ⟨0, 0, ⟨fun _ => 0, fun _ => 0, 0, 0, 0⟩⟩

/-- The memory below the extended BIOS data area, which ends inside the page `0x9F000`. -/
def lowMemory : Entry := ⟨20, 0, 0, 0x9FC00, 0, 1⟩

theorem lowMemory_map : HasMap (mapOf lowMemory) 4096 [lowMemory] :=
  ⟨by decide, by decide, by decide, by decide, rfl⟩

theorem lowMemory_parses : Parses 0x200000 [lowMemory] := by
  refine ⟨fun e he _ => ?_, by decide +kernel⟩
  rw [List.mem_singleton.mp he]
  decide

/-- The page that the low memory ends in is on the stack, and is not a whole available frame. -/
theorem lowMemory_tail : ∃ m mbi kernelPhysEnd es s fuel s' p, HasMap m mbi es ∧
    parseMultibootInfo fuel m kernelPhysEnd s mbi = .ok s' ∧ p ∈ Pmm.pages s'.pmm ∧
      ¬ GoodPage kernelPhysEnd es p := by
  obtain ⟨fuel, s', hr, -, hpages⟩ := parse_total lowMemory_map lowMemory_parses blank
  refine ⟨_, _, _, _, _, fuel, s', 0x9F000, lowMemory_map, hr, ?_, fun hgood => ?_⟩
  · rw [hpages]
    decide +kernel
  · obtain ⟨e, he, -, -, hle⟩ := hgood.available
    rw [List.mem_singleton.mp he] at hle
    exact absurd hle (by decide)

/-- Two pages above the kernel image. -/
def highMemory : Entry := ⟨20, 0x200000, 0, 0x2000, 0, 1⟩

theorem boot_sound_iff_highMemory : ∃ fuel s',
    parseMultibootInfo fuel (mapOf highMemory) 0x180000 blank 4096 = .ok s' ∧
      ∀ p ∈ Pmm.pages s'.pmm, GoodPage 0x180000 [highMemory] p := by
  have hmap : HasMap (mapOf highMemory) 4096 [highMemory] :=
    ⟨by decide, by decide, by decide, by decide, rfl⟩
  have hlist : highMemory.pages 0x180000 = [0x200000, 0x201000] := by decide
  have hoffers :
      offers 0x180000 [highMemory] = [⟨highMemory, 0x200000⟩, ⟨highMemory, 0x201000⟩] := by
    simp [offers, hlist]
  have hfits : MapFits 0x180000 [highMemory] := by
    refine (mapFits_iff (by rw [hoffers]; decide) (by rw [hoffers]; decide)).mpr
      ⟨⟨fun e he _ => ?_, by decide⟩, fun e he p hp => ?_⟩
    · rw [List.mem_singleton.mp he]
      decide
    · rw [List.mem_singleton.mp he] at hp ⊢
      rw [hlist] at hp
      refine ⟨by decide, highMemory, by simp, rfl, ?_⟩
      obtain rfl | rfl : p = 0x200000 ∨ p = 0x201000 := by simpa using hp
      · decide
      · decide
  exact (boot_sound_iff hmap blank).mpr hfits

end CobraOS.Boot
