import CobraOS.Heap.Alloc

/-!
# Release

`coalesce` reads the header at the address it computes for the buddy.  That address is the base of
a chunk of the tiling of no larger order (`Tiles.exists_at_buddy`), so the header is a real one, and
the words `free` and `order` found there say that the buddy is on a list exactly when it is
(`buddy_test`).  `coalesceLoop_spec` is the loop, with the block in hand outside the lists;
`buddyFree_spec` is the release of a used block, and `Released` what it does.
-/

namespace CobraOS.Heap

open Base Chunk

/-- `c` is used in `h`, and one of the free chunks of `h'` contains it. -/
structure Released (h : State) (B F : Set Chunk) (h' : State) (B' F' : Set Chunk) (c : Chunk) :
    Prop where
  shape : Shape h' B' F'
  coalesced : NoBuddies F'
  used : ∀ u, u ∈ B' ∧ u ∉ F' ↔ (u ∈ B ∧ u ∉ F) ∧ u ≠ c
  frame : ∀ x, ¬ InSpan F x → ¬ c.Has x → h'.mem x = h.mem x

/-- The block `c` is in hand: it is part of the tiling but on no list, and every other block that is
on no list is in use. -/
structure InHand (h : State) (B F : Set Chunk) (c : Chunk) : Prop where
  shape : Shape h B F
  mem : c ∈ B
  taken : c ∉ F
  order : blockOrder h.mem c.base = c.order
  free : blockFree h.mem c.base = 1
  coalesced : NoBuddies F
  used : ∀ u ∈ B, u ∉ F → u ≠ c → blockFree h.mem u.base = 0

section

variable {h : State} {B F : Set Chunk} {c : Chunk}

theorem buddy_base_ne (c : Chunk) : c.buddy.base ≠ c.base :=
  fun he => buddy_ne c (Chunk.ext he rfl)

/-- **The test of `coalesce` is right**: the words at the buddy's address say that it is a free
block of the same order exactly when it is one. -/
theorem buddy_test (hh : InHand h B F c) (ho : c.order < maxBlockShift) :
    (blockFree h.mem c.buddy.base = 0 ∨ blockOrder h.mem c.buddy.base ≠ c.order) ↔ c.buddy ∉ F := by
  constructor
  · rintro (h0 | h0) hb
    · rw [hh.shape.free _ hb] at h0
      exact absurd h0 (by decide)
    · exact h0 (hh.shape.order _ hb)
  · intro hb
    by_contra hcon
    rw [not_or, not_not] at hcon
    obtain ⟨d, hd, hdb, hdo⟩ := hh.shape.tiles.exists_at_buddy root_aligned hh.mem ho
    have hdc : d ≠ c := by
      rintro rfl
      exact buddy_base_ne _ hdb.symm
    have hdF : d ∈ F := by
      by_contra hdF
      exact hcon.1 (hdb ▸ hh.used d hd hdF hdc)
    have hord : d.order = c.order := by
      rw [← hh.shape.order d hdF, hdb]
      exact hcon.2
    exact hb ((Chunk.ext hdb hord : d = c.buddy) ▸ hdF)

theorem buddy_root (hh : InHand h B F c) (ho : c.order = maxBlockShift) : c.buddy ∉ F := by
  intro hb
  have hroot : c = root := eq_of_sub_of_order (hh.shape.tiles.sub c hh.mem) ho
  have hsub := hh.shape.tiles.sub _ (hh.shape.sub hb)
  rw [hroot] at hsub
  exact buddy_apart root_aligned _ (hsub.has root.buddy.has_base) root.buddy.has_base

/-! ### Merging a block with its buddy -/

/-- The memory after `coalesce` has made the parent of `c` a free block. -/
def markParent (m : Mem) (c : Chunk) : Mem :=
  setFree (setOrder m c.parent.base (c.order + 1)) c.parent.base 1

theorem min_base (hal : c.Aligned) :
    (if c.buddy.base < c.base then c.buddy.base else c.base) = c.parent.base := by
  have hp := c.size_pos
  rcases parent_base hal with ⟨h1, h2⟩ | ⟨h1, h2⟩
  · rw [if_neg (by omega), h1]
  · rw [if_pos (by omega), h1]

theorem parent_not_mem (hs : Shape h B F) (hc : c ∈ B) : c.parent ∉ B := by
  intro hp
  have hsub := sub_parent (hs.tiles.aligned c hc)
  have hord := congrArg Chunk.order
    (hs.tiles.unique _ hp c hc c.base (hsub.has c.has_base) c.has_base)
  simp [parent] at hord

theorem outside_parent (hs : Shape h B F) (hc : c ∈ B) (hb : c.buddy ∈ B) {d : Chunk} (hd : d ∈ B)
    (hdc : d ≠ c) (hdb : d ≠ c.buddy) {x : Nat} (hdx : d.Has x) : ¬ c.parent.Has x := by
  intro hx
  rcases (has_parent (hs.tiles.aligned c hc) x).mp hx with hx | hx
  · exact hdc (hs.tiles.unique d hd c hc x hdx hx)
  · exact hdb (hs.tiles.unique d hd _ hb x hdx hx)

theorem markParent_frame (m : Mem) (hsize : 32 ≤ 2 ^ c.order) {x : Nat} (hx : ¬ c.parent.Has x) :
    markParent m c x = m x := by
  have hparent := c.parent_size
  refine mark_frame _ _ _ ?_
  unfold Has at hx
  omega

theorem markParent_shape (hs : Shape h B F) (hc : c ∈ B) (hcF : c ∉ F) (hb : c.buddy ∈ F)
    (ho : c.order < maxBlockShift) {h1 : State} (hs1 : Shape h1 B (F \ {c.buddy})) :
    Shape { h1 with mem := markParent h1.mem c } (insert c.parent (B \ {c, c.buddy}))
      (F \ {c.buddy}) := by
  have hne : ∀ d ∈ F, d ≠ c := fun d hd he => hcF (he ▸ hd)
  have hF : F \ {c.buddy} ⊆ insert c.parent (B \ {c, c.buddy}) := by
    rintro d ⟨hd, hdb⟩
    refine Set.mem_insert_of_mem _ ⟨hs.sub hd, ?_⟩
    rintro (rfl | he)
    · exact hcF hd
    · exact hdb he
  have hsmall : ∀ d ∈ insert c.parent (B \ {c, c.buddy}), minBlockShift ≤ d.order := by
    rintro d (rfl | hd)
    · exact Nat.le_succ_of_le (hs.small c hc)
    · exact hs.small d hd.1
  refine (hs1.retile (hs.tiles.merge root_aligned hc (hs.sub hb) ho) hF hsmall).of_frame ?_
  rintro x ⟨d, ⟨hd, hdb⟩, hdx⟩
  exact markParent_frame h1.mem (hs.inHeap hc).size
    (outside_parent hs hc (hs.sub hb) (hs.sub hd) (hne d hd) hdb hdx)

theorem sub_merged (hal : c.Aligned) {D g : Chunk} (hg : g ∈ B) (hDg : D.Sub g) :
    ∃ g ∈ insert c.parent (B \ {c, c.buddy}), D.Sub g := by
  by_cases hgc : g = c
  · exact ⟨_, Set.mem_insert _ _, (hgc ▸ hDg).trans (sub_parent hal)⟩
  · by_cases hgb : g = c.buddy
    · exact ⟨_, Set.mem_insert _ _, (hgb ▸ hDg).trans (buddy_sub_parent hal)⟩
    · exact ⟨g, Set.mem_insert_of_mem _ ⟨hg, by simp [hgc, hgb]⟩, hDg⟩

theorem markParent_calm (hs : Shape h B F) (hc : c ∈ B) (hb : c.buddy ∈ B) {D g : Chunk}
    (hD : Spot D) (hg : g ∈ B) (hDg : D.Sub g) (m : Mem) : Calm D m (markParent m c) := by
  have hpar : Beside D c.parent.base := by
    rcases parent_base (hs.tiles.aligned c hc) with ⟨he, -⟩ | ⟨he, -⟩
    · exact he ▸ hs.beside hD hg hDg hc
    · exact he ▸ hs.beside hD hg hDg hb
  exact (Calm.setOrder hD hpar _ _).trans (Calm.setFree hD hpar _)

theorem markParent_free (hs : Shape h B F) (hc : c ∈ B) (hb : c.buddy ∈ B) {u : Chunk} (hu : u ∈ B)
    (huc : u ≠ c) (hub : u ≠ c.buddy) (m : Mem) :
    blockFree (markParent m c) u.base = blockFree m u.base := by
  have hsize := (hs.inHeap hu).size
  exact load32_congr (fun x h1 h2 =>
    markParent_frame m (hs.inHeap hc).size
      (outside_parent hs hc hb hu huc hub ⟨by omega, by omega⟩))

/-- **One round of `coalesce`**: the buddy leaves its list and the parent is in hand. -/
theorem merge_spec (hh : InHand h B F c) (ho : c.order < maxBlockShift) (hb : c.buddy ∈ F) :
    ∃ h1, removeFreeBlock h c.buddy.base = .ok h1 ∧
      InHand { h1 with mem := markParent h1.mem c }
        (insert c.parent (B \ {c, c.buddy})) (F \ {c.buddy}) c.parent ∧
      (∀ x, ¬ InSpan F x → ¬ c.Has x → markParent h1.mem c x = h.mem x) ∧
      ∀ D, Spot D → (∃ g ∈ B, D.Sub g) → (∃ g ∈ insert c.parent (B \ {c, c.buddy}), D.Sub g) ∧
        Calm D h.mem (markParent h1.mem c) := by
  have hs := hh.shape
  have hal := hs.tiles.aligned c hh.mem
  have hin := hs.inHeap hh.mem
  have hbB := hs.sub hb
  obtain ⟨h1, hrun, hs1, hn1, -⟩ := removeFreeBlock_spec hs hb
  have hmark := setFree_setOrder h1.mem c.parent.base (k := c.order + 1)
    (by have := hin.order; omega)
  refine ⟨h1, hrun, ⟨markParent_shape hs hh.mem hh.taken hb ho hs1, Set.mem_insert _ _,
    fun hp => parent_not_mem hs hh.mem (hs.sub hp.1), hmark.1, hmark.2,
    hh.coalesced.subset Set.sdiff_subset, ?_⟩, ?_, ?_⟩
  · rintro u (rfl | ⟨hu, hucb⟩) huF hup
    · exact absurd rfl hup
    · simp only [Set.mem_insert_iff, Set.mem_singleton_iff, not_or] at hucb
      have huF' : u ∉ F := fun h => huF ⟨h, hucb.2⟩
      rw [markParent_free hs hh.mem hbB hu hucb.1 hucb.2, (hs.header_of_nextOnly hs.sub hn1 hu).2.1]
      exact hh.used u hu huF' hucb.1
  · intro x hx hcx
    rw [markParent_frame h1.mem hin.size ?_, hn1.frame hs hx]
    intro hpx
    rcases (has_parent hal x).mp hpx with h | h
    · exact hcx h
    · exact hx ⟨_, hb, h⟩
  · rintro D hD ⟨g, hg, hDg⟩
    have hremove := Calm.of_nextOnly hD (fun d hd => hs.beside hD hg hDg (hs.sub hd)) hn1
    exact ⟨sub_merged hal hg hDg, hremove.trans (markParent_calm hs hh.mem hbB hD hg hDg h1.mem)⟩

theorem merged_used (hh : InHand h B F c) (hb : c.buddy ∈ F) (u : Chunk) :
    (u ∈ insert c.parent (B \ {c, c.buddy}) ∧ u ∉ F \ {c.buddy}) ∧ u ≠ c.parent ↔
      (u ∈ B ∧ u ∉ F) ∧ u ≠ c := by
  have hpB := parent_not_mem hh.shape hh.mem
  by_cases hup : u = c.parent
  · subst hup
    simp [hpB]
  · by_cases hub : u = c.buddy
    · subst hub
      simp [hup, hb]
    · simp only [Set.mem_insert_iff, Set.mem_sdiff, Set.mem_singleton_iff, hup, hub,
        false_or, or_false, not_false_iff, and_true]
      tauto

/-! ### Release of a block -/

/-- **The merging loop** ends with a block in hand whose buddy is not free. -/
theorem coalesceLoop_spec : ∀ (n : Nat) {h : State} {B F : Set Chunk} {c : Chunk},
    InHand h B F c → c.order + n = maxBlockShift →
    ∃ h' B' F' c', coalesceLoop n h c.base c.order = .ok (c'.base, h') ∧ InHand h' B' F' c' ∧
      c'.buddy ∉ F' ∧ (∀ u, (u ∈ B' ∧ u ∉ F') ∧ u ≠ c' ↔ (u ∈ B ∧ u ∉ F) ∧ u ≠ c) ∧
      (∀ x, ¬ InSpan F x → ¬ c.Has x → h'.mem x = h.mem x) ∧
      (∀ x, InSpan F' x ∨ c'.Has x → InSpan F x ∨ c.Has x) ∧
      ∀ D, Spot D → (∃ g ∈ B, D.Sub g) → (∃ g ∈ B', D.Sub g) ∧ Calm D h.mem h'.mem := by
  intro n
  induction n with
  | zero =>
    intro h B F c hh ho
    exact ⟨h, B, F, c, rfl, hh, buddy_root hh ho, fun _ => Iff.rfl, fun _ _ _ => rfl,
      fun _ hx => hx, fun D _ hg => ⟨hg, .refl D h.mem⟩⟩
  | succ n ih =>
    intro h B F c hh ho
    have hlt : c.order < maxBlockShift := by omega
    have htest := buddy_test hh hlt
    unfold coalesceLoop
    rw [buddyOf_eq hh.order]
    by_cases hb : c.buddy ∈ F
    · have hgo : ¬ (blockFree h.mem c.buddy.base = 0 ∨ blockOrder h.mem c.buddy.base ≠ c.order) :=
        fun hcon => htest.mp hcon hb
      have hal := hh.shape.tiles.aligned c hh.mem
      obtain ⟨h1, hrun, hh1, hm1, hcalm1⟩ := merge_spec hh hlt hb
      obtain ⟨h', B', F', c', hrun', hh', hb', hu', hm', hsp', hcalm'⟩ :=
        ih hh1 (show c.order + 1 + n = _ by omega)
      -- the parent is the block and a free chunk
      have hpar : ∀ x, c.parent.Has x → InSpan F x ∨ c.Has x := by
        intro x hx
        rcases (has_parent hal x).mp hx with h | h
        · exact Or.inr h
        · exact Or.inl ⟨_, hb, h⟩
      have hsub : ∀ x, InSpan (F \ {c.buddy}) x → InSpan F x :=
        fun x => InSpan.mono Set.sdiff_subset
      refine ⟨h', B', F', c', ?_, hh', hb', fun u => (hu' u).trans (merged_used hh hb u), ?_, ?_,
        fun D hD hg => ?_⟩
      · rw [if_neg hgo]
        simp only [hrun, bind, Except.bind, min_base hal]
        exact hrun'
      · intro x hx hcx
        rw [hm' x (fun h => hx (hsub x h)) (fun h => ?_)]
        · exact hm1 x hx hcx
        · rcases hpar x h with h | h
          · exact hx h
          · exact hcx h
      · intro x hx
        rcases hsp' x hx with h | h
        · exact Or.inl (hsub x h)
        · exact hpar x h
      · obtain ⟨hg1, hcalm⟩ := hcalm1 D hD hg
        obtain ⟨hg', hcalm'⟩ := hcalm' D hD hg1
        exact ⟨hg', hcalm.trans hcalm'⟩
    · refine ⟨h, B, F, c, ?_, hh, hb, fun _ => Iff.rfl, fun _ _ _ => rfl, fun _ hx => hx,
        fun D _ hg => ⟨hg, .refl D h.mem⟩⟩
      rw [if_pos (htest.mpr hb)]

/-- **`buddy_free` of a used block** returns it to the lists, merged as far as possible. -/
theorem buddyFree_spec (hs : Shape h B F) (hn : NoBuddies F) (hc : c ∈ B) (hcF : c ∉ F)
    (hu : ∀ u ∈ B, u ∉ F → blockOrder h.mem u.base = u.order ∧ blockFree h.mem u.base = 0) {p : Nat}
    (hp : p ≠ 0) (hown : ownerWord h.mem p = c.base) :
    ∃ h' B' F', buddyFree h p = .ok h' ∧ Released h B F h' B' F' c ∧
      ∀ D, Spot D → (∃ g ∈ B, D.Sub g) → Calm D (setFree h.mem c.base 1) h'.mem := by
  have hin := hs.inHeap hc
  have hmark := header_writes h.mem c.base 1 (by decide)
  have hm : ∀ x, ¬ c.Has x → setFree h.mem c.base 1 x = h.mem x := by
    intro x hx
    have hx' : x < c.base ∨ c.base + 16 ≤ x := by
      have := hin.size
      unfold Has at hx
      omega
    exact (header_frame _ _ _ hx').2.2.1
  have hhand : InHand { h with mem := setFree h.mem c.base 1 } B F c := by
    refine ⟨hs.of_frame ?_, hc, hcF, hmark.2.2.2.1.trans (hu c hc hcF).1, hmark.2.1, hn, ?_⟩
    · rintro x ⟨d, hd, hdx⟩
      exact hm x (fun hx => hcF (hs.tiles.unique d (hs.sub hd) c hc x hdx hx ▸ hd))
    · intro u huB huF huc
      have := hs.sep hc huB (Ne.symm huc)
      exact ((header_apart h.mem 1 (by omega)).2.1.2).trans (hu u huB huF).2
  obtain ⟨h1, B', F', c', hrun, hh', hb', hu', hm', hsp', hcalm⟩ := coalesceLoop_spec
    (maxBlockShift - c.order) hhand (by have := hin.order; unfold maxBlockShift; omega)
  obtain ⟨h2, hrun2, hs2, hmem2, -⟩ := insertFreeBlock_spec hh'.shape hh'.mem hh'.taken hh'.order
    hh'.free
  refine ⟨h2, B', insert c' F', ?_, ⟨hs2, hh'.coalesced.insert hb', ?_, ?_⟩, fun D hD hg => ?_⟩
  · have hblock : ¬ (c.base = 0 ∨ blockFree h.mem c.base ≠ 0) := by
      rw [(hu c hc hcF).2]
      have := hin.lo
      omega
    have hord : blockOrder (setFree h.mem c.base 1) c.base = c.order := hhand.order
    unfold buddyFree
    simp only [if_neg hp, hown, if_neg hblock, coalesce, hord, hrun, bind, Except.bind]
    exact hrun2
  · intro u
    rw [← hu' u, Set.mem_insert_iff, not_or, and_assoc]
    tauto
  · intro x hx hcx
    have hx' : ¬ (InSpan F' x ∨ c'.Has x) := by
      intro h
      rcases hsp' x h with h | h
      · exact hx h
      · exact hcx h
    have hsz := (hh'.shape.inHeap hh'.mem).size
    have hout : x < c'.base ∨ c'.base + 16 ≤ x := by
      have h2 : ¬ c'.Has x := fun h => hx' (Or.inr h)
      unfold Has at h2
      omega
    rw [hmem2, (header_frame _ _ _ hout).1, hm' x hx hcx]
    exact hm x hcx
  · obtain ⟨⟨g, hg, hDg⟩, hcalm⟩ := hcalm D hD hg
    rw [hmem2]
    exact hcalm.trans (Calm.setNext hD (hh'.shape.beside hD hg hDg hh'.mem) _ _)

end
end CobraOS.Heap
