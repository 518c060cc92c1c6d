import CobraOS.Heap.Calm

/-!
# Allocation

`buddy_alloc` takes the first block of the smallest list that is large enough and not empty, and
halves it down to the order it needs.  While it halves, the only buddies among the free chunks are
the two halves it has just made (`NoBuddiesExcept`), and the upper one is the next to be halved or
taken; so the free chunks are coalesced again when the block is taken.

`Allocated` is what a successful allocation does, and `buddyAlloc_spec` and `kmalloc_spec` say that
an allocation either does that or fails because every free chunk is too small.
-/

namespace CobraOS.Heap

open Base Chunk

/-- `c` was cut out of the free chunks of `h`, and is now a used block. -/
structure Allocated (h : State) (B F : Set Chunk) (h' : State) (B' F' : Set Chunk) (c : Chunk) :
    Prop where
  shape : Shape h' B' F'
  mem : c ∈ B'
  taken : c ∉ F'
  order : blockOrder h'.mem c.base = c.order
  free : blockFree h'.mem c.base = 0
  self : blockSelf h'.mem c.base = c.base
  coalesced : NoBuddies F'
  used : ∀ u, u ∈ B' ∧ u ∉ F' ↔ u = c ∨ u ∈ B ∧ u ∉ F
  fresh : ∀ x, c.Has x → InSpan F x
  frame : ∀ x, ¬ InSpan F x → h'.mem x = h.mem x

section

variable {h : State} {B F : Set Chunk}

theorem used_split (hs : Shape h B F) {c : Chunk} (hc : c ∈ F) (ho : 0 < c.order) (u : Chunk) :
    u ∈ insert c.hi (insert c.lo (B \ {c})) ∧ u ∉ insert c.hi (insert c.lo (F \ {c})) ↔
      u ∈ B ∧ u ∉ F := by
  have hnot : ∀ d ∈ B, d.Sub c → d = c := by
    intro d hd hdc
    exact hs.tiles.unique d hd c (hs.sub hc) d.base d.has_base (hdc.has d.has_base)
  have hord : ∀ d : Chunk, d.order = c.order - 1 → d ≠ c := by
    rintro d hd rfl
    omega
  constructor
  · rintro ⟨hu, hnu⟩
    simp only [Set.mem_insert_iff, Set.mem_sdiff, Set.mem_singleton_iff, not_or, not_and,
      not_not] at hu hnu
    rcases hu with hu | hu | ⟨hu, huc⟩
    · exact absurd hu hnu.1
    · exact absurd hu hnu.2.1
    · exact ⟨hu, fun huF => huc (hnu.2.2 huF)⟩
  · rintro ⟨hu, hnu⟩
    have h1 : u ≠ c.hi := fun he => hord _ (by rw [he]; rfl) (hnot u hu (he ▸ hi_sub ho))
    have h2 : u ≠ c.lo := fun he => hord _ (by rw [he]; rfl) (hnot u hu (he ▸ lo_sub c))
    have h3 : u ≠ c := fun he => hnu (he ▸ hc)
    simp [h1, h2, h3, hu, hnu]

theorem inSpan_split {c : Chunk} (hc : c ∈ F) (ho : 0 < c.order) {x : Nat}
    (hx : InSpan (insert c.hi (insert c.lo (F \ {c}))) x) : InSpan F x := by
  obtain ⟨d, rfl | rfl | hd, hdx⟩ := hx
  · exact ⟨c, hc, (hi_sub ho).has hdx⟩
  · exact ⟨c, hc, (lo_sub c).has hdx⟩
  · exact ⟨d, hd.1, hdx⟩

/-- **The splitting loop**: the block at the head of list `order + n` is halved down to `order`. -/
theorem splitDown_spec {order : Nat} (hmin : minBlockShift ≤ order) : ∀ (n : Nat) {h : State}
    {B F : Set Chunk} {cur : Chunk}, Shape h B F → cur ∈ F → h.freeLists cur.order = cur.base →
    cur.order = order + n → NoBuddiesExcept cur F →
    ∃ h' B' F' cur', splitDown order n h = .ok h' ∧ Shape h' B' F' ∧ cur' ∈ F' ∧
      cur'.order = order ∧ h'.freeLists order = cur'.base ∧ NoBuddiesExcept cur' F' ∧
      (∀ u, u ∈ B' ∧ u ∉ F' ↔ u ∈ B ∧ u ∉ F) ∧ (∀ x, ¬ InSpan F x → h'.mem x = h.mem x) ∧
      (∀ x, InSpan F' x → InSpan F x) ∧ cur'.Sub cur ∧
        (∀ D, Spot D → (∃ g ∈ B, D.Sub g) → D.Apart cur' →
        (∃ g ∈ B', D.Sub g) ∧ Calm D h.mem h'.mem) := by
  intro n
  induction n with
  | zero =>
    intro h B F cur hs hc hhead ho hn
    rw [Nat.add_zero] at ho
    exact ⟨h, B, F, cur, rfl, hs, hc, ho, ho ▸ hhead, hn, fun _ => Iff.rfl, fun _ _ => rfl,
      fun _ hx => hx, cur.sub_refl, fun D _ hg _ => ⟨hg, .refl D h.mem⟩⟩
  | succ n ih =>
    intro h B F cur hs hc hhead ho hn
    have hpos : 0 < cur.order := by omega
    obtain ⟨h1, hrun1, hs1, hm1, hfl1, m, v, w, hn1, hmem1⟩ :=
      splitBlock_spec hs hc hhead (by omega)
    have hal := hs.tiles.aligned cur (hs.sub hc)
    have ho1 : cur.hi.order = order + n := by
      show cur.order - 1 = _
      omega
    obtain ⟨h', B', F', cur', hrun, hs', hc', hco, hfl, hnb, hu, hm, hsp, hsub, hcalm⟩ :=
      ih hs1 (Set.mem_insert _ _) hfl1 ho1 (hn.split hal hpos)
    refine ⟨h', B', F', cur', ?_, hs', hc', hco, hfl, hnb, ?_, ?_, ?_, hsub.trans (hi_sub hpos), ?_⟩
    · unfold splitDown
      rw [← ho, hrun1]
      exact hrun
    · intro u
      rw [hu u, used_split hs hc hpos u]
    · intro x hx
      rw [hm x (fun h => hx (inSpan_split hc hpos h)), hm1 x hx]
    · intro x hx
      exact inSpan_split hc hpos (hsp x hx)
    · intro D hD hg hap
      -- `D` is not the chunk that is halved, so one half contains it if that chunk does
      have hg1 : ∃ g ∈ insert cur.hi (insert cur.lo (B \ {cur})), D.Sub g := by
        obtain ⟨g, hg, hDg⟩ := hg
        by_cases hgc : g = cur
        · subst hgc
          have hne : D.order ≠ g.order := by
            intro he
            rw [eq_of_sub_of_order hDg he] at hap
            exact hap _ ((hsub.trans (hi_sub hpos)).has cur'.has_base) cur'.has_base
          rcases sub_half hD.aligned hal hDg (lt_of_le_of_ne hDg.order_le hne) with hlo | hhi
          · exact ⟨_, Set.mem_insert_of_mem _ (Set.mem_insert _ _), hlo⟩
          · exact ⟨_, Set.mem_insert _ _, hhi⟩
        · exact ⟨g, Set.mem_insert_of_mem _ (Set.mem_insert_of_mem _ ⟨hg, hgc⟩), hDg⟩
      obtain ⟨g, hgB, hDg⟩ := hg
      obtain ⟨g1, hg1B, hDg1⟩ := hg1
      obtain ⟨hg', hcalm'⟩ := hcalm D hD ⟨g1, hg1B, hDg1⟩ hap
      have hhalves : Calm D m h1.mem := by
        rw [hmem1]
        exact Calm.writeHalves hD
          (hs1.beside hD hg1B hDg1 (Set.mem_insert_of_mem _ (Set.mem_insert _ _)))
          (hs1.beside hD hg1B hDg1 (Set.mem_insert _ _)) m v w
      have hremove : Calm D h.mem m :=
        Calm.of_nextOnly hD (fun d hd => hs.beside hD hgB hDg (hs.sub hd)) hn1
      exact ⟨hg', (hremove.trans hhalves).trans hcalm'⟩

/-! ### The two searches -/

theorem orderFor_spec (total : Nat) : ∀ (n o : Nat), o ≤ orderFor total n o ∧
    orderFor total n o ≤ o + n ∧
    (∀ k, o ≤ k → k < orderFor total n o → 2 ^ k < total) ∧
    (orderFor total n o < o + n → total ≤ 2 ^ orderFor total n o) := by
  intro n
  induction n with
  | zero =>
    intro o
    exact ⟨le_rfl, le_rfl, fun k h1 h2 => absurd h2 (by unfold orderFor; omega),
      fun h => absurd h (by unfold orderFor; omega)⟩
  | succ n ih =>
    intro o
    rw [orderFor]
    split
    · rename_i hlt
      obtain ⟨h1, h2, h3, h4⟩ := ih (o + 1)
      refine ⟨by omega, by omega, ?_, fun h => h4 (by omega)⟩
      intro k hk hk'
      by_cases he : k = o
      · rwa [he, ← Nat.one_mul (2 ^ o), ← Nat.shiftLeft_eq]
      · exact h3 k (by omega) hk'
    · rename_i hge
      rw [Nat.shiftLeft_eq, Nat.one_mul] at hge
      exact ⟨le_rfl, by omega, fun k h1 h2 => absurd h2 (by omega), fun _ => by omega⟩

theorem firstList_spec (fl : Nat → Nat) : ∀ (n o : Nat), o ≤ firstList fl n o ∧
    firstList fl n o ≤ o + n ∧ (∀ k, o ≤ k → k < firstList fl n o → fl k = 0) ∧
    (firstList fl n o < o + n → fl (firstList fl n o) ≠ 0) := by
  intro n
  induction n with
  | zero =>
    intro o
    exact ⟨le_rfl, le_rfl, fun k h1 h2 => absurd h2 (by unfold firstList; omega),
      fun h => absurd h (by unfold firstList; omega)⟩
  | succ n ih =>
    intro o
    rw [firstList]
    split
    · rename_i hz
      obtain ⟨h1, h2, h3, h4⟩ := ih (o + 1)
      refine ⟨by omega, by omega, ?_, fun h => h4 (by omega)⟩
      intro k hk hk'
      by_cases he : k = o
      · rw [he, hz]
      · exact h3 k (by omega) hk'
    · rename_i hz
      exact ⟨le_rfl, by omega, fun k h1 h2 => absurd h2 (by omega), fun _ => hz⟩

/-! ### `buddy_alloc` and `kmalloc` -/

/-- Taking the first block of a list, the end of `buddy_alloc`. -/
theorem take_spec (hs : Shape h B F) {cur : Chunk} (hc : cur ∈ F)
    (hhead : h.freeLists cur.order = cur.base) (hn : NoBuddiesExcept cur F) :
    ∃ h', (do
        let block := h.freeLists cur.order
        let h ← removeFreeBlock h block
        let mem := setSelf (setFree h.mem block 0) block block
        .ok (block + headerSize, { h with mem := mem }) : Except HeapStop (Nat × State)) =
          .ok (cur.base + headerSize, h') ∧ Allocated h B F h' B (F \ {cur}) cur ∧
        Spares B cur h.mem h'.mem := by
  have hcB := hs.sub hc
  have hin := hs.inHeap hcB
  have hlt : cur.base < 4294967296 := by
    have := hin.hi
    have := hin.size
    omega
  obtain ⟨h1, hrun, hs1, hn1, -⟩ := removeFreeBlock_spec hs hc
  let m := setSelf (setFree h1.mem cur.base 0) cur.base cur.base
  have hw1 := header_writes h1.mem cur.base 0 (by decide)
  have hw2 := header_writes (setFree h1.mem cur.base 0) cur.base cur.base hlt
  have hm : ∀ x, ¬ cur.Has x → m x = h1.mem x := by
    intro x hx
    have hx' : x < cur.base ∨ cur.base + 16 ≤ x := by
      have := hin.size
      unfold Has at hx
      omega
    exact (header_frame _ _ _ hx').2.2.2.trans (header_frame _ _ _ hx').2.2.1
  refine ⟨{ h1 with mem := m }, ?_, ?_, fun D hD hg hap => ?_⟩
  · simp only [hhead, hrun, bind, Except.bind]
    rfl
  · refine ⟨hs1.of_frame ?_, hcB, fun h => h.2 rfl, ?_, ?_, hw2.2.2.1, hn.remove, ?_, ?_, ?_⟩
    · rintro x ⟨d, ⟨hd, hdc⟩, hdx⟩
      exact hm x (fun hx => hdc (hs.tiles.unique d (hs.sub hd) cur hcB x hdx hx))
    · refine (hw2.2.2.2.2.1.trans hw1.2.2.2.1).trans ?_
      exact (hs.header_of_nextOnly hs.sub hn1 hcB).1.trans (hs.order cur hc)
    · exact hw2.2.2.2.2.2.trans hw1.2.1
    · intro u
      by_cases huc : u = cur
      · subst huc
        simp [hcB]
      · simp [huc]
    · exact fun x hx => ⟨cur, hc, hx⟩
    · intro x hx
      exact (hm x (fun h => hx ⟨cur, hc, h⟩)).trans (hn1.frame hs hx)
  · obtain ⟨g, hg, hDg⟩ := hg
    have hremove := Calm.of_nextOnly hD (fun d hd => hs.beside hD hg hDg (hs.sub hd)) hn1
    exact hremove.trans (Calm.of_frame hD (fun x hx => hm x (hap x hx)))

theorem Allocated.of_split {h1 h' : State} {B1 F1 B' F' : Set Chunk} {c : Chunk}
    (ha : Allocated h1 B1 F1 h' B' F' c) (hu : ∀ u, u ∈ B1 ∧ u ∉ F1 ↔ u ∈ B ∧ u ∉ F)
    (hm : ∀ x, ¬ InSpan F x → h1.mem x = h.mem x) (hsp : ∀ x, InSpan F1 x → InSpan F x) :
    Allocated h B F h' B' F' c where
  shape := ha.shape
  mem := ha.mem
  taken := ha.taken
  order := ha.order
  free := ha.free
  self := ha.self
  coalesced := ha.coalesced
  used := fun u => by rw [ha.used u, hu u]
  fresh := fun x hx => hsp x (ha.fresh x hx)
  frame := fun x hx => (ha.frame x (fun h => hx (hsp x h))).trans (hm x hx)

/-- **`buddy_alloc`** fails with the state unchanged when every free chunk is too small, and
otherwise allocates. -/
theorem buddyAlloc_spec (hs : Shape h B F) (hn : NoBuddies F) {size : Nat} (hpos : 0 < size) :
    (buddyAlloc h size = .ok (0, h) ∧ ∀ c ∈ F, 2 ^ c.order < size + headerSize) ∨
      ∃ h' B' F' c, buddyAlloc h size = .ok (c.base + headerSize, h') ∧
        Allocated h B F h' B' F' c ∧ size + headerSize ≤ 2 ^ c.order ∧ Spares B c h.mem h'.mem := by
  have hcap : ∀ c ∈ F, 2 ^ c.order ≤ 2 ^ maxBlockShift := fun c hc =>
    Nat.pow_le_pow_right (by decide) (hs.inHeap (hs.sub hc)).order
  have hmax : 2 ^ maxBlockShift = 4194304 := rfl
  unfold buddyAlloc
  rw [if_neg (by omega)]
  split
  · rename_i hbig
    refine Or.inl ⟨rfl, fun c hc => ?_⟩
    have := hcap c hc
    unfold sizeMax headerSize at hbig
    unfold headerSize
    omega
  obtain ⟨ho1, ho2, ho3, ho4⟩ := orderFor_spec (size + headerSize)
    (maxBlockShift - minBlockShift) minBlockShift
  simp only
  generalize orderFor (size + headerSize) (maxBlockShift - minBlockShift) minBlockShift = order at *
  have ho22 : order ≤ maxBlockShift := ho2
  rw [Nat.shiftLeft_eq, Nat.one_mul]
  split
  · rename_i hbig
    refine Or.inl ⟨rfl, fun c hc => ?_⟩
    have h22 : order = maxBlockShift := by
      by_contra hne
      exact absurd (ho4 (lt_of_le_of_ne ho22 hne)) (by omega)
    have := hcap c hc
    rw [h22] at hbig
    omega
  · rename_i hfit
    obtain ⟨hf1, hf2, hf3, hf4⟩ := firstList_spec h.freeLists (maxBlockShift + 1 - order) order
    generalize firstList h.freeLists (maxBlockShift + 1 - order) order = o at *
    split
    · rename_i hnone
      refine Or.inl ⟨rfl, fun c hc => ?_⟩
      by_contra hcon
      have hco : order ≤ c.order := by
        by_contra hlt
        exact hcon (ho3 c.order (hs.small c (hs.sub hc)) (by omega))
      -- the list of `c` is not empty
      obtain ⟨l, hl, hmem⟩ := hs.lists c.order (hs.inHeap (hs.sub hc)).order
      have hz := hf3 c.order hco (lt_of_le_of_lt (hs.inHeap (hs.sub hc)).order hnone)
      rw [hz, ptr_eq_none.mpr rfl, Chain.none_iff] at hl
      have := (hmem c.base).mpr hc
      rw [hl] at this
      exact absurd this List.not_mem_nil
    · rename_i hsome
      have ho : o ≤ maxBlockShift := by omega
      have hne := hf4 (by omega)
      have hcur := hs.head ho hne
      obtain ⟨h1, B1, F1, cur, hrun, hs1, hc1, hco, hfl, hnb, hu, hm, hsp, -, hcalm⟩ :=
        splitDown_spec ho1 (o - order) hs hcur rfl (by show o = _; omega) (hn.except _)
      have hhead : h1.freeLists cur.order = cur.base := by rw [hco]; exact hfl
      obtain ⟨h2, hrun2, hal, hspares⟩ := take_spec hs1 hc1 hhead hnb
      rw [hco] at hrun2
      refine Or.inr ⟨h2, B1, F1 \ {cur}, cur, ?_, hal.of_split hu hm hsp, by rw [hco]; omega,
        fun D hD hg hap => ?_⟩
      · rw [hrun]
        exact hrun2
      · obtain ⟨hg', hcalm'⟩ := hcalm D hD hg hap
        exact hcalm'.trans (hspares D hD hg' hap)

/-- The size `kmalloc` rounds up to. -/
def roundUp8 (n : Nat) : Nat := (n + 7) / 8 * 8

/-- **`kmalloc`** fails with the state unchanged when every free chunk is too small for the rounded
size and the header, and otherwise allocates. -/
theorem kmalloc_spec (hs : Shape h B F) (hn : NoBuddies F) {n : Nat} (hpos : 0 < n) :
    (kmalloc h n = .ok (0, h) ∧ ∀ c ∈ F, 2 ^ c.order < roundUp8 n + headerSize) ∨
      ∃ h' B' F' c, kmalloc h n = .ok (c.base + headerSize, h') ∧
        Allocated h B F h' B' F' c ∧ roundUp8 n + headerSize ≤ 2 ^ c.order ∧
          Spares B c h.mem h'.mem := by
  unfold kmalloc
  rw [if_neg (by omega)]
  split
  · rename_i hbig
    refine Or.inl ⟨rfl, fun c hc => ?_⟩
    have hcap : 2 ^ c.order ≤ 2 ^ 22 :=
      Nat.pow_le_pow_right (by decide) (hs.inHeap (hs.sub hc)).order
    unfold sizeMax at hbig
    unfold roundUp8
    omega
  · rename_i hle
    unfold sizeMax at hle
    have hround : (n + 7) &&& (sizeMax - 7) = roundUp8 n :=
      land_mask (k := 3) (by omega) (by decide)
    rw [hround]
    exact buddyAlloc_spec hs hn (by unfold roundUp8; omega)

theorem le_roundUp8 (n : Nat) : n ≤ roundUp8 n := by
  unfold roundUp8
  omega

/-- **No larger request is ever granted** than one that leaves room for the header in the largest
block. -/
theorem kmalloc_le {h h' : State} {n p : Nat} (hr : kmalloc h n = .ok (p, h')) (hp : p ≠ 0) :
    0 < n ∧ n ≤ 4194288 := by
  have hzero : ∀ {h1 : State}, (Except.ok (0, h) : Except HeapStop (Nat × State)) ≠
      .ok (p, h1) := by
    intro h1 he
    cases he
    exact hp rfl
  unfold kmalloc at hr
  by_cases h0 : n = 0
  · rw [if_pos h0] at hr
    exact absurd hr hzero
  rw [if_neg h0] at hr
  by_cases hbig : sizeMax - 7 < n
  · rw [if_pos hbig] at hr
    exact absurd hr hzero
  rw [if_neg hbig] at hr
  unfold sizeMax at hbig
  have hround : (n + 7) &&& (sizeMax - 7) = roundUp8 n := land_mask (k := 3) (by omega) (by decide)
  rw [hround] at hr
  have hle := le_roundUp8 n
  unfold buddyAlloc at hr
  rw [if_neg (by omega)] at hr
  split at hr
  · exact absurd hr hzero
  · simp only at hr
    split at hr
    · exact absurd hr hzero
    · rename_i hfit
      obtain ⟨-, ho, -⟩ := orderFor_spec (roundUp8 n + headerSize) (maxBlockShift - minBlockShift)
        minBlockShift
      have hpow : 2 ^ orderFor (roundUp8 n + headerSize) (maxBlockShift - minBlockShift)
          minBlockShift ≤
          2 ^ 22 := Nat.pow_le_pow_right (by decide)
            (by unfold maxBlockShift minBlockShift at *; omega)
      rw [Nat.shiftLeft_eq, Nat.one_mul] at hfit
      unfold headerSize at *
      omega

end
end CobraOS.Heap
