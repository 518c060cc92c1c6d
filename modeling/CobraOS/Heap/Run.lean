import CobraOS.Base.Partial
import CobraOS.Heap.Client

/-!
# Runs of the heap

* `exec_spec`: every operation a client may do returns, keeps `HeapInv`, and leaves the blocks of
  the other allocations alone.
* `heap_sound`: the same for every state that clients reach from `kmalloc_init`, in terms of the
  lists and the live pointers themselves.
* `free_blocks_maximal`: the free blocks are the maximal chunks that meet no allocated block, so
  they depend only on the allocated blocks.
-/

namespace CobraOS.Heap

open Base Chunk

/-! ### The three allocators -/

/-- The call `r` for `n` bytes fails and changes nothing, or adds a live allocation of `n` bytes. -/
def Serves (h : State) (live : List Allocation) (n : Nat)
    (r : Except HeapStop (Nat × State)) : Prop :=
  r = .ok (0, h) ∨ ∃ p h', r = .ok (p, h') ∧ p ≠ 0 ∧ HeapInv ⟨h', (p, n) :: live⟩ ∧
    ∀ e ∈ live, ∀ x, (blockOf h.mem e.1).Has x → h'.mem x = h.mem x

/-- A call took the block `c`, after which the heap was `h₁`, wrote to its payload at most, and
returns `p`, behind which there are `n` bytes. -/
structure Gives (h : State) (B F : Set Chunk) (h₁ : State) (B' F' : Set Chunk) (c : Chunk) (m : Mem)
    (p n : Nat) : Prop where
  taken : Allocated h B F h₁ B' F' c
  spares : Spares B c h.mem h₁.mem
  other : ∀ x, x < c.base + headerSize ∨ c.base + 2 ^ c.order ≤ x → m x = h₁.mem x
  owner : ownerWord m p = c.base
  front : c.base + headerSize ≤ p
  room : p + n ≤ c.base + 2 ^ c.order
  multiple : ptrSize ∣ p

section

variable {h h₁ : State} {live : List Allocation} {B F B' F' : Set Chunk} {c : Chunk} {m : Mem}
    {p n : Nat}

theorem Gives.ne_zero (hg : Gives h B F h₁ B' F' c m p n) : p ≠ 0 := by
  have := hg.front
  unfold headerSize at this
  omega

theorem Gives.serve (hs : Shape h B F) (hv : Served h B F live)
    (hg : Gives h B F h₁ B' F' c m p n) :
    Shape { h₁ with mem := m } B' F' ∧ Served { h₁ with mem := m } B' F' ((p, n) :: live) ∧
      ∀ e ∈ live, ∀ x, (blockOf h.mem e.1).Has x → m x = h.mem x :=
  hg.taken.serve hs hv hg.other hg.owner hg.front hg.room

theorem Gives.serves (hs : Shape h B F) (hv : Served h B F live) (hg : Gives h B F h₁ B' F' c m p n)
    {r : Except HeapStop (Nat × State)} (hr : r = .ok (p, { h₁ with mem := m })) :
    Serves h live n r := by
  obtain ⟨hs', hv', hf⟩ := hg.serve hs hv
  exact Or.inr ⟨p, _, hr, hg.ne_zero, ⟨B', F', hs', hg.taken.coalesced, hv'⟩, hf⟩

/-- In front of the first payload byte is the word `self` of the header. -/
theorem InHeap.ownerWord {c : Chunk} (hin : InHeap c) (m : Mem) :
    ownerWord m (c.base + headerSize) = blockSelf m c.base := by
  have hhi := hin.hi
  have hsz := hin.size
  unfold Heap.ownerWord
  have hsub : wsub (c.base + headerSize) ptrSize = c.base + 12 :=
    wsub_of_le (by unfold ptrSize headerSize; omega) (by unfold headerSize; omega)
  rw [hsub]
  rfl

theorem Allocated.gives (ha : Allocated h B F h₁ B' F' c) (hsp : Spares B c h.mem h₁.mem)
    (hfit : roundUp8 n + headerSize ≤ 2 ^ c.order)
    (hm : ∀ x, x < c.base + headerSize ∨ c.base + 2 ^ c.order ≤ x → m x = h₁.mem x) :
    Gives h B F h₁ B' F' c m (c.base + headerSize) n := by
  have hin := ha.shape.inHeap ha.mem
  have hle := le_roundUp8 n
  have hself : blockSelf m c.base = blockSelf h₁.mem c.base :=
    load32_congr (fun x _ _ => hm x (by unfold headerSize; omega))
  refine ⟨ha, hsp, hm, (hin.ownerWord m).trans (hself.trans ha.self), le_rfl, by omega, ?_⟩
  have := hin.mult
  unfold ptrSize headerSize
  omega

theorem kmalloc_gives (hs : Shape h B F) (hn : NoBuddies F) (n : Nat) : kmalloc h n = .ok (0, h) ∨
    ∃ h₁ B' F' c, kmalloc h n = .ok (c.base + headerSize, h₁) ∧
      Gives h B F h₁ B' F' c h₁.mem (c.base + headerSize) n := by
  by_cases h0 : n = 0
  · subst h0
    exact Or.inl rfl
  rcases kmalloc_spec hs hn (n := n) (by omega) with ⟨hr, -⟩ | ⟨h₁, B', F', c, hr, ha, hfit, hsp⟩
  · exact Or.inl hr
  · exact Or.inr ⟨h₁, B', F', c, hr, ha.gives hsp hfit (fun _ _ => rfl)⟩

theorem kmalloc_serves (hi : HeapInv ⟨h, live⟩) (n : Nat) : Serves h live n (kmalloc h n) := by
  obtain ⟨B, F, hs, hn, hv⟩ := hi
  rcases kmalloc_gives hs hn n with hr | ⟨h₁, B', F', c, hr, hg⟩
  · exact Or.inl hr
  · exact hg.serves hs hv hr

theorem heapMemset_ne (c : UInt8) : ∀ (n : Nat) (m : Mem) (p : Nat) {x : Nat},
    x < p ∨ p + n ≤ x → heapMemset m p c n x = m x := by
  intro n
  induction n with
  | zero => intro m p x _; rfl
  | succ n ih =>
    intro m p x hx
    rw [heapMemset, ih _ _ (by omega), store8_ne _ _ (by omega)]

/-- **`kcalloc`** fails with the state unchanged, or clears the first bytes of a payload that
`kmalloc` gives. -/
theorem kcalloc_gives (hs : Shape h B F) (hn : NoBuddies F) (nmemb size : Nat) :
    kcalloc h nmemb size = .ok (0, h) ∨ ∃ h₁ B' F' c,
      kmalloc h (nmemb * size) = .ok (c.base + headerSize, h₁) ∧
      kcalloc h nmemb size = .ok (c.base + headerSize,
        { h₁ with mem := heapMemset h₁.mem (c.base + headerSize) 0 (nmemb * size) }) ∧
      Gives h B F h₁ B' F' c (heapMemset h₁.mem (c.base + headerSize) 0 (nmemb * size))
        (c.base + headerSize) (nmemb * size) := by
  unfold kcalloc
  split
  · exact Or.inl rfl
  rename_i h0
  rw [not_or] at h0
  split
  · exact Or.inl rfl
  have hpos : 0 < nmemb * size := Nat.mul_pos (by omega) (by omega)
  rcases kmalloc_spec hs hn hpos with ⟨hr, -⟩ | ⟨h₁, B', F', c, hr, ha, hfit, hsp⟩
  · left
    simp only [hr, bind, Except.bind, if_true]
  · have hne : c.base + headerSize ≠ 0 := by
      unfold headerSize
      omega
    have hle := le_roundUp8 (nmemb * size)
    refine Or.inr
      ⟨h₁, B', F', c, hr, ?_, ha.gives hsp hfit (fun x hx => heapMemset_ne 0 _ _ _ (by omega))⟩
    simp only [hr, bind, Except.bind, if_neg hne]

theorem kcalloc_serves (hi : HeapInv ⟨h, live⟩) (nmemb size : Nat) :
    Serves h live (nmemb * size) (kcalloc h nmemb size) := by
  obtain ⟨B, F, hs, hn, hv⟩ := hi
  rcases kcalloc_gives hs hn nmemb size with hr | ⟨h₁, B', F', c, -, hr, hg⟩
  · exact Or.inl hr
  · exact hg.serves hs hv hr

/-- The loop that doubles `a` ends at a power of two that is at least the alignment. -/
theorem roundAlignment_spec {alignment : Nat} : ∀ (n j : Nat),
    n + j = 32 → j ≤ 31 → ∀ a, roundAlignment alignment n (2 ^ j) = some a →
    alignment ≤ a ∧ ∃ k ≤ 31, a = 2 ^ k := by
  intro n
  induction n with
  | zero => intro j h1 h2; omega
  | succ n ih =>
    intro j h1 h2 a ha
    rw [roundAlignment] at ha
    split at ha
    · split at ha
      · exact absurd ha (by simp)
      · rename_i hlt hle
        have hj : j + 1 ≤ 31 := by
          by_contra hj
          have : j = 31 := by omega
          subst this
          exact hle (by decide)
        refine ih (j + 1) (by omega) hj a ?_
        rwa [Nat.pow_succ, ← Nat.shiftLeft_eq _ 1] at *
    · rename_i hge
      rw [Option.some_inj] at ha
      subst ha
      exact ⟨by omega, j, h2, rfl⟩

/-- **`kmalloc_aligned` works with a power of two** that is at least the alignment asked for. -/
theorem effectiveAlignment_spec {alignment a : Nat} (hal : alignment < 4294967296)
    (h : effectiveAlignment alignment = some a) :
    alignment ≤ a ∧ ptrSize ≤ a ∧ ∃ k ≤ 31, a = 2 ^ k := by
  unfold effectiveAlignment at h
  have hle : alignment ≤ (if alignment < ptrSize then ptrSize else alignment) := by
    split <;> omega
  have hptr : ptrSize ≤ (if alignment < ptrSize then ptrSize else alignment) := by
    split <;> omega
  have hlt : (if alignment < ptrSize then ptrSize else alignment) < 4294967296 := by
    unfold ptrSize
    split <;> omega
  simp only at h
  generalize (if alignment < ptrSize then ptrSize else alignment) = al at *
  split at h
  · obtain ⟨h1, h2⟩ := roundAlignment_spec 32 0 rfl (by decide) a h
    exact ⟨by omega, by omega, h2⟩
  · rename_i hpow
    rw [Option.some_inj] at h
    subst h
    have hne : al ≠ 0 := by
      unfold ptrSize at hptr
      omega
    rw [not_not, Nat.and_sub_one_eq_zero_iff_isPowerOfTwo hne] at hpow
    obtain ⟨k, hk⟩ := hpow
    refine ⟨hle, hptr, k, ?_, hk⟩
    by_contra hk32
    have : 2 ^ 32 ≤ 2 ^ k := Nat.pow_le_pow_right (by decide) (by omega)
    omega

theorem align_bounds (raw : Nat) {a : Nat} (ha : 0 < a) :
    raw + 4 ≤ (raw + 4 + a - 1) / a * a ∧ (raw + 4 + a - 1) / a * a ≤ raw + 4 + a - 1 := by
  have h1 := Nat.div_add_mod (raw + 4 + a - 1) a
  have h2 := Nat.mod_lt (raw + 4 + a - 1) ha
  rw [Nat.mul_comm] at h1
  omega

/-- The pointer `p` that `kmalloc_aligned` gives for a block `c` and the alignment `a`. -/
structure AlignedIn (size a : Nat) (c : Chunk) (p : Nat) : Prop where
  multiple : a ∣ p
  front : c.base + headerSize + ptrSize ≤ p
  room : p + size ≤ c.base + 2 ^ c.order

/-- **`kmalloc_aligned`** fails with the state unchanged, or puts the address of the block that
`kmalloc` gives in front of an aligned address in its payload. -/
theorem kmallocAligned_gives (hs : Shape h B F) (hn : NoBuddies F) (size : Nat) {alignment : Nat}
    (hal : alignment < 4294967296) : kmallocAligned h size alignment = .ok (0, h) ∨
      ∃ a h₁ B' F' c p, effectiveAlignment alignment = some a ∧
      kmallocAligned h size alignment =
        .ok (p, { h₁ with mem := store32 h₁.mem (p - ptrSize) c.base }) ∧
      roundUp8 (size + a + ptrSize) + headerSize ≤ 2 ^ c.order ∧ AlignedIn size a c p ∧
      Gives h B F h₁ B' F' c (store32 h₁.mem (p - ptrSize) c.base) p size := by
  unfold kmallocAligned
  split
  · exact Or.inl rfl
  cases hea : effectiveAlignment alignment with
  | none => exact Or.inl rfl
  | some a =>
    obtain ⟨-, hptr, k, hk, rfl⟩ := effectiveAlignment_spec hal hea
    simp only
    split
    · exact Or.inl rfl
    rcases kmalloc_spec hs hn (n := size + 2 ^ k + ptrSize) (by unfold ptrSize; omega) with
      ⟨hr, -⟩ | ⟨h₁, B', F', c, hr, ha, hfit, hsp⟩
    · left
      simp only [hr, bind, Except.bind, if_true]
    have hhi := (ha.shape.inHeap ha.mem).hi
    have hle := le_roundUp8 (size + 2 ^ k + ptrSize)
    have hne : c.base + headerSize ≠ 0 := by
      unfold headerSize
      omega
    have hpow := Nat.two_pow_pos k
    have hdvd : ptrSize ∣ 2 ^ k := by
      have h2 : 2 ≤ k := (Nat.pow_le_pow_iff_right (show 1 < 2 by decide)).mp hptr
      exact Nat.pow_dvd_pow 2 h2
    have hmask :
      (c.base + headerSize + ptrSize + 2 ^ k - 1) % 4294967296 &&& (sizeMax - (2 ^ k - 1)) =
        (c.base + headerSize + ptrSize + 2 ^ k - 1) / 2 ^ k * 2 ^ k := by
      unfold headerSize ptrSize at *
      rw [Nat.mod_eq_of_lt (by omega)]
      exact land_mask (by omega) (by omega)
    have hmul : 2 ^ k ∣ (c.base + headerSize + ptrSize + 2 ^ k - 1) / 2 ^ k * 2 ^ k :=
      Dvd.intro_left _ rfl
    obtain ⟨ha1, ha2⟩ : c.base + headerSize + ptrSize ≤
          (c.base + headerSize + ptrSize + 2 ^ k - 1) / 2 ^ k * 2 ^ k ∧
        (c.base + headerSize + ptrSize + 2 ^ k - 1) / 2 ^ k * 2 ^ k ≤
          c.base + headerSize + ptrSize + 2 ^ k - 1 := align_bounds (c.base + headerSize) hpow
    generalize (c.base + headerSize + ptrSize + 2 ^ k - 1) / 2 ^ k * 2 ^ k = p at *
    unfold ptrSize headerSize at *
    have hin : AlignedIn size (2 ^ k) c p :=
      ⟨hmul, by unfold headerSize ptrSize; omega, by omega⟩
    have hown : Heap.ownerWord (store32 h₁.mem (p - ptrSize) c.base) p = c.base := by
      unfold Heap.ownerWord
      rw [wsub_of_le (by unfold ptrSize; omega) (by omega)]
      exact load32_store32_of_lt _ _ (by omega)
    refine Or.inr ⟨2 ^ k, h₁, B', F', c, p, rfl, ?_, hfit, hin,
      ⟨ha, hsp, fun x hx => ?_, hown, by unfold headerSize; omega, by omega, hdvd.trans hmul⟩⟩
    · simp only [hr, bind, Except.bind, if_neg hne, hmask, Nat.add_sub_cancel]
    · unfold headerSize at hx
      exact store32_ne _ _ (by omega)

theorem kmallocAligned_serves (hi : HeapInv ⟨h, live⟩) (size : Nat) {alignment : Nat}
    (hal : alignment < 4294967296) : Serves h live size (kmallocAligned h size alignment) := by
  obtain ⟨B, F, hs, hn, hv⟩ := hi
  rcases kmallocAligned_gives hs hn size hal with hr | ⟨a, h₁, B', F', c, p, -, hr, -, -, hg⟩
  · exact Or.inl hr
  · exact hg.serves hs hv hr

/-! ### The start and the steps -/

/-- **`kmalloc_init`** leaves one free block, the whole region, on the last list. -/
theorem kmallocInit_spec (h : State) :
    ∃ h', kmallocInit h = .ok h' ∧ Shape h' {root} {root} := by
  let h1 : State := { h with freeLists := fun i => if i ≤ maxBlockShift then 0 else h.freeLists i }
  have hrun : kmallocInit h =
      .ok (initBlock h1 heapStart maxBlockShift (heapStart + maxBlockSize)) := rfl
  refine ⟨_, hrun, Tiles.single root_aligned, subset_rfl, ?_, ?_, ?_, ?_⟩
  · rintro c rfl
    decide
  · rintro c rfl
    rfl
  · rintro c rfl
    rfl
  · intro k hk
    by_cases hkr : k = maxBlockShift
    · subst hkr
      refine ⟨[heapStart], ⟨?_, ?_⟩, ?_⟩
      · show ptr (Function.update h1.freeLists maxBlockShift heapStart maxBlockShift) = _
        rw [Function.update_self]
        rfl
      · rfl
      · intro a
        simp [root]
    · refine ⟨[], ?_, ?_⟩
      · show ptr (Function.update h1.freeLists maxBlockShift heapStart k) = _
        rw [Function.update_of_ne hkr]
        exact ptr_eq_none.mpr (if_pos hk)
      · intro a
        simp [root, hkr]

theorem kmallocInit_inv {h h' : State} (hr : kmallocInit h = .ok h') : HeapInv ⟨h', []⟩ := by
  obtain ⟨h1, hr1, hs⟩ := kmallocInit_spec h
  rw [hr1] at hr
  cases hr
  refine ⟨{root}, {root}, hs, ?_, ⟨?_, ?_, ?_, List.Pairwise.nil⟩⟩
  · rintro c rfl hb
    exact buddy_ne _ hb
  · exact fun u hu huF => absurd hu huF
  · exact fun e he => absurd he List.not_mem_nil
  · exact fun u hu huF => absurd hu huF

end

theorem Served.freed {h : State} {B F : Set Chunk} {live : List Allocation} {p n : Nat}
    (hs : Shape h B F) (hn : NoBuddies F) (hv : Served h B F live) (hp : (p, n) ∈ live) :
    ∃ h' B' F', kfree h p = .ok h' ∧ Released h B F h' B' F' (Heap.blockOf h.mem p) ∧
      ∀ D, Spot D → (∃ g ∈ B, D.Sub g) →
        Calm D (setFree h.mem (Heap.blockOf h.mem p).base 1) h'.mem := by
  obtain ⟨hcB, hcF, hlo, -⟩ := hv.blockOf hp
  have hp0 : p ≠ 0 := by
    have hlo' : (Heap.blockOf h.mem p).base + headerSize ≤ p := hlo
    unfold headerSize at hlo'
    omega
  exact buddyFree_spec hs hn hcB hcF hv.header hp0 rfl

theorem Serves.exec {w : World} {n : Nat} {r : Except HeapStop (Nat × State)}
    (hi : HeapInv w) (hr : Serves w.heap w.live n r) :
    ∃ w', (do
        let (p, h) ← r
        .ok (w.grant p n h) : Except HeapStop World) = .ok w' ∧ HeapInv w' ∧
      ∀ e ∈ w.live, ∀ x, (blockOf w.heap.mem e.1).Has x → w'.heap.mem x = w.heap.mem x := by
  rcases hr with rfl | ⟨p, h', rfl, hp, hi', hf⟩
  · exact ⟨w.grant 0 n w.heap, rfl, hi, fun _ _ _ _ => rfl⟩
  · refine ⟨w.grant p n h', rfl, ?_, hf⟩
    unfold World.grant
    rw [if_neg hp]
    exact hi'

/-- **The step lemma**: what a client may do returns, keeps the invariant and leaves the blocks of
the allocations it is not about alone. -/
theorem exec_spec {w : World} (hi : HeapInv w) {op : Op} (hop : Valid w op) :
    ∃ w', exec w op = .ok w' ∧ HeapInv w' ∧
      ∀ e ∈ w.live, ¬ Targets w e op → ∀ x, (blockOf w.heap.mem e.1).Has x →
        w'.heap.mem x = w.heap.mem x := by
  cases op with
  | kmalloc size =>
    obtain ⟨w', hr, hi', hf⟩ := (kmalloc_serves hi size).exec hi
    exact ⟨w', hr, hi', fun e he _ => hf e he⟩
  | kcalloc nmemb size =>
    obtain ⟨w', hr, hi', hf⟩ := (kcalloc_serves hi nmemb size).exec hi
    exact ⟨w', hr, hi', fun e he _ => hf e he⟩
  | kmallocAligned size alignment =>
    obtain ⟨w', hr, hi', hf⟩ := (kmallocAligned_serves hi size hop.2).exec hi
    exact ⟨w', hr, hi', fun e he _ => hf e he⟩
  | kfree p =>
    obtain ⟨B, F, hs, hn, hv⟩ := hi
    obtain ⟨n, hp⟩ := hop
    obtain ⟨h', B', F', hr, hrel, -⟩ := hv.freed hs hn hp
    obtain ⟨hv', hf⟩ := hv.release hs hp hrel
    exact ⟨_, exec_kfree hr, ⟨B', F', hrel.shape, hrel.coalesced, hv'⟩, hf⟩
  | write x b =>
    obtain ⟨B, F, hs, hn, hv⟩ := hi
    obtain ⟨e, he, hx⟩ := hop
    obtain ⟨hs', hv', hf⟩ := hv.write b hs he hx
    exact ⟨_, rfl, ⟨B, F, hs', hn, hv'⟩, hf⟩

theorem exec_kfree_live {w w' : World} {p : Nat} (hr : exec w (.kfree p) = .ok w') :
    w'.live = w.live.filter (fun e => e.1 ≠ p) := by
  obtain ⟨h', -, he⟩ := bind_ok hr
  rw [← Except.ok.inj he]

/-- The operation asks for memory. -/
def Op.Asks : Op → Prop
  | .kmalloc _ | .kcalloc _ _ | .kmallocAligned _ _ => True
  | _ => False

/-- **What an operation does**: a request is refused or gives a pointer, and the others release or
write. -/
theorem exec_cases {w w' : World} {B F : Set Chunk} (hs : Shape w.heap B F) (hn : NoBuddies F)
    {op : Op} (hop : Valid w op) (hr : exec w op = .ok w') : (op.Asks ∧ w' = w) ∨
      (op.Asks ∧ ∃ h₁ B' F' c m p n, Gives w.heap B F h₁ B' F' c m p n ∧
        w' = ⟨{ h₁ with mem := m }, (p, n) :: w.live⟩) ∨
      (∃ p h', op = .kfree p ∧ kfree w.heap p = .ok h' ∧
        w' = ⟨h', w.live.filter (fun e => e.1 ≠ p)⟩) ∨
      ∃ x b, op = .write x b ∧
        w' = { w with heap := { w.heap with mem := store8 w.heap.mem x b } } := by
  have hrefused : ∀ {n : Nat} {r : Except HeapStop (Nat × State)}, r = .ok (0, w.heap) →
      (r >>= fun x => .ok (w.grant x.1 n x.2)) = .ok w' → w' = w := by
    rintro n r rfl hr
    exact (Except.ok.inj hr).symm
  have hgiven : ∀ {h₁ : State} {B' F' : Set Chunk} {c : Chunk} {m : Mem} {p n : Nat}
      {r : Except HeapStop (Nat × State)}, Gives w.heap B F h₁ B' F' c m p n →
      r = .ok (p, { h₁ with mem := m }) → (r >>= fun x => .ok (w.grant x.1 n x.2)) = .ok w' →
      w' = ⟨{ h₁ with mem := m }, (p, n) :: w.live⟩ := by
    rintro h₁ B' F' c m p n r hg rfl hr
    rw [← Except.ok.inj hr]
    exact congrArg (World.mk _) (if_neg hg.ne_zero)
  cases op with
  | kmalloc size =>
    rcases kmalloc_gives hs hn size with h0 | ⟨h₁, B', F', c, hk, hg⟩
    · exact Or.inl ⟨trivial, hrefused h0 hr⟩
    · exact Or.inr (Or.inl ⟨trivial, h₁, B', F', c, _, _, size, hg, hgiven hg hk hr⟩)
  | kcalloc nmemb size =>
    rcases kcalloc_gives hs hn nmemb size with h0 | ⟨h₁, B', F', c, -, hk, hg⟩
    · exact Or.inl ⟨trivial, hrefused h0 hr⟩
    · exact Or.inr (Or.inl ⟨trivial, h₁, B', F', c, _, _, nmemb * size, hg, hgiven hg hk hr⟩)
  | kmallocAligned size alignment =>
    rcases kmallocAligned_gives hs hn size hop.2 with h0 | ⟨a, h₁, B', F', c, p, -, hk, -, -, hg⟩
    · exact Or.inl ⟨trivial, hrefused h0 hr⟩
    · exact Or.inr (Or.inl ⟨trivial, h₁, B', F', c, _, p, size, hg, hgiven hg hk hr⟩)
  | kfree p =>
    obtain ⟨h', hf, he⟩ := bind_ok hr
    exact Or.inr (Or.inr (Or.inl ⟨p, h', rfl, hf, (Except.ok.inj he).symm⟩))
  | write x b => exact Or.inr (Or.inr (Or.inr ⟨x, b, rfl, (Except.ok.inj hr).symm⟩))

/-- **The run lemma.** -/
theorem reach_inv {w : World} (hw : system.Reach w) : HeapInv w := by
  refine hw.induct ?_ ?_
  · rintro ⟨h, live⟩ ⟨rfl, h0, hr⟩
    exact kmallocInit_inv hr
  · rintro w op w' hi ⟨hop, hr⟩
    obtain ⟨w1, hr1, hi1, -⟩ := exec_spec hi hop
    rw [hr1] at hr
    cases hr
    exact hi1

/-! ### What every run keeps -/

/-- The blocks on the free lists. -/
def freeBlocks (h : State) : Set Chunk :=
  {c | c.order ≤ maxBlockShift ∧
    ∃ l, Chain (links h.mem) (ptr (h.freeLists c.order)) l ∧ c.base ∈ l}

/-- The blocks of the live allocations. -/
def allocBlocks (w : World) : Set Chunk := {c | ∃ e ∈ w.live, c = blockOf w.heap.mem e.1}

/-- What a heap that serves its clients looks like. -/
structure HeapSound (w : World) : Prop where
  tiles : Tiles (freeBlocks w.heap ∪ allocBlocks w) root
  apart : ∀ c ∈ freeBlocks w.heap, c ∉ allocBlocks w
  orders : ∀ c ∈ freeBlocks w.heap ∪ allocBlocks w, minBlockShift ≤ c.order ∧
    c.order ≤ maxBlockShift ∧ blockOrder w.heap.mem c.base = c.order
  free : ∀ c ∈ freeBlocks w.heap, blockFree w.heap.mem c.base = 1
  used : ∀ c ∈ allocBlocks w, blockFree w.heap.mem c.base = 0
  lists : ∀ k ≤ maxBlockShift, ∃ l, Chain (links w.heap.mem) (ptr (w.heap.freeLists k)) l ∧
    l.Nodup ∧ ∀ a, a ∈ l ↔ (⟨a, k⟩ : Chunk) ∈ freeBlocks w.heap
  header : ∀ e ∈ w.live, (blockOf w.heap.mem e.1).base + headerSize ≤ e.1
  room : ∀ e ∈ w.live, ∀ x, e.1 ≤ x → x < e.1 + e.2 → InPayload w.heap.mem e.1 x
  disjoint : w.live.Pairwise
    (fun e f => ∀ x, InPayload w.heap.mem e.1 x → ¬ InPayload w.heap.mem f.1 x)

section

variable {w : World} {B F : Set Chunk}

theorem Shape.freeBlocks {h : State} (hs : Shape h B F) : freeBlocks h = F := by
  ext c
  constructor
  · rintro ⟨hk, l, hl, hc⟩
    obtain ⟨l', hl', hmem⟩ := hs.lists c.order hk
    rw [hl.unique hl'] at hc
    exact (hmem c.base).mp hc
  · intro hc
    have hk := (hs.inHeap (hs.sub hc)).order
    obtain ⟨l, hl, hmem⟩ := hs.lists c.order hk
    exact ⟨hk, l, hl, (hmem c.base).mpr hc⟩

theorem Served.allocBlocks (hs : Shape w.heap B F) (hv : Served w.heap B F w.live) :
    allocBlocks w = B \ F := by
  ext c
  constructor
  · rintro ⟨e, he, rfl⟩
    obtain ⟨hB, hF, -, -⟩ := hv.blockOf he
    exact ⟨hB, hF⟩
  · rintro ⟨hB, hF⟩
    obtain ⟨e, he, hw⟩ := hv.owned c hB hF
    obtain ⟨hB', -, -, -⟩ := hv.blockOf he
    exact ⟨e, he, hs.tiles.eq_of_base hB hB' hw.symm⟩

theorem union_blocks (hs : Shape w.heap B F) (hv : Served w.heap B F w.live) :
    Heap.freeBlocks w.heap ∪ Heap.allocBlocks w = B := by
  rw [hs.freeBlocks, hv.allocBlocks hs]
  exact Set.union_sdiff_cancel hs.sub

theorem HeapInv.sound (hi : HeapInv w) : HeapSound w := by
  obtain ⟨B, F, hs, hn, hv⟩ := hi
  have hB := union_blocks hs hv
  have hF := hs.freeBlocks
  have hU := hv.allocBlocks hs
  refine ⟨?_, ?_, ?_, ?_, ?_, ?_, ?_, ?_, ?_⟩
  · rw [hB]
    exact hs.tiles
  · rw [hF, hU]
    exact fun c hc hcu => hcu.2 hc
  · rw [hB]
    intro c hc
    refine ⟨hs.small c hc, (hs.inHeap hc).order, ?_⟩
    by_cases hcF : c ∈ F
    · exact hs.order c hcF
    · exact (hv.header c hc hcF).1
  · rw [hF]
    exact hs.free
  · rw [hU]
    exact fun c hc => (hv.header c hc.1 hc.2).2
  · intro k hk
    obtain ⟨l, hl, hmem⟩ := hs.lists k hk
    rw [hF]
    exact ⟨l, hl, hl.nodup, hmem⟩
  · intro e he
    exact (hv.blockOf he).2.2.1
  · intro e he x h1 h2
    have := (hv.blockOf he).2.2.2
    exact ⟨h1, by omega⟩
  · refine hv.distinct.imp_of_mem (fun {e f} he hf hne x hx hy => hne ?_)
    obtain ⟨he1, -, he3, -⟩ := hv.blockOf he
    obtain ⟨hf1, -, hf3, -⟩ := hv.blockOf hf
    have hex : (blockOf w.heap.mem e.1).Has x :=
      ⟨le_trans (le_trans (Nat.le_add_right _ _) he3) hx.1, hx.2⟩
    have hfx : (blockOf w.heap.mem f.1).Has x :=
      ⟨le_trans (le_trans (Nat.le_add_right _ _) hf3) hy.1, hy.2⟩
    exact congrArg Chunk.base (hs.tiles.unique _ he1 _ hf1 x hex hfx)

end

/-- **The buddy heap is sound**: in every state that clients reach, the free and the allocated
blocks tile the region, the lists hold the free ones, and payloads are disjoint and large enough;
and every operation a client may do returns and leaves the other blocks alone. -/
theorem heap_sound {w : World} (hw : system.Reach w) :
    HeapSound w ∧ ∀ op, Valid w op → ∃ w', exec w op = .ok w' ∧
      ∀ e ∈ w.live, ¬ Targets w e op → ∀ x, (blockOf w.heap.mem e.1).Has x →
        w'.heap.mem x = w.heap.mem x := by
  have hi := reach_inv hw
  refine ⟨hi.sound, fun op hop => ?_⟩
  obtain ⟨w', hr, -, hf⟩ := exec_spec hi hop
  exact ⟨w', hr, hf⟩

/-- The memory before `kmalloc_init`, all zero. -/
def blank : State := ⟨fun _ => 0, fun _ => 0, heapStart⟩

theorem heap_sound_first : ∃ h w, kmallocInit blank = .ok h ∧
    exec ⟨h, []⟩ (.kmallocAligned 100 64) = .ok w ∧ HeapSound w := by
  obtain ⟨h, hr, -⟩ := kmallocInit_spec blank
  have hw : system.Reach ⟨h, []⟩ := .init ⟨rfl, blank, hr⟩
  have hop : Valid ⟨h, []⟩ (.kmallocAligned 100 64) := ⟨by decide, by decide⟩
  obtain ⟨w, hr', -⟩ := (heap_sound hw).2 _ hop
  exact ⟨h, w, hr, hr', (heap_sound (hw.step ⟨hop, hr'⟩)).1⟩

/-- **The free blocks depend only on the allocated ones**: they are the maximal aligned chunks that
meet no allocated block. -/
theorem free_blocks_maximal {w : World} (hw : system.Reach w) :
    (∀ c, c ∈ freeBlocks w.heap ↔ MaximalFree (allocBlocks w) root c) ∧
      NoBuddies (freeBlocks w.heap) ∧
      (∀ w', system.Reach w' → allocBlocks w' = allocBlocks w →
        freeBlocks w'.heap = freeBlocks w.heap) ∧
      (w.live = [] → freeBlocks w.heap = {root}) := by
  have hmax : ∀ w, system.Reach w → ∀ c, c ∈ freeBlocks w.heap ↔
      MaximalFree (allocBlocks w) root c := by
    intro w hw c
    obtain ⟨B, F, hs, hn, hv⟩ := reach_inv hw
    have hi : HeapSound w := HeapInv.sound ⟨B, F, hs, hn, hv⟩
    have hn' : NoBuddies (freeBlocks w.heap) := hs.freeBlocks ▸ hn
    exact hi.tiles.free_eq_maximal root_aligned hi.apart hn' c
  refine ⟨hmax w hw, ?_, ?_, ?_⟩
  · obtain ⟨B, F, hs, hn, -⟩ := reach_inv hw
    rw [hs.freeBlocks]
    exact hn
  · intro w' hw' heq
    ext c
    rw [hmax w' hw' c, hmax w hw c, heq]
  · intro hl
    have hnone : allocBlocks w = ∅ := by
      ext c
      simp [allocBlocks, hl]
    ext c
    rw [hmax w hw c, hnone]
    constructor
    · intro hc
      exact (hc.maximal root root_aligned root.sub_refl (by simp) hc.sub).symm
    · rintro rfl
      refine ⟨root_aligned, root.sub_refl, by simp, ?_⟩
      intro d hd hdr _ hsub
      exact eq_of_sub_of_order hdr (le_antisymm hdr.order_le hsub.order_le)

/-- A request for a quarter of the region on the fresh heap, and one for half of it. -/
def splitTwice : Except HeapStop World := do
  let h ← kmallocInit blank
  let w ← exec ⟨h, []⟩ (.kmalloc 1048560)
  exec w (.kmalloc 2097136)

theorem splitTwice_live : splitTwice.toOption.map (fun w => w.live) =
    some [(33554448, 2097136), (36700176, 1048560)] := by
  decide +kernel

/-- The region is split twice for two requests. After the quarter is released there is an allocation
and free blocks beside it, and after the half is released there is one free block again. -/
theorem free_blocks_maximal_freed : ∃ w₂ w₃ w₄, splitTwice = .ok w₂ ∧
    w₂.live = [(33554448, 2097136), (36700176, 1048560)] ∧
    exec w₂ (.kfree 36700176) = .ok w₃ ∧ w₃.live = [(33554448, 2097136)] ∧
    (∀ c, c ∈ freeBlocks w₃.heap ↔ MaximalFree (allocBlocks w₃) root c) ∧
    exec w₃ (.kfree 33554448) = .ok w₄ ∧ freeBlocks w₄.heap = {root} := by
  obtain ⟨h, hr, -⟩ := kmallocInit_spec blank
  have hw : system.Reach ⟨h, []⟩ := .init ⟨rfl, blank, hr⟩
  obtain ⟨w₁, hr₁, -⟩ := exec_spec (reach_inv hw)
    (show Valid _ (.kmalloc 1048560) from show 1048560 < 4294967296 by decide)
  have hw₁ : system.Reach w₁ := hw.step (e := .kmalloc 1048560)
    ⟨show 1048560 < 4294967296 by decide, hr₁⟩
  obtain ⟨w₂, hr₂, -⟩ := exec_spec (reach_inv hw₁)
    (show Valid _ (.kmalloc 2097136) from show 2097136 < 4294967296 by decide)
  have hw₂ : system.Reach w₂ := hw₁.step (e := .kmalloc 2097136)
    ⟨show 2097136 < 4294967296 by decide, hr₂⟩
  have hrun : splitTwice = .ok w₂ := by
    rw [splitTwice, hr]
    show (exec ⟨h, []⟩ (.kmalloc 1048560) >>= fun w => exec w (.kmalloc 2097136)) = _
    rw [hr₁]
    exact hr₂
  have hl₂ : w₂.live = [(33554448, 2097136), (36700176, 1048560)] := by
    have hl := splitTwice_live
    rw [hrun] at hl
    exact Option.some.inj hl
  have hp : Valid w₂ (.kfree 36700176) := ⟨1048560, by rw [hl₂]; decide⟩
  obtain ⟨w₃, hr₃, -⟩ := exec_spec (reach_inv hw₂) hp
  have hw₃ : system.Reach w₃ := hw₂.step (e := .kfree 36700176) ⟨hp, hr₃⟩
  have hl₃ : w₃.live = [(33554448, 2097136)] := by
    rw [exec_kfree_live hr₃, hl₂]
    decide
  have hq : Valid w₃ (.kfree 33554448) := ⟨2097136, by rw [hl₃]; decide⟩
  obtain ⟨w₄, hr₄, -⟩ := exec_spec (reach_inv hw₃) hq
  have hw₄ : system.Reach w₄ := hw₃.step (e := .kfree 33554448) ⟨hq, hr₄⟩
  have hl₄ : w₄.live = [] := by
    rw [exec_kfree_live hr₄, hl₃]
    decide
  exact ⟨w₂, w₃, w₄, hrun, hl₂, hr₃, hl₃, (free_blocks_maximal hw₃).1, hr₄,
    (free_blocks_maximal hw₄).2.2.2 hl₄⟩

end CobraOS.Heap
