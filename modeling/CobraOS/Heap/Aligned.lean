import CobraOS.Heap.Zeroed

/-!
# The arithmetic of `kmalloc_aligned`

The loop that rounds the alignment ends at the least power of two that is large enough
(`effectiveAlignment_least`), and the sums of `kmalloc_aligned` stay below `2 ^ 32` (`SumsFit`).
The word that it writes in front of the aligned address is in the payload, and no client writes
there, so it still names the block when the pointer is released (`Granted.release`).
`kmallocAligned_sound` is all of this for one call.
-/

namespace CobraOS.Heap

open Base Chunk

/-! ### The alignment -/

/-- `a` is the least power of two that is at least `n`. -/
structure LeastPower (a n : Nat) : Prop where
  power : ∃ k, a = 2 ^ k
  le : n ≤ a
  least : ∀ j, n ≤ 2 ^ j → a ≤ 2 ^ j

/-- The powers of two that are large enough are not among those left behind. -/
theorem pow_le_of_left {alignment j i : Nat} (hlow : ∀ i < j, 2 ^ i < alignment)
    (hi : alignment ≤ 2 ^ i) :
    2 ^ j ≤ 2 ^ i := by
  refine Nat.pow_le_pow_right (by decide) ?_
  by_contra hlt
  exact absurd (hlow i (by omega)) (by omega)

theorem roundAlignment_least {alignment : Nat} : ∀ (n j : Nat) {a : Nat},
    (∀ i < j, 2 ^ i < alignment) → roundAlignment alignment n (2 ^ j) = some a →
    ∀ i, alignment ≤ 2 ^ i → a ≤ 2 ^ i := by
  intro n
  induction n with
  | zero =>
    intro j a hlow ha i hi
    rw [roundAlignment, Option.some_inj] at ha
    exact ha ▸ pow_le_of_left hlow hi
  | succ n ih =>
    intro j a hlow ha i hi
    rw [roundAlignment] at ha
    split at ha
    · rename_i hlt
      split at ha
      · cases ha
      · rw [Nat.shiftLeft_eq, ← Nat.pow_add] at ha
        refine ih (j + 1) (fun i' hi' => ?_) ha i hi
        rcases Nat.lt_or_eq_of_le (Nat.le_of_lt_succ hi') with h | rfl
        · exact hlow i' h
        · exact hlt
    · rw [Option.some_inj] at ha
      exact ha ▸ pow_le_of_left hlow hi

/-- **`kmalloc_aligned` uses the least alignment that will do.** -/
theorem effectiveAlignment_least {alignment a : Nat} (hal : alignment < 4294967296)
    (h : effectiveAlignment alignment = some a) : LeastPower a (max alignment ptrSize) := by
  obtain ⟨hle, hptr, k, -, hk⟩ := effectiveAlignment_spec hal h
  refine ⟨⟨k, hk⟩, max_le hle hptr, fun j hj => ?_⟩
  have hmax : (if alignment < ptrSize then ptrSize else alignment) = max alignment ptrSize := by
    split <;> omega
  unfold effectiveAlignment at h
  simp only [hmax] at h
  split at h
  · exact roundAlignment_least 32 0 (fun i hi => absurd hi (Nat.not_lt_zero i)) h j hj
  · rw [Option.some_inj] at h
    rwa [← h]

/-- The sums of a call, none of which exceeds a word: the guard, `total`, the rounding of `kmalloc`,
the header of `buddy_alloc`, and the address before it is cut down to a multiple. -/
structure SumsFit (size a raw : Nat) : Prop where
  guard : a + ptrSize ≤ sizeMax
  total : size + a + ptrSize ≤ sizeMax
  rounded : size + a + ptrSize + 7 ≤ sizeMax
  block : roundUp8 (size + a + ptrSize) + headerSize ≤ sizeMax
  address : raw + ptrSize + a ≤ sizeMax

/-- A block of the heap with room for the request is far below the last address. -/
theorem sumsFit {size a : Nat} {c : Chunk} (hc : InHeap c)
    (hfit : roundUp8 (size + a + ptrSize) + headerSize ≤ 2 ^ c.order) :
    SumsFit size a (c.base + headerSize) := by
  have hhi : c.base + 2 ^ c.order ≤ 37748736 := hc.hi
  have hle := le_roundUp8 (size + a + ptrSize)
  constructor <;> simp only [ptrSize, headerSize, sizeMax] at * <;> omega

/-! ### Release -/

section

variable {w w' : World} {c : Chunk} {p n : Nat}

/-- What a client does, short of releasing it, leaves a live allocation and its block as they
are. -/
theorem exec_keeps {op : Op} (hi : HeapInv w) (hop : Valid w op) (hr : exec w op = .ok w')
    (hp : (p, n) ∈ w.live) (hne : op ≠ .kfree p) :
    (p, n) ∈ w'.live ∧ blockOf w'.heap.mem p = blockOf w.heap.mem p := by
  obtain ⟨w₁, hr₁, -, hframe⟩ := exec_spec hi hop
  rw [hr, Except.ok.injEq] at hr₁
  subst hr₁
  obtain ⟨B, F, hs, hn, hv⟩ := hi
  obtain ⟨hb, -, h1, h2⟩ := hv.blockOf hp
  have hin := hs.inHeap hb
  have hlive : (p, n) ∈ w'.live := by
    rcases exec_cases hs hn hop hr with ⟨-, rfl⟩ | ⟨-, h₁, B', F', c, m, q, k, -, rfl⟩ | ⟨q, h',
      rfl, -, rfl⟩ |
      ⟨x, b, rfl, rfl⟩
    · exact hp
    · exact List.mem_cons_of_mem _ hp
    · exact List.mem_filter.mpr ⟨hp, by simpa using fun hpq => hne (by rw [hpq])⟩
    · exact hp
  refine ⟨hlive, ?_⟩
  by_cases ht : Targets w (p, n) op
  · cases op with
    | write x b =>
      -- a write to the payload is behind the word that names the block, and behind its header
      have hlow : ∀ y, y < p → store8 w.heap.mem x b y = w.heap.mem y := by
        intro y hy
        have := ht.1
        exact store8_ne _ _ (by omega)
      rw [← Except.ok.inj hr]
      have h1' : (blockOf w.heap.mem p).base + 16 ≤ p := h1
      have hhi := hin.hi
      have hown : ownerWord (store8 w.heap.mem x b) p = ownerWord w.heap.mem p :=
        ownerWord_congr (by omega) (by omega) (fun y _ hy => hlow y hy)
      have hword : ownerWord w.heap.mem p + 16 ≤ p := h1'
      have horder : blockOrder (store8 w.heap.mem x b) (ownerWord w.heap.mem p) =
          blockOrder w.heap.mem (ownerWord w.heap.mem p) :=
        load32_congr (fun y _ hy => hlow y (by omega))
      show blockOf (store8 w.heap.mem x b) p = _
      rw [blockOf, hown, horder]
      rfl
    | kfree q =>
      have hpq : p = q := ht
      exact absurd (by rw [hpq]) hne
    | kmalloc size => exact absurd ht id
    | kcalloc nmemb size => exact absurd ht id
    | kmallocAligned size alignment => exact absurd ht id
  · have hf := hframe (p, n) hp ht
    have hown : ownerWord w'.heap.mem p = ownerWord w.heap.mem p :=
      owner_congr hin hf h1 (le_trans (Nat.le_add_right _ _) h2)
    refine Chunk.ext hown ?_
    show blockOrder _ (ownerWord w'.heap.mem p) = _
    rw [hown]
    exact (header_congr hin hf).1

/-- **Releasing a live pointer** returns exactly its block. -/
theorem release_block (hi : HeapInv w) (hp : (p, n) ∈ w.live) : ∃ h', kfree w.heap p = .ok h' ∧
    blockOf w.heap.mem p ∈ allocBlocks w ∧
    allocBlocks ⟨h', w.live.filter (fun e => e.1 ≠ p)⟩ =
      allocBlocks w \ {blockOf w.heap.mem p} := by
  obtain ⟨B, F, hs, hn, hv⟩ := hi
  obtain ⟨h', B', F', hr, hrel, -⟩ := hv.freed hs hn hp
  obtain ⟨hv', -⟩ := hv.release hs hp hrel
  refine ⟨h', hr, ⟨(p, n), hp, rfl⟩, ?_⟩
  rw [Served.allocBlocks (w := ⟨h', w.live.filter (fun e => e.1 ≠ p)⟩) hrel.shape hv',
    hv.allocBlocks hs]
  ext u
  exact hrel.used u

/-- Whatever clients do in between, `kfree` finds the block that was granted. -/
theorem Granted.release (hw : system.Reach w') (hg : Granted w w' c p n) {ops : List Op}
    {w₂ : World} (hrun : system.Run w' ops w₂) (hops : Op.kfree p ∉ ops) :
    ∃ h', kfree w₂.heap p = .ok h' ∧
      c ∈ allocBlocks w₂ ∧
      allocBlocks ⟨h', w₂.live.filter (fun e => e.1 ≠ p)⟩ = allocBlocks w₂ \ {c} := by
  have hkept : HeapInv w₂ ∧ (p, n) ∈ w₂.live ∧ blockOf w₂.heap.mem p = c := by
    refine hrun.induct_of (P := fun v => HeapInv v ∧ (p, n) ∈ v.live ∧ blockOf v.heap.mem p = c)
      (C := fun op => op ≠ .kfree p) ?_ (fun op hop he => hops (he ▸ hop)) ?_
    · rintro v op v' hne ⟨hi, hp, hb⟩ ⟨hop, hr⟩
      obtain ⟨v₁, hr₁, hi', -⟩ := exec_spec hi hop
      rw [hr, Except.ok.injEq] at hr₁
      obtain ⟨hp', hb'⟩ := exec_keeps hi hop hr hp hne
      exact ⟨hr₁ ▸ hi', hp', hb'.trans hb⟩
    · exact ⟨reach_inv hw, hg.live ▸ List.mem_cons_self, hg.block⟩
  obtain ⟨hi, hp, rfl⟩ := hkept
  exact release_block hi hp

end

/-! ### The whole call -/

/-- `kmalloc_aligned` gave `r` in the block `c`, with the alignment `a`. -/
structure AlignedSound (w w' : World) (size alignment a r : Nat) (c : Chunk) : Prop where
  least : LeastPower a (max alignment ptrSize)
  granted : Granted w w' c r size
  placed : AlignedIn size a c r
  sums : SumsFit size a (c.base + headerSize)
  release : ∀ ops w₂, system.Run w' ops w₂ → Op.kfree r ∉ ops → ∃ h', kfree w₂.heap r = .ok h' ∧
    c ∈ allocBlocks w₂ ∧ allocBlocks ⟨h', w₂.live.filter (fun e => e.1 ≠ r)⟩ = allocBlocks w₂ \ {c}

/-- **Aligned allocation is right for all arguments**: it fails and changes nothing, or gives a
multiple of the least power of two, inside the payload of a block that `kfree` finds again; and
neither the guard nor the total that passes it wraps in either case. -/
theorem kmallocAligned_sound {w : World} (hw : system.Reach w) {size alignment : Nat}
    (hsize : size < 4294967296) (hal : alignment < 4294967296) :
    (∀ a, effectiveAlignment alignment = some a → a + ptrSize ≤ sizeMax ∧
      (size ≤ sizeMax - a - ptrSize → size + a + ptrSize ≤ sizeMax)) ∧
    (kmallocAligned w.heap size alignment = .ok (0, w.heap) ∨
      ∃ a c r h', kmallocAligned w.heap size alignment = .ok (r, h') ∧
        AlignedSound w (w.grant r size h') size alignment a r c) := by
  have hguard : ∀ a, effectiveAlignment alignment = some a → a + ptrSize ≤ sizeMax := by
    intro a ha
    obtain ⟨-, -, k, hk, rfl⟩ := effectiveAlignment_spec hal ha
    have := Nat.pow_le_pow_right (show 0 < 2 by decide) hk
    unfold ptrSize sizeMax
    omega
  refine ⟨fun a ha => ⟨hguard a ha, fun hle => ?_⟩, ?_⟩
  · have := hguard a ha
    omega
  obtain ⟨B, F, hs, hn, hv⟩ := reach_inv hw
  rcases kmallocAligned_gives hs hn size hal with hr | ⟨a, h', B', F', c, r, ha, hr, hfit,
    hp, hgives⟩
  · exact Or.inl hr
  · have hgr := hgives.granted hs hv
    have hvalid : Valid w (.kmallocAligned size alignment) := ⟨hsize, hal⟩
    have hw' := hw.step ⟨hvalid, exec_kmallocAligned hr⟩
    have hsums := sumsFit (hgives.taken.shape.inHeap hgives.taken.mem) hfit
    exact Or.inr ⟨a, c, r, _, hr, effectiveAlignment_least hal ha, hgr, hp, hsums,
      fun ops w₂ => hgr.release hw'⟩

theorem kmallocAligned_sound_page : ∃ h, kmallocInit blank = .ok h ∧
    (kmallocAligned h 100 3000 = .ok (0, h) ∨ ∃ a c r h', kmallocAligned h 100 3000 = .ok (r, h') ∧
      AlignedSound ⟨h, []⟩ (World.grant ⟨h, []⟩ r 100 h') 100 3000 a r c) := by
  obtain ⟨h, hr, -⟩ := kmallocInit_spec blank
  have hw : system.Reach ⟨h, []⟩ := .init ⟨rfl, blank, hr⟩
  exact ⟨h, hr, (kmallocAligned_sound hw (show 100 < 4294967296 by decide)
    (show 3000 < 4294967296 by decide)).2⟩

end CobraOS.Heap
