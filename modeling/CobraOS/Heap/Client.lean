import CobraOS.Heap.Free
import CobraOS.Base.System

/-!
# The heap and its clients

A `World` is the heap with the list of live allocations, each with the number of bytes that were
asked for.  A client allocates, releases one of its live pointers, or writes a byte of one of its
payloads.  The payload of `p` is everything from `p` to the end of the block that the word in front
of `p` names; for a pointer of `kmalloc_aligned` that word is the one `kmalloc_aligned` wrote, and
not `self` of the header.

`Served h B F live` says that the used chunks of the tiling are exactly the blocks of the live
allocations, one each, and `HeapInv` that there is such a tiling.  Every operation keeps `HeapInv`
(`exec_spec`), and none touches the block of an allocation that it is not about.
-/

namespace CobraOS.Heap

open Base Chunk

/-- A pointer and the number of bytes asked for. -/
abbrev Allocation := Nat × Nat

structure World where
  heap : State
  live : List Allocation

inductive Op
  | kmalloc (size : Nat)
  | kcalloc (nmemb size : Nat)
  | kmallocAligned (size alignment : Nat)
  | kfree (p : Nat)
  | write (x : Nat) (b : UInt8)

/-- The block of a live pointer, as `kfree` finds it and its header describes it. -/
def blockOf (m : Mem) (p : Nat) : Chunk := ⟨ownerWord m p, blockOrder m (ownerWord m p)⟩

/-- `x` is an address from `p` to the end of its block. -/
def InPayload (m : Mem) (p x : Nat) : Prop :=
  p ≤ x ∧ x < (blockOf m p).base + 2 ^ (blockOf m p).order

/-- The allocation at `p`, unless it failed. -/
def World.grant (w : World) (p n : Nat) (h : State) : World where
  heap := h
  live := if p = 0 then w.live else (p, n) :: w.live

def exec (w : World) : Op → Except HeapStop World
  | .kmalloc size => do
    let (p, h) ← kmalloc w.heap size
    .ok (w.grant p size h)
  | .kcalloc nmemb size => do
    let (p, h) ← kcalloc w.heap nmemb size
    .ok (w.grant p (nmemb * size) h)
  | .kmallocAligned size alignment => do
    let (p, h) ← kmallocAligned w.heap size alignment
    .ok (w.grant p size h)
  | .kfree p => do
    let h ← kfree w.heap p
    .ok ⟨h, w.live.filter (fun e => e.1 ≠ p)⟩
  | .write x b => .ok { w with heap := { w.heap with mem := store8 w.heap.mem x b } }

theorem exec_kmalloc {w : World} {size p : Nat} {h : State}
    (hr : kmalloc w.heap size = .ok (p, h)) :
    exec w (.kmalloc size) = .ok (w.grant p size h) := by
  rw [exec, hr]
  rfl

theorem exec_kmallocAligned {w : World} {size alignment p : Nat} {h : State}
    (hr : kmallocAligned w.heap size alignment = .ok (p, h)) :
    exec w (.kmallocAligned size alignment) = .ok (w.grant p size h) := by
  rw [exec, hr]
  rfl

theorem exec_kfree {w : World} {p : Nat} {h : State} (hr : kfree w.heap p = .ok h) :
    exec w (.kfree p) = .ok ⟨h, w.live.filter (fun e => e.1 ≠ p)⟩ := by
  rw [exec, hr]
  rfl

/-- What a client may do: arguments are words, only live pointers are released, and only payloads
are written. -/
def Valid (w : World) : Op → Prop
  | .kmalloc size => size < 4294967296
  | .kcalloc nmemb size => nmemb < 4294967296 ∧ size < 4294967296
  | .kmallocAligned size alignment => size < 4294967296 ∧ alignment < 4294967296
  | .kfree p => ∃ n, (p, n) ∈ w.live
  | .write x _ => ∃ e ∈ w.live, InPayload w.heap.mem e.1 x

/-- The operation releases the allocation or writes to it. -/
def Targets (w : World) (e : Allocation) : Op → Prop
  | .kfree p => e.1 = p
  | .write x _ => InPayload w.heap.mem e.1 x
  | _ => False

/-- Every run of the clients from `kmalloc_init`. -/
def system : System World Op where
  init w := w.live = [] ∧ ∃ h, kmallocInit h = .ok w.heap
  step w op w' := Valid w op ∧ exec w op = .ok w'

/-! ### The invariant -/

/-- The used chunks are the blocks of the live allocations. -/
structure Served (h : State) (B F : Set Chunk) (live : List Allocation) : Prop where
  header : ∀ u ∈ B, u ∉ F → blockOrder h.mem u.base = u.order ∧ blockFree h.mem u.base = 0
  block : ∀ e ∈ live, ∃ u ∈ B, u ∉ F ∧ ownerWord h.mem e.1 = u.base ∧ u.base + headerSize ≤ e.1 ∧
    e.1 + e.2 ≤ u.base + 2 ^ u.order
  owned : ∀ u ∈ B, u ∉ F → ∃ e ∈ live, ownerWord h.mem e.1 = u.base
  distinct : live.Pairwise (fun e f => ownerWord h.mem e.1 ≠ ownerWord h.mem f.1)

def HeapInv (w : World) : Prop :=
  ∃ B F, Shape w.heap B F ∧ NoBuddies F ∧ Served w.heap B F w.live

section

variable {h : State} {B F : Set Chunk} {live : List Allocation}

theorem InHeap.header_out {c : Chunk} (hin : InHeap c) {x : Nat} (hx : ¬ c.Has x) :
    x < c.base ∨ c.base + headerSize ≤ x := by
  have := hin.size
  unfold Has at hx
  unfold headerSize
  omega

theorem Served.eq_of_owner (hv : Served h B F live) {e f : Allocation} (he : e ∈ live)
    (hf : f ∈ live) (hw : ownerWord h.mem e.1 = ownerWord h.mem f.1) : e = f := by
  have : Std.Symm (fun e f : Allocation => ownerWord h.mem e.1 ≠ ownerWord h.mem f.1) :=
    ⟨fun _ _ => Ne.symm⟩
  by_contra hne
  exact hv.distinct.forall he hf hne hw

theorem Served.blockOf (hv : Served h B F live) {e : Allocation} (he : e ∈ live) :
    blockOf h.mem e.1 ∈ B ∧ blockOf h.mem e.1 ∉ F ∧
      (blockOf h.mem e.1).base + headerSize ≤ e.1 ∧
      e.1 + e.2 ≤ (blockOf h.mem e.1).base + 2 ^ (blockOf h.mem e.1).order := by
  obtain ⟨u, hu, huF, hw, h1, h2⟩ := hv.block e he
  have hb : Heap.blockOf h.mem e.1 = u := by
    refine Chunk.ext hw ?_
    show blockOrder h.mem (ownerWord h.mem e.1) = u.order
    rw [hw]
    exact (hv.header u hu huF).1
  rw [hb]
  exact ⟨hu, huF, h1, h2⟩

theorem ownerWord_congr {m m' : Mem} {p : Nat} (h4 : 4 ≤ p) (hp : p < 4294967296)
    (hm : ∀ x, p - 4 ≤ x → x < p → m' x = m x) : ownerWord m' p = ownerWord m p := by
  have hsub : wsub p ptrSize = p - 4 := wsub_of_le (by unfold ptrSize; omega) (by omega)
  unfold ownerWord
  rw [hsub]
  exact load32_congr (fun x h1 h2 => hm x h1 (by omega))

/-- A memory that agrees on the block of a pointer agrees on the pointer's word and its block. -/
theorem owner_congr {m m' : Mem} {u : Chunk} {p : Nat} (hin : InHeap u)
    (hm : ∀ x, u.Has x → m' x = m x) (h1 : u.base + headerSize ≤ p)
    (h2 : p ≤ u.base + 2 ^ u.order) :
    ownerWord m' p = ownerWord m p := by
  have hhi := hin.hi
  unfold headerSize at h1
  exact ownerWord_congr (by omega) (by omega) (fun x _ _ => hm x ⟨by omega, by omega⟩)

theorem headerWords_congr {m m' : Mem} {b : Nat}
    (hm : ∀ x, b ≤ x → x < b + headerSize → m' x = m x) :
    blockOrder m' b = blockOrder m b ∧ blockFree m' b = blockFree m b := by
  unfold headerSize at hm
  exact ⟨load32_congr (fun x _ _ => hm x (by omega) (by omega)),
    load32_congr (fun x _ _ => hm x (by omega) (by omega))⟩

theorem header_congr {m m' : Mem} {u : Chunk} (hin : InHeap u) (hm : ∀ x, u.Has x → m' x = m x) :
    blockOrder m' u.base = blockOrder m u.base ∧ blockFree m' u.base = blockFree m u.base := by
  have hsize := hin.size
  exact headerWords_congr (fun x h1 h2 => hm x ⟨h1, by unfold headerSize at h2; omega⟩)

theorem Served.header_kept (hs : Shape h B F) (hv : Served h B F live) {m' : Mem} {u : Chunk}
    (hu : u ∈ B) (huF : u ∉ F) (hm : ∀ x, u.Has x → m' x = h.mem x) :
    blockOrder m' u.base = u.order ∧ blockFree m' u.base = 0 := by
  obtain ⟨ho, hf⟩ := header_congr (hs.inHeap hu) hm
  exact ⟨ho.trans (hv.header u hu huF).1, hf.trans (hv.header u hu huF).2⟩

/-- Different allocations have different owners as long as their words are the same. -/
theorem distinct_congr {m m' : Mem} {l : List Allocation}
    (hd : l.Pairwise (fun e f => ownerWord m e.1 ≠ ownerWord m f.1))
    (hsame : ∀ e ∈ l, ownerWord m' e.1 = ownerWord m e.1) :
    l.Pairwise (fun e f => ownerWord m' e.1 ≠ ownerWord m' f.1) := by
  refine hd.imp_of_mem (fun {e f} he hf hne => ?_)
  rw [hsame e he, hsame f hf]
  exact hne

theorem Served.block_of_frame (hs : Shape h B F) (hv : Served h B F live) {m' : Mem}
    {e : Allocation} (he : e ∈ live) (hm : ∀ x, (Heap.blockOf h.mem e.1).Has x → m' x = h.mem x) :
    ownerWord m' e.1 = ownerWord h.mem e.1 := by
  obtain ⟨hu, -, h1, h2⟩ := hv.blockOf he
  exact owner_congr (hs.inHeap hu) hm h1 (le_trans (Nat.le_add_right _ _) h2)

/-! ### A new allocation -/

/-- The pointer `p` into the payload of a block that was just taken, with the word in front of it
naming the block, is one more live allocation. -/
theorem Allocated.serve {h' : State} {B' F' : Set Chunk} {c : Chunk} (hs : Shape h B F)
    (hv : Served h B F live) (ha : Allocated h B F h' B' F' c) {m : Mem} {p n : Nat}
    (hm : ∀ x, x < c.base + headerSize ∨ c.base + 2 ^ c.order ≤ x → m x = h'.mem x)
    (hown : ownerWord m p = c.base) (h1 : c.base + headerSize ≤ p)
    (h2 : p + n ≤ c.base + 2 ^ c.order) :
    Shape { h' with mem := m } B' F' ∧ Served { h' with mem := m } B' F' ((p, n) :: live) ∧
      ∀ e ∈ live, ∀ x, (Heap.blockOf h.mem e.1).Has x → m x = h.mem x := by
  have hin := ha.shape.inHeap ha.mem
  have hout : ∀ x, ¬ c.Has x → m x = h'.mem x := by
    intro x hx
    refine hm x ?_
    unfold Has at hx
    unfold headerSize
    omega
  -- a block that was used before is neither free nor the new one
  have hkeep : ∀ u ∈ B, u ∉ F → ∀ x, u.Has x → m x = h.mem x := by
    intro u hu huF x hx
    have hspan := hs.not_inSpan hu huF hx
    rw [hout x (fun hcx => hspan (ha.fresh x hcx)), ha.frame x hspan]
  have hframe : ∀ e ∈ live, ∀ x, (Heap.blockOf h.mem e.1).Has x → m x = h.mem x := by
    intro e he
    obtain ⟨hu, huF, -, -⟩ := hv.blockOf he
    exact hkeep _ hu huF
  have hsame : ∀ e ∈ live, ownerWord m e.1 = ownerWord h.mem e.1 :=
    fun e he => hv.block_of_frame hs he (hframe e he)
  have hnew : ∀ u ∈ B, u ∉ F → u.base ≠ c.base := by
    intro u hu huF he
    refine hs.not_inSpan hu huF (x := c.base) ?_ (ha.fresh c.base c.has_base)
    rw [← he]
    exact u.has_base
  refine ⟨ha.shape.of_frame ?_, ⟨?_, ?_, ?_, ?_⟩, hframe⟩
  · rintro x ⟨d, hd, hdx⟩
    refine hout x (fun hcx => ha.taken ?_)
    exact ha.shape.tiles.unique d (ha.shape.sub hd) c ha.mem x hdx hcx ▸ hd
  · intro u hu huF
    rcases (ha.used u).mp ⟨hu, huF⟩ with rfl | ⟨huB, huF'⟩
    · obtain ⟨ho, hf⟩ := headerWords_congr (b := u.base) (fun x _ hx => hm x (Or.inl hx))
      exact ⟨ho.trans ha.order, hf.trans ha.free⟩
    · exact hv.header_kept hs huB huF' (hkeep u huB huF')
  · rintro e he
    rcases List.mem_cons.mp he with rfl | he
    · exact ⟨c, ha.mem, ha.taken, hown, h1, h2⟩
    · obtain ⟨u, hu, huF, hw, g1, g2⟩ := hv.block e he
      obtain ⟨hu', huF'⟩ := (ha.used u).mpr (Or.inr ⟨hu, huF⟩)
      exact ⟨u, hu', huF', (hsame e he).trans hw, g1, g2⟩
  · intro u hu huF
    rcases (ha.used u).mp ⟨hu, huF⟩ with rfl | ⟨huB, huF'⟩
    · exact ⟨(p, n), List.mem_cons_self, hown⟩
    · obtain ⟨e, he, hw⟩ := hv.owned u huB huF'
      exact ⟨e, List.mem_cons_of_mem _ he, (hsame e he).trans hw⟩
  · refine List.pairwise_cons.mpr ⟨?_, ?_⟩
    · intro e he hw
      obtain ⟨u, hu, huF, hwu, -, -⟩ := hv.block e he
      exact hnew u hu huF (hwu.symm.trans ((hsame e he).symm.trans (hw.symm.trans hown)))
    · exact distinct_congr hv.distinct hsame

/-! ### Release and client writes -/

theorem Served.release {h' : State} {B' F' : Set Chunk} {p n : Nat} (hs : Shape h B F)
    (hv : Served h B F live) (hp : (p, n) ∈ live)
    (hr : Released h B F h' B' F' (Heap.blockOf h.mem p)) :
    Served h' B' F' (live.filter (fun e => e.1 ≠ p)) ∧
      ∀ e ∈ live, e.1 ≠ p → ∀ x, (Heap.blockOf h.mem e.1).Has x → h'.mem x = h.mem x := by
  obtain ⟨hcB, hcF, -, -⟩ := hv.blockOf hp
  have hkeep : ∀ u ∈ B, u ∉ F → u ≠ Heap.blockOf h.mem p → ∀ x, u.Has x → h'.mem x = h.mem x := by
    intro u hu huF hne x hx
    exact hr.frame x (hs.not_inSpan hu huF hx) (hs.tiles.apart hu hcB hne x hx)
  have hother : ∀ e ∈ live, e.1 ≠ p → Heap.blockOf h.mem e.1 ≠ Heap.blockOf h.mem p := by
    intro e he hne heq
    exact hne (congrArg Prod.fst (hv.eq_of_owner he hp (congrArg Chunk.base heq)))
  have hframe : ∀ e ∈ live, e.1 ≠ p → ∀ x, (Heap.blockOf h.mem e.1).Has x → h'.mem x = h.mem x := by
    intro e he hne
    obtain ⟨hu, huF, -, -⟩ := hv.blockOf he
    exact hkeep _ hu huF (hother e he hne)
  have hsame : ∀ e ∈ live, e.1 ≠ p → ownerWord h'.mem e.1 = ownerWord h.mem e.1 :=
    fun e he hne => hv.block_of_frame hs he (hframe e he hne)
  have hin : ∀ e ∈ live.filter (fun e => e.1 ≠ p), e ∈ live ∧ e.1 ≠ p := by
    intro e he
    simpa using he
  refine ⟨⟨?_, ?_, ?_, ?_⟩, hframe⟩
  · intro u hu huF
    obtain ⟨⟨huB, huF'⟩, hne⟩ := (hr.used u).mp ⟨hu, huF⟩
    exact hv.header_kept hs huB huF' (hkeep u huB huF' hne)
  · intro e he
    obtain ⟨hel, hne⟩ := hin e he
    obtain ⟨hu, huF, h1, h2⟩ := hv.blockOf hel
    obtain ⟨hu', huF'⟩ := (hr.used _).mpr ⟨⟨hu, huF⟩, hother e hel hne⟩
    exact ⟨_, hu', huF', hsame e hel hne, h1, h2⟩
  · intro u hu huF
    obtain ⟨⟨huB, huF'⟩, hne⟩ := (hr.used u).mp ⟨hu, huF⟩
    obtain ⟨e, he, hw⟩ := hv.owned u huB huF'
    have hep : e.1 ≠ p := by
      intro hep
      refine hne (hs.tiles.eq_of_base huB hcB (hw.symm.trans ?_))
      rw [hep]
      rfl
    exact ⟨e, by simp [he, hep], (hsame e he hep).trans hw⟩
  · exact distinct_congr (hv.distinct.filter _) (fun e he => hsame e (hin e he).1 (hin e he).2)

/-- Writing to the payload of a live allocation keeps every header and every owner's word. -/
theorem Served.write {e : Allocation} {x : Nat} (b : UInt8) (hs : Shape h B F)
    (hv : Served h B F live) (he : e ∈ live) (hx : InPayload h.mem e.1 x) :
    Shape { h with mem := store8 h.mem x b } B F ∧
      Served { h with mem := store8 h.mem x b } B F live ∧
      ∀ f ∈ live, ¬ InPayload h.mem f.1 x → ∀ y, (Heap.blockOf h.mem f.1).Has y →
        store8 h.mem x b y = h.mem y := by
  obtain ⟨huB, huF, h1, h2⟩ := hv.blockOf he
  have hin := hs.inHeap huB
  have hux : (Heap.blockOf h.mem e.1).Has x :=
    ⟨le_trans (le_trans (Nat.le_add_right _ _) h1) hx.1, hx.2⟩
  have hkeep : ∀ u ∈ B, u ≠ Heap.blockOf h.mem e.1 → ∀ y, u.Has y →
      store8 h.mem x b y = h.mem y := by
    intro u hu hne y hy
    refine store8_ne _ _ ?_
    rintro rfl
    exact hne (hs.tiles.unique u hu _ huB y hy hux)
  have hlow : ∀ y, y < e.1 → store8 h.mem x b y = h.mem y := by
    intro y hy
    have := hx.1
    exact store8_ne _ _ (by omega)
  have hsame : ∀ f ∈ live, ownerWord (store8 h.mem x b) f.1 = ownerWord h.mem f.1 := by
    intro f hf
    by_cases hfe : f = e
    · subst hfe
      have hhi := hin.hi
      unfold headerSize at h1
      exact ownerWord_congr (by omega) (by omega) (fun y _ hy => hlow y hy)
    · obtain ⟨hg, -, -, -⟩ := hv.blockOf hf
      refine hv.block_of_frame hs hf (hkeep _ hg ?_)
      exact fun heq => hfe (hv.eq_of_owner hf he (congrArg Chunk.base heq))
  refine ⟨hs.of_frame ?_, ⟨?_, ?_, ?_, ?_⟩, ?_⟩
  · rintro y ⟨d, hd, hdy⟩
    exact hkeep d (hs.sub hd) (fun heq => huF (heq ▸ hd)) y hdy
  · intro u hu huF'
    by_cases heq : u = Heap.blockOf h.mem e.1
    · subst heq
      obtain ⟨ho, hf⟩ :=
        headerWords_congr (b := (Heap.blockOf h.mem e.1).base) (fun y _ hy => hlow y (by omega))
      exact ⟨ho.trans (hv.header _ hu huF').1, hf.trans (hv.header _ hu huF').2⟩
    · exact hv.header_kept hs hu huF' (hkeep u hu heq)
  · intro f hf
    obtain ⟨u, hu, huF', hw, g1, g2⟩ := hv.block f hf
    exact ⟨u, hu, huF', (hsame f hf).trans hw, g1, g2⟩
  · intro u hu huF'
    obtain ⟨f, hf, hw⟩ := hv.owned u hu huF'
    exact ⟨f, hf, (hsame f hf).trans hw⟩
  · exact distinct_congr hv.distinct hsame
  · intro f hf hout
    obtain ⟨hg, -, -, -⟩ := hv.blockOf hf
    refine hkeep _ hg (fun heq => hout ?_)
    have hfe := hv.eq_of_owner hf he (congrArg Chunk.base heq)
    rw [hfe]
    exact hx

end
end CobraOS.Heap
