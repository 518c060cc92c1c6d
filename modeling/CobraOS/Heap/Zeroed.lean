import CobraOS.Heap.Complete

/-!
# What `kcalloc` clears

`Granted` is a new live allocation in a block that was vacant.  `kcalloc` gives one with room for
the product of its arguments, which does not wrap, and clears exactly that many bytes
(`kcalloc_zeroed`): they lie behind the header of the new block, so no header is among them, no link
of a free list, and no byte of another payload.
-/

namespace CobraOS.Heap

open Base Chunk

/-- `p`, for which `n` bytes were asked, is a new live pointer into the vacant chunk `c`. -/
structure Granted (w w' : World) (c : Chunk) (p n : Nat) : Prop where
  vacant : Vacant w c
  live : w'.live = (p, n) :: w.live
  blocks : allocBlocks w' = insert c (allocBlocks w)
  block : blockOf w'.heap.mem p = c
  front : c.base + headerSize ≤ p
  room : p + n ≤ c.base + 2 ^ c.order

theorem Gives.granted {w : World} {h₁ : State} {B F B' F' : Set Chunk} {c : Chunk} {m : Mem}
    {p n : Nat} (hs : Shape w.heap B F) (hv : Served w.heap B F w.live)
    (hg : Gives w.heap B F h₁ B' F' c m p n) :
    Granted w (w.grant p n { h₁ with mem := m }) c p n := by
  obtain ⟨hs', hv', -⟩ := hg.serve hs hv
  have hlive : (w.grant p n { h₁ with mem := m }).live = (p, n) :: w.live := if_neg hg.ne_zero
  have hv'' : Served { h₁ with mem := m } B' F' (w.grant p n { h₁ with mem := m }).live :=
    hlive ▸ hv'
  refine ⟨hg.taken.vacant hs hv, hlive, ?_, ?_, hg.front, hg.room⟩
  · rw [hv''.allocBlocks hs', hv.allocBlocks hs]
    ext u
    exact hg.taken.used u
  · obtain ⟨hb, -⟩ := hv'.blockOf List.mem_cons_self
    exact hs'.tiles.eq_of_base hb hg.taken.mem hg.owner

theorem heapMemset_eq (c : UInt8) : ∀ (n : Nat) (m : Mem) (p : Nat) {x : Nat},
    p ≤ x → x < p + n → heapMemset m p c n x = c := by
  intro n
  induction n with
  | zero => intro m p x h1 h2; omega
  | succ n ih =>
    intro m p x h1 h2
    rw [heapMemset]
    by_cases hx : x = p
    · rw [hx, heapMemset_ne _ _ _ _ (by omega), store8_same]
    · exact ih _ _ (by omega) (by omega)

/-- The call gave `p` like `kmalloc`, after which the heap was `h₁`, and cleared `n` bytes. -/
structure Zeroed (w : World) (h₁ h' : State) (p n : Nat) : Prop where
  granted : ∃ c, Granted w (w.grant p n h') c p n
  zero : ∀ x, p ≤ x → x < p + n → h'.mem x = 0
  other : ∀ x, x < p ∨ p + n ≤ x → h'.mem x = h₁.mem x
  payload : ∀ e ∈ w.live, ∀ x, InPayload w.heap.mem e.1 x → h'.mem x = h₁.mem x ∧
    h₁.mem x = w.heap.mem x
  header : ∀ b ∈ freeBlocks h₁ ∪ allocBlocks (w.grant p n h₁), ∀ x, b.base ≤ x →
    x < b.base + headerSize →
    h'.mem x = h₁.mem x
  lists : h'.freeLists = h₁.freeLists

/-- **`kcalloc` never under-allocates**: it fails and changes nothing, or gives a new payload with
room for the whole product, whose bytes it has cleared; what it has cleared is no header and in no
other payload. -/
theorem kcalloc_zeroed {w : World} (hw : system.Reach w) (nmemb size : Nat) :
    kcalloc w.heap nmemb size = .ok (0, w.heap) ∨
      ∃ p h₁ h', kmalloc w.heap (nmemb * size) = .ok (p, h₁) ∧
        kcalloc w.heap nmemb size = .ok (p, h') ∧ Zeroed w h₁ h' p (nmemb * size) := by
  obtain ⟨B, F, hs, hn, hv⟩ := reach_inv hw
  rcases kcalloc_gives hs hn nmemb size with hr | ⟨h₁, B', F', c, hr₁, hr, hgives⟩
  · exact Or.inl hr
  · let p := c.base + headerSize
    let m := heapMemset h₁.mem p 0 (nmemb * size)
    have ha := hgives.taken
    have hm := hgives.other
    have hin := ha.shape.inHeap ha.mem
    have hother : ∀ x, x < p ∨ p + nmemb * size ≤ x → m x = h₁.mem x :=
      fun x hx => heapMemset_ne 0 _ _ _ hx
    have hg : Granted w (w.grant p (nmemb * size) { h₁ with mem := m }) c p (nmemb * size) :=
      hgives.granted hs hv
    have hg₁ : Granted w (w.grant p (nmemb * size) h₁) c p (nmemb * size) :=
      Gives.granted hs hv ⟨ha, hgives.spares, fun _ _ => rfl, (hin.ownerWord h₁.mem).trans ha.self,
        le_rfl, hgives.room, hgives.multiple⟩
    -- the cleared bytes are in the block and behind its header
    have hout : ∀ x, ¬ c.Has x → m x = h₁.mem x := by
      intro x hx
      apply hm
      rcases hin.header_out hx with h | h
      · exact Or.inl (by omega)
      · refine Or.inr ?_
        by_contra hlt
        exact hx ⟨by omega, by omega⟩
    refine Or.inr ⟨p, h₁, { h₁ with mem := m }, hr₁, hr, ⟨c, hg⟩, fun x => heapMemset_eq 0 _ _ _,
      hother, ?_, ?_, rfl⟩
    · intro e he x hx
      obtain ⟨hu, huF, h1, -⟩ := hv.blockOf he
      have hux : (blockOf w.heap.mem e.1).Has x :=
        ⟨le_trans (le_trans (Nat.le_add_right _ _) h1) hx.1, hx.2⟩
      have hfree : ¬ InSpan F x := hs.not_inSpan hu huF hux
      exact ⟨hout x (fun hcx => hfree (ha.fresh x hcx)), ha.frame x hfree⟩
    · intro b hb x h1 h2
      have hbB : b ∈ B' := by
        rw [ha.shape.freeBlocks, hg₁.blocks, hv.allocBlocks hs] at hb
        rcases hb with hb | rfl | hb
        · exact ha.shape.sub hb
        · exact ha.mem
        · exact ((ha.used b).mpr (Or.inr hb)).1
      by_cases hbc : b = c
      · rw [hbc] at h2
        exact hm x (Or.inl h2)
      · refine hout x (ha.shape.tiles.apart hbB ha.mem hbc x ⟨h1, ?_⟩)
        have := (ha.shape.inHeap hbB).size
        unfold headerSize at h2
        omega

theorem kcalloc_zeroed_first : ∃ h, kmallocInit blank = .ok h ∧ (kcalloc h 25 4 = .ok (0, h) ∨
    ∃ p h₁ h', kmalloc h (25 * 4) = .ok (p, h₁) ∧ kcalloc h 25 4 = .ok (p, h') ∧
      Zeroed ⟨h, []⟩ h₁ h' p (25 * 4)) := by
  obtain ⟨h, hr, -⟩ := kmallocInit_spec blank
  exact ⟨h, hr, kcalloc_zeroed (w := ⟨h, []⟩) (.init ⟨rfl, blank, hr⟩) 25 4⟩

end CobraOS.Heap
