import CobraOS.Heap.Run

/-!
# The heap refuses no request it has room for

A chunk is vacant when no address of it belongs to an allocated block.  The free blocks are
coalesced, so a vacant chunk lies in one of them (`Tiles.exists_free`), and `kmalloc` fails only
when every free block is too small (`kmalloc_spec`).  So `kmalloc` fails exactly when no vacant
chunk is large enough (`kmalloc_complete`), however the allocated blocks are spread.
-/

namespace CobraOS.Heap

open Base Chunk

/-- An aligned chunk of the heap, not smaller than a block, that has no address of an allocated
block. -/
structure Vacant (w : World) (c : Chunk) : Prop where
  small : minBlockShift ≤ c.order
  large : c.order ≤ maxBlockShift
  aligned : c.Aligned
  inside : c.Sub root
  free : ∀ u ∈ allocBlocks w, c.Apart u

section

variable {w : World} {B F : Set Chunk}

theorem Allocated.vacant {h' : State} {B' F' : Set Chunk} {c : Chunk} (hs : Shape w.heap B F)
    (hv : Served w.heap B F w.live) (ha : Allocated w.heap B F h' B' F' c) : Vacant w c := by
  refine ⟨ha.shape.small c ha.mem, (ha.shape.inHeap ha.mem).order, ha.shape.tiles.aligned c ha.mem,
    ha.shape.tiles.sub c ha.mem, ?_⟩
  rw [hv.allocBlocks hs]
  rintro u ⟨hu, huF⟩ x hcx hux
  exact hs.not_inSpan hu huF hux (ha.fresh x hcx)

theorem Vacant.in_free (hs : Shape w.heap B F) (hn : NoBuddies F) (hv : Served w.heap B F w.live)
    {c : Chunk} (hc : Vacant w c) : ∃ d ∈ F, c.Sub d := by
  have ht : Tiles (F ∪ allocBlocks w) root := by
    rw [hv.allocBlocks hs, Set.union_sdiff_cancel hs.sub]
    exact hs.tiles
  exact ht.exists_free root_aligned hn hc.aligned hc.inside hc.free

end

/-- **`kmalloc` is complete**: it fails exactly when no vacant chunk holds the rounded size and a
header, and so for every size that does not fit into the heap. -/
theorem kmalloc_complete {w : World} (hw : system.Reach w) {n : Nat} (hpos : 0 < n) :
    ∃ p h', kmalloc w.heap n = .ok (p, h') ∧
      (p = 0 ↔ ¬ ∃ c, Vacant w c ∧ roundUp8 n + headerSize ≤ 2 ^ c.order) ∧
      (maxBlockSize - headerSize < n → p = 0) := by
  obtain ⟨B, F, hs, hn, hv⟩ := reach_inv hw
  have hlarge : ∀ {p h'}, kmalloc w.heap n = .ok (p, h') → maxBlockSize - headerSize < n →
      p = 0 := by
    intro p h' hr hbig
    by_contra hp
    exact absurd (kmalloc_le hr hp).2 (Nat.not_le.mpr hbig)
  rcases kmalloc_spec hs hn hpos with ⟨hr, hsmall⟩ | ⟨h', B', F', c, hr, ha, hfit, -⟩
  · refine ⟨0, w.heap, hr, ⟨fun _ => ?_, fun _ => rfl⟩, hlarge hr⟩
    rintro ⟨c, hc, hfit⟩
    obtain ⟨d, hd, hcd⟩ := hc.in_free hs hn hv
    have := hsmall d hd
    have := Nat.pow_le_pow_right (show 0 < 2 by decide) hcd.order_le
    omega
  · have hne : c.base + headerSize ≠ 0 := by
      unfold headerSize
      omega
    exact ⟨_, h', hr,
      ⟨fun hz => absurd hz hne, fun hno => absurd ⟨c, ha.vacant hs hv, hfit⟩ hno⟩, hlarge hr⟩

theorem kmalloc_complete_first : ∃ h p h', kmallocInit blank = .ok h ∧ kmalloc h 100 = .ok (p, h') ∧
    (p = 0 ↔ ¬ ∃ c, Vacant ⟨h, []⟩ c ∧ roundUp8 100 + headerSize ≤ 2 ^ c.order) := by
  obtain ⟨h, hr, -⟩ := kmallocInit_spec blank
  obtain ⟨p, h', hrun, hiff, -⟩ :=
    kmalloc_complete (w := ⟨h, []⟩) (.init ⟨rfl, blank, hr⟩) (n := 100) (by decide)
  exact ⟨h, p, h', hr, hrun, hiff⟩

end CobraOS.Heap
