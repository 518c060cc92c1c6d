import CobraOS.Heap.Aligned

/-!
# Double frees are caught

`kfree` finds the block of a pointer through the word in front of it, and stops the machine when
that word is null or the block is marked as free.  When a block is released it is marked, and its
word names it.  As long as no allocated block has an address of it, the allocator changes its word
to null at most and keeps the mark (`exec_calm`), whatever merges and splits happen around it.  So
`kfree` stops before it writes anything when the pointer is released again (`double_free_caught`).
-/

namespace CobraOS.Heap

open Base Chunk

/-- `kfree` of `p` stops at the test of `buddy_free`: the block `D` is marked, and the word in front
of `p` names it or nothing. -/
structure Dead (D : Chunk) (m : Mem) (p : Nat) : Prop where
  free : blockFree m D.base = 1
  owner : ownerWord m p = D.base ∨ ownerWord m p = 0

/-- The steps of clients after which no allocated block has an address of `D`. -/
def quiet (D : Chunk) : System World Op where
  init := system.init
  step w op w' := system.step w op w' ∧ ∀ u ∈ allocBlocks w', D.Apart u

section

variable {w w' : World} {B F : Set Chunk} {D : Chunk} {p n : Nat} {m m' : Mem}

theorem Dead.caught (h : Dead D w.heap.mem p) (hp : p ≠ 0) :
    kfree w.heap p = .error (.badFree w.heap) := by
  have htest : ownerWord w.heap.mem p = 0 ∨ blockFree w.heap.mem (ownerWord w.heap.mem p) ≠ 0 := by
    rcases h.owner with he | he
    · exact Or.inr (by rw [he, h.free]; decide)
    · exact Or.inl he
  rw [kfree, buddyFree, if_neg hp]
  exact if_pos htest

theorem Calm.owner (hD : Spot D) (hhi : D.base + 2 ^ D.order ≤ 37748736) (h : Calm D m m')
    (hp : ptrSize ∣ p) (h1 : D.base + headerSize ≤ p) (h2 : p ≤ D.base + 2 ^ D.order) :
    ownerWord m' p = ownerWord m p ∨ ownerWord m' p = 0 := by
  have hmult := hD.mult
  unfold headerSize at h1
  have h4 : 4 ∣ p := hp
  have hsub : wsub p ptrSize = p - 4 := wsub_of_le (by unfold ptrSize; omega) (by omega)
  unfold ownerWord
  rw [hsub]
  by_cases hfirst : p = D.base + 16
  · subst hfirst
    exact h.self
  · -- behind the header, in the payload
    refine Or.inl (load32_congr (fun x hx1 hx2 => h.payload x ?_ (by omega)))
    unfold headerSize
    omega

theorem Dead.calm (hD : Spot D) (hhi : D.base + 2 ^ D.order ≤ 37748736) (hp : ptrSize ∣ p)
    (h1 : D.base + headerSize ≤ p) (h2 : p ≤ D.base + 2 ^ D.order) (hd : Dead D m p)
    (h : Calm D m m') :
    Dead D m' p := by
  refine ⟨h.free hd.free, ?_⟩
  rcases h.owner hD hhi hp h1 h2 with he | he
  · rw [he]
    exact hd.owner
  · exact Or.inr he

/-! ### The steps of clients -/

/-- Every pointer that clients hold is a multiple of a pointer's size. -/
theorem reach_dvd (hw : system.Reach w) : ∀ e ∈ w.live, ptrSize ∣ e.1 := by
  have hboth : HeapInv w ∧ ∀ e ∈ w.live, ptrSize ∣ e.1 := by
    refine hw.induct (P := fun w => HeapInv w ∧ ∀ e ∈ w.live, ptrSize ∣ e.1) ?_ ?_
    · intro w hi
      refine ⟨reach_inv (.init hi), fun e he => ?_⟩
      rw [hi.1] at he
      cases he
    · rintro w op w' ⟨hi, hd⟩ ⟨hop, hr⟩
      obtain ⟨w₁, hr₁, hi', -⟩ := exec_spec hi hop
      rw [hr, Except.ok.injEq] at hr₁
      refine ⟨hr₁ ▸ hi', ?_⟩
      obtain ⟨B, F, hs, hn, hv⟩ := hi
      rcases exec_cases hs hn hop hr with ⟨-, rfl⟩ | ⟨-, h₁, B', F', c, m, p, n, hg, rfl⟩ |
        ⟨p, h', rfl, -, rfl⟩ | ⟨x, b, rfl, rfl⟩
      · exact hd
      · exact List.forall_mem_cons.mpr ⟨hg.multiple, hd⟩
      · exact fun e he => hd e (List.mem_filter.mp he).1
      · exact hd
  exact hboth.2

/-- A block that is apart from all allocated blocks lies in a free one. -/
theorem quiet_free (hs : Shape w.heap B F) (hn : NoBuddies F) (hv : Served w.heap B F w.live)
    (hD : Spot D) (hin : D.Sub root) (hap : ∀ u ∈ allocBlocks w, D.Apart u) : ∃ g ∈ B, D.Sub g := by
  obtain ⟨g, hg, hDg⟩ := Vacant.in_free hs hn hv ⟨hD.small, hin.order_le, hD.aligned, hin, hap⟩
  exact ⟨g, hs.sub hg, hDg⟩

/-- **No step of a client disturbs a block** that is apart from the allocated blocks before and
after it. -/
theorem exec_calm (hi : HeapInv w) {op : Op} (hop : Valid w op) (hr : exec w op = .ok w')
    (hD : Spot D) (hin : D.Sub root) (hap : ∀ u ∈ allocBlocks w, D.Apart u)
    (hap' : ∀ u ∈ allocBlocks w', D.Apart u) :
    Calm D w.heap.mem w'.heap.mem := by
  obtain ⟨B, F, hs, hn, hv⟩ := hi
  have hg := quiet_free hs hn hv hD hin hap
  rcases exec_cases hs hn hop hr with ⟨-, rfl⟩ | ⟨-, h₁, B', F', c, m, p, n, hgives, rfl⟩ |
    ⟨p, h', rfl, hf, rfl⟩ | ⟨x, b, rfl, rfl⟩
  · exact Calm.refl D _
  · have hgr := hgives.granted hs hv
    have hc : D.Apart c := by
      refine hap' c ⟨(p, n), List.mem_cons_self, ?_⟩
      exact hgr.block.symm
    refine (hgives.spares D hD hg hc).trans (Calm.of_frame hD (fun x hx => hgives.other x ?_))
    have hx' := hc x hx
    unfold Has at hx'
    omega
  · obtain ⟨n, hp⟩ := hop
    obtain ⟨h₁, B', F', hr₁, -, hcalm⟩ := hv.freed hs hn hp
    rw [hr₁, Except.ok.injEq] at hf
    subst hf
    obtain ⟨g, hgB, hDg⟩ := hg
    exact (Calm.setFree hD (hs.beside hD hgB hDg (hv.blockOf hp).1) _).trans
      (hcalm D hD ⟨g, hgB, hDg⟩)
  · obtain ⟨e, he, hx⟩ := hop
    obtain ⟨-, -, h1, -⟩ := hv.blockOf he
    refine Calm.of_frame hD (fun y hy => store8_ne _ _ ?_)
    rintro rfl
    exact hap _ ⟨e, he, rfl⟩ y hy ⟨le_trans (le_trans (Nat.le_add_right _ _) h1) hx.1, hx.2⟩

theorem live_spot (hw : system.Reach w) (hp : (p, n) ∈ w.live) :
    Spot (blockOf w.heap.mem p) ∧ (blockOf w.heap.mem p).Sub root ∧
      (blockOf w.heap.mem p).base + headerSize ≤ p ∧
      p ≤ (blockOf w.heap.mem p).base + 2 ^ (blockOf w.heap.mem p).order := by
  obtain ⟨B, F, hs, hn, hv⟩ := reach_inv hw
  obtain ⟨hcB, -, h1, h2⟩ := hv.blockOf hp
  exact ⟨⟨hs.tiles.aligned _ hcB, hs.small _ hcB⟩, hs.tiles.sub _ hcB, h1,
    le_trans (Nat.le_add_right _ _) h2⟩

/-- A block is dead when it has been released, and apart from the blocks that are left. -/
theorem release_dead (hw : system.Reach w) (hp : (p, n) ∈ w.live)
    (hr : exec w (.kfree p) = .ok w') :
    Dead (blockOf w.heap.mem p) w'.heap.mem p ∧ ∀ u ∈ allocBlocks w',
      (blockOf w.heap.mem p).Apart u := by
  obtain ⟨hD, -, hlo, hhi⟩ := live_spot hw hp
  have hdvd := reach_dvd hw _ hp
  obtain ⟨h', hf, -, hblocks⟩ := release_block (reach_inv hw) hp
  obtain ⟨B, F, hs, hn, hv⟩ := reach_inv hw
  have hcB := (hv.blockOf hp).1
  have hin : InHeap (blockOf w.heap.mem p) := hs.inHeap hcB
  obtain ⟨h₁, B', F', hr₁, -, hcalm⟩ := hv.freed hs hn hp
  rw [hr₁, Except.ok.injEq] at hf
  subst hf
  rw [exec_kfree hr₁, Except.ok.injEq] at hr
  rw [← hr]
  refine ⟨?_, ?_⟩
  · have hc := hcalm _ hD ⟨_, hcB, Chunk.sub_refl _⟩
    have hmark := header_writes w.heap.mem (blockOf w.heap.mem p).base 1 (by decide)
    -- marking the block leaves the word in front of the pointer alone
    have hown : ownerWord (setFree w.heap.mem (blockOf w.heap.mem p).base 1) p =
        (blockOf w.heap.mem p).base := by
      have hbase := hin.lo
      have hend := hin.hi
      unfold headerSize at hlo
      have hsub : wsub p ptrSize = p - 4 := wsub_of_le (by unfold ptrSize; omega) (by omega)
      have hword : load32 (setFree w.heap.mem (blockOf w.heap.mem p).base 1) (p - 4) =
          load32 w.heap.mem (p - 4) := load32_store32_of_ne _ _ (by omega)
      rw [ownerWord, hsub, hword, ← hsub]
      rfl
    refine ⟨hc.free hmark.2.1, ?_⟩
    rcases hc.owner hD hin.hi hdvd hlo hhi with he | he
    · exact Or.inl (he.trans hown)
    · exact Or.inr he
  · rw [hblocks, hv.allocBlocks hs]
    rintro u ⟨⟨hu, -⟩, hne⟩
    exact hs.tiles.apart hcB hu (fun he => hne he.symm)

end

/-- **Double frees are caught**: after a pointer has been released, and while no allocated block has
an address of its former block, releasing it again stops in `buddy_free` with the heap as it is. -/
theorem double_free_caught {w w₁ w₂ : World} (hw : system.Reach w) {p n : Nat}
    (hp : (p, n) ∈ w.live) (hfree : exec w (.kfree p) = .ok w₁) {ops : List Op}
    (hrun : (quiet (blockOf w.heap.mem p)).Run w₁ ops w₂) :
    kfree w₂.heap p = .error (.badFree w₂.heap) := by
  obtain ⟨hD, hin, hlo, hhi⟩ := live_spot hw hp
  obtain ⟨hdead, hap⟩ := release_dead hw hp hfree
  have hdvd := reach_dvd hw _ hp
  have hend : (blockOf w.heap.mem p).base + 2 ^ (blockOf w.heap.mem p).order ≤ 37748736 := hin.2
  have hp0 : p ≠ 0 := by
    unfold headerSize at hlo
    omega
  generalize blockOf w.heap.mem p = D at *
  have hw₁ : HeapInv w₁ := reach_inv (hw.step (e := .kfree p) ⟨⟨n, hp⟩, hfree⟩)
  have hkept : HeapInv w₂ ∧ (∀ u ∈ allocBlocks w₂, D.Apart u) ∧ Dead D w₂.heap.mem p := by
    refine hrun.induct
      (P := fun v => HeapInv v ∧ (∀ u ∈ allocBlocks v, D.Apart u) ∧ Dead D v.heap.mem p) ?_
        ⟨hw₁, hap, hdead⟩
    rintro v op v' ⟨hi, hap, hdead⟩ ⟨⟨hop, hr⟩, hap'⟩
    obtain ⟨v₁, hr₁, hi', -⟩ := exec_spec hi hop
    rw [hr, Except.ok.injEq] at hr₁
    exact ⟨hr₁ ▸ hi', hap', hdead.calm hD hend hdvd hlo hhi (exec_calm hi hop hr hD hin hap hap')⟩
  exact hkept.2.2.caught hp0

/-- The first block, released twice. -/
theorem double_free_caught_first : ∃ h p h' w₁, kmallocInit blank = .ok h ∧
    kmalloc h 100 = .ok (p, h') ∧
    p ≠ 0 ∧ exec ⟨h', [(p, 100)]⟩ (.kfree p) = .ok w₁ ∧
      kfree w₁.heap p = .error (.badFree w₁.heap) := by
  obtain ⟨h, hr, -⟩ := kmallocInit_spec blank
  have hw : system.Reach ⟨h, []⟩ := .init ⟨rfl, blank, hr⟩
  obtain ⟨B, F, hs, hn, hv⟩ := reach_inv hw
  have hroot : root ∈ F := by
    rw [← hs.freeBlocks, (free_blocks_maximal hw).2.2.2 rfl]
    exact rfl
  rcases kmalloc_spec hs hn (n := 100) (by decide) with ⟨-, hsmall⟩ | ⟨h', B', F', c, hk, -, -, -⟩
  · exact absurd (hsmall root hroot) (by decide)
  · have hp : c.base + headerSize ≠ 0 := by
      unfold headerSize
      omega
    have hstep : exec ⟨h, []⟩ (.kmalloc 100) = .ok ⟨h', [(c.base + headerSize, 100)]⟩ := by
      rw [exec_kmalloc hk]
      exact congrArg Except.ok (congrArg (World.mk h') (if_neg hp))
    have hw' : system.Reach ⟨h', [(c.base + headerSize, 100)]⟩ :=
      hw.step (e := .kmalloc 100) ⟨show 100 < 4294967296 by decide, hstep⟩
    have hlive : (c.base + headerSize, 100) ∈ (⟨h', [(c.base + headerSize, 100)]⟩ : World).live :=
      List.mem_singleton_self _
    have hasks : Valid ⟨h', [(c.base + headerSize, 100)]⟩ (.kfree (c.base + headerSize)) :=
      ⟨100, hlive⟩
    obtain ⟨w₁, hf, -⟩ := exec_spec (reach_inv hw') hasks
    exact ⟨h, _, h', w₁, hr, hk, hp, hf, double_free_caught hw' hlive hf (.nil w₁)⟩

end CobraOS.Heap
