import CobraOS.Heap.Shape

/-!
# What the allocator does to the bytes of a block that is not in use

Between the operations of clients a block that has been released keeps most of its bytes: the
allocator writes only headers, and a header that lies in such a block is the block's own, as long as
the block is part of one chunk of the tiling (`Beside`).  Such writes keep the payload, keep the
word `free` when it says that the block is free, and change the word `self` to null at most.  `Calm
D m m'` says this of a change of the memory, and the lemmas say it of the writes.
-/

namespace CobraOS.Heap

open Base Chunk

/-- An aligned chunk that is not too small for a block. -/
structure Spot (D : Chunk) : Prop where
  aligned : D.Aligned
  small : minBlockShift ≤ D.order

/-- A header at `b` is that of `D`, or does not meet `D`. -/
def Beside (D : Chunk) (b : Nat) : Prop :=
  b = D.base ∨ b + headerSize ≤ D.base ∨ D.base + 2 ^ D.order ≤ b

/-- The marks of the released block `D` survive the change of the memory. -/
structure Calm (D : Chunk) (m m' : Mem) : Prop where
  payload : ∀ x, D.base + headerSize ≤ x → x < D.base + 2 ^ D.order → m' x = m x
  self : blockSelf m' D.base = blockSelf m D.base ∨ blockSelf m' D.base = 0
  free : blockFree m D.base = 1 → blockFree m' D.base = 1

section

variable {D : Chunk} {m m' m'' : Mem} {b : Nat}

theorem Spot.size (hD : Spot D) : 32 ≤ 2 ^ D.order :=
  Nat.pow_le_pow_right (show 0 < 2 by decide) hD.small

theorem Spot.mult (hD : Spot D) : D.base % 32 = 0 :=
  Nat.mod_eq_zero_of_dvd (dvd_trans (Nat.pow_dvd_pow 2 hD.small) hD.aligned)

namespace Calm

theorem refl (D : Chunk) (m : Mem) : Calm D m m := ⟨fun _ _ _ => rfl, Or.inl rfl, id⟩

theorem trans (h : Calm D m m') (h' : Calm D m' m'') : Calm D m m'' := by
  refine ⟨fun x h1 h2 => (h'.payload x h1 h2).trans (h.payload x h1 h2), ?_,
    fun hf => h'.free (h.free hf)⟩
  rcases h'.self with he | he
  · rw [he]
    exact h.self
  · exact Or.inr he

/-- A change outside the block, or of the first two words of its header. -/
theorem of_words (hD : Spot D) (h : ∀ x, D.base + 8 ≤ x → x < D.base + 2 ^ D.order → m' x = m x) :
    Calm D m m' := by
  have hsize := hD.size
  have hself : blockSelf m' D.base = blockSelf m D.base :=
    load32_congr (fun x _ _ => h x (by omega) (by omega))
  have hfree : blockFree m' D.base = blockFree m D.base :=
    load32_congr (fun x _ _ => h x (by omega) (by omega))
  refine ⟨fun x h1 h2 => h x ?_ h2, Or.inl hself, fun hf => hfree.trans hf⟩
  unfold headerSize at h1
  omega

theorem of_frame (hD : Spot D) (h : ∀ x, D.Has x → m' x = m x) : Calm D m m' :=
  of_words hD (fun x h1 h2 => h x ⟨by omega, h2⟩)

theorem setNext (hD : Spot D) (hb : Beside D b) (m : Mem) (w : Nat) :
    Calm D m (Heap.setNext m b w) := by
  unfold Beside headerSize at hb
  exact of_words hD (fun x _ _ => store32_ne m w (by omega))

theorem setOrder (hD : Spot D) (hb : Beside D b) (m : Mem) (w : Nat) :
    Calm D m (Heap.setOrder m b w) := by
  unfold Beside headerSize at hb
  exact of_words hD (fun x _ _ => store32_ne m w (by omega))

theorem setFree (hD : Spot D) (hb : Beside D b) (m : Mem) : Calm D m (Heap.setFree m b 1) := by
  have hsize := hD.size
  unfold Beside headerSize at hb
  have hout : ∀ x, D.base + 12 ≤ x → x < D.base + 2 ^ D.order → Heap.setFree m b 1 x = m x :=
    fun x _ _ => store32_ne m 1 (by omega)
  refine ⟨fun x h1 h2 => hout x (by unfold headerSize at h1; omega) h2,
    Or.inl (load32_congr (fun x _ _ => hout x (by omega) (by omega))), fun hf => ?_⟩
  rcases hb with rfl | hb
  · exact (header_writes m D.base 1 (by decide)).2.1
  · exact (load32_congr (fun x _ _ => store32_ne m 1 (by omega))).trans hf

theorem setSelf (hD : Spot D) (hb : Beside D b) (m : Mem) : Calm D m (Heap.setSelf m b 0) := by
  have hsize := hD.size
  unfold Beside headerSize at hb
  have hout : ∀ x, (x < D.base + 12 ∨ D.base + headerSize ≤ x) → D.base ≤ x →
      x < D.base + 2 ^ D.order →
      Heap.setSelf m b 0 x = m x := by
    intro x h1 h2 h3
    unfold headerSize at h1
    exact store32_ne m 0 (by omega)
  refine ⟨fun x h1 h2 => hout x (Or.inr h1) (le_trans (Nat.le_add_right _ _) h1) h2, ?_,
    fun hf => ?_⟩
  · rcases hb with rfl | hb
    · exact Or.inr (header_writes m D.base 0 (by decide)).2.2.1
    · exact Or.inl (load32_congr (fun x _ _ => store32_ne m 0 (by omega)))
  · exact (load32_congr (fun x _ _ => hout x (by omega) (by omega) (by omega))).trans hf

theorem writeHalves (hD : Spot D) {c : Chunk} (hlo : Beside D c.lo.base) (hhi : Beside D c.hi.base)
    (m : Mem) (v w : Nat) : Calm D m (Heap.writeHalves m c v w) := by
  have h1 := (setOrder hD hlo m (c.order - 1)).trans (setFree hD hlo _)
  have h2 := (h1.trans (setOrder hD hhi _ (c.order - 1))).trans (setFree hD hhi _)
  have h3 := (h2.trans (setSelf hD hhi _)).trans (setNext hD hlo _ v)
  exact h3.trans (setNext hD hhi _ w)

theorem of_nextOnly (hD : Spot D) {F : Set Chunk} (hb : ∀ d ∈ F, Beside D d.base)
    (hn : NextOnly F m m') : Calm D m m' := by
  refine of_words hD (fun x h1 h2 => hn x (fun d hd => ?_))
  have := hb d hd
  unfold Beside headerSize at this
  omega

end Calm

variable {h : State} {B F : Set Chunk}

/-- The header of a chunk of the tiling does not meet a block inside another one. -/
theorem Shape.beside (hs : Shape h B F) (hD : Spot D) {g d : Chunk} (hg : g ∈ B) (hsub : D.Sub g)
    (hd : d ∈ B) :
    Beside D d.base := by
  have hgin := hs.inHeap hg
  have hdin := hs.inHeap hd
  have h1 := hsub.1
  have h2 := hsub.2
  have h3 := hgin.mult
  have h4 := hD.mult
  have h5 := hdin.size
  unfold Beside headerSize
  by_cases hdg : d = g
  · subst hdg
    omega
  · have hdis := hs.tiles.apart hd hg hdg d.base d.has_base
    have hdis' := hs.tiles.apart hg hd (Ne.symm hdg) g.base g.has_base
    unfold Has at hdis hdis'
    omega

end

/-- A block inside a chunk of the tiling, other than the block `c`, stays calm. -/
def Spares (B : Set Chunk) (c : Chunk) (m m' : Mem) : Prop :=
  ∀ D, Spot D → (∃ g ∈ B, D.Sub g) → D.Apart c → Calm D m m'

end CobraOS.Heap
