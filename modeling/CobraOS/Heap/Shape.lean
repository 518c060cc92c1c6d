import CobraOS.Heap.Model
import CobraOS.Base.Dyadic

/-!
# The shape of the heap, and what the list surgery does to it

`Shape h B F` says that the chunks of `B` tile the heap, that the chunks of `F` are the free ones
among them, with a header that says so, and that list `k` of `h` is a chain through exactly the
chunks of `F` of order `k`.  It says nothing about the memory of the other chunks
(`Shape.of_frame`), and nothing about how they cut their part of the heap (`Shape.retile`).

`removeFreeBlock_spec`, `insertFreeBlock_spec` and `splitBlock_spec` say what each operation does to
`B` and `F` and which bytes it leaves alone; no later proof unfolds them.
-/

namespace CobraOS.Heap

open Base Chunk

/-- The 4 MiB that the allocator manages. -/
def root : Chunk := ⟨heapStart, maxBlockShift⟩

theorem root_aligned : root.Aligned := by
  show 2 ^ 22 ∣ 0x02000000
  decide

/-- `x` is an address of a chunk of `F`. -/
def InSpan (F : Set Chunk) (x : Nat) : Prop := ∃ c ∈ F, c.Has x

theorem InSpan.mono {F G : Set Chunk} (h : F ⊆ G) {x : Nat} : InSpan F x → InSpan G x
  | ⟨c, hc, hx⟩ => ⟨c, h hc, hx⟩

structure Shape (h : State) (B F : Set Chunk) : Prop where
  tiles : Tiles B root
  sub : F ⊆ B
  small : ∀ c ∈ B, minBlockShift ≤ c.order
  order : ∀ c ∈ F, blockOrder h.mem c.base = c.order
  free : ∀ c ∈ F, blockFree h.mem c.base = 1
  lists : ∀ k ≤ maxBlockShift, ∃ l, Chain (links h.mem) (ptr (h.freeLists k)) l ∧
    ∀ a, a ∈ l ↔ (⟨a, k⟩ : Chunk) ∈ F

/-- Where a chunk of the tiling lies. -/
structure InHeap (c : Chunk) : Prop where
  lo : 33554432 ≤ c.base
  hi : c.base + 2 ^ c.order ≤ 37748736
  size : 32 ≤ 2 ^ c.order
  mult : c.base % 32 = 0
  order : c.order ≤ 22

section

variable {h : State} {B F : Set Chunk}

theorem Shape.inHeap (hs : Shape h B F) {c : Chunk} (hc : c ∈ B) : InHeap c := by
  have hsub := hs.tiles.sub c hc
  have hsz : 2 ^ 5 ≤ 2 ^ c.order := Nat.pow_le_pow_right (by decide) (hs.small c hc)
  refine ⟨hsub.1, hsub.2, hsz, ?_, hsub.order_le⟩
  exact Nat.mod_eq_zero_of_dvd
    (dvd_trans (Nat.pow_dvd_pow 2 (hs.small c hc)) (hs.tiles.aligned c hc))

/-- Two chunks of the tiling are further apart than a header is long. -/
theorem Shape.sep (hs : Shape h B F) {c d : Chunk} (hc : c ∈ B) (hd : d ∈ B) (hne : c ≠ d) :
    c.base + 32 ≤ d.base ∨ d.base + 32 ≤ c.base := by
  have h1 := hs.inHeap hc
  have h2 := hs.inHeap hd
  have hb : c.base ≠ d.base := fun he => hne (hs.tiles.eq_of_base hc hd he)
  have := h1.mult
  have := h2.mult
  omega

/-- A chunk that is not free has no address in common with the free ones. -/
theorem Shape.not_inSpan (hs : Shape h B F) {u : Chunk} (hu : u ∈ B) (huF : u ∉ F) {x : Nat}
    (hx : u.Has x) :
    ¬ InSpan F x := by
  rintro ⟨d, hd, hdx⟩
  exact huF (hs.tiles.unique u hu d (hs.sub hd) x hx hdx ▸ hd)

/-- Only `next` words of chunks of `F` differ. -/
def NextOnly (F : Set Chunk) (m m' : Mem) : Prop :=
  ∀ x, (∀ d ∈ F, x < d.base ∨ d.base + 4 ≤ x) → m' x = m x

/-- What only changes `next` words of free chunks leaves every other header word alone. -/
theorem Shape.header_of_nextOnly (hs : Shape h B F) {G : Set Chunk} (hG : G ⊆ B) {m' : Mem}
    (hn : NextOnly G h.mem m') {c : Chunk} (hc : c ∈ B) :
    blockOrder m' c.base = blockOrder h.mem c.base ∧ blockFree m' c.base = blockFree h.mem c.base ∧
      blockSelf m' c.base = blockSelf h.mem c.base := by
  have hx : ∀ x, c.base + 4 ≤ x → x < c.base + 16 → m' x = h.mem x := by
    intro x h1 h2
    refine hn x (fun d hd => ?_)
    by_cases hcd : c = d
    · subst hcd
      exact Or.inr h1
    · rcases hs.sep hc (hG hd) hcd with h | h <;> omega
  exact ⟨load32_congr (fun x h1 h2 => hx x (by omega) (by omega)),
    load32_congr (fun x h1 h2 => hx x (by omega) (by omega)),
    load32_congr (fun x h1 h2 => hx x (by omega) (by omega))⟩

/-- The shape does not depend on the memory of the chunks that are not free. -/
theorem Shape.of_frame (hs : Shape h B F) {m' : Mem} (hm : ∀ x, InSpan F x → m' x = h.mem x) :
    Shape { h with mem := m' } B F := by
  have hword : ∀ c ∈ F, ∀ i, i ≤ 12 → load32 m' (c.base + i) = load32 h.mem (c.base + i) := by
    intro c hc i hi
    have hin := (hs.inHeap (hs.sub hc)).size
    exact load32_congr (fun x h1 h2 => hm x ⟨c, hc, by omega, by omega⟩)
  refine ⟨hs.tiles, hs.sub, hs.small, ?_, ?_, ?_⟩
  · intro c hc
    exact (hword c hc 4 (by omega)).trans (hs.order c hc)
  · intro c hc
    exact (hword c hc 8 (by omega)).trans (hs.free c hc)
  · intro k hk
    obtain ⟨l, hl, hmem⟩ := hs.lists k hk
    refine ⟨l, hl.congr (fun a ha => ?_), hmem⟩
    exact congrArg ptr (hword ⟨a, k⟩ ((hmem a).mp ha) 0 (by omega))

theorem Shape.retile (hs : Shape h B F) {B' : Set Chunk} (ht : Tiles B' root) (hF : F ⊆ B')
    (hsmall : ∀ c ∈ B', minBlockShift ≤ c.order) : Shape h B' F :=
  ⟨ht, hF, hsmall, hs.order, hs.free, hs.lists⟩

/-! ### The lists -/

theorem ptr_eq_none {a : Nat} : ptr a = none ↔ a = 0 := by
  unfold ptr
  split <;> simp_all

theorem ptr_eq_some {a b : Nat} : ptr a = some b ↔ a = b ∧ a ≠ 0 := by
  unfold ptr
  split
  · simp_all
  · simp_all

/-- The head of a list is null, or the base of a free chunk of that order. -/
theorem Shape.head (hs : Shape h B F) {k : Nat} (hk : k ≤ maxBlockShift) (hne : h.freeLists k ≠ 0) :
    (⟨h.freeLists k, k⟩ : Chunk) ∈ F := by
  obtain ⟨l, hl, hmem⟩ := hs.lists k hk
  have hhead := hl.head_eq
  rw [ptr_eq_some.mpr ⟨rfl, hne⟩] at hhead
  exact (hmem _).mp (List.mem_of_head? hhead.symm)

theorem Shape.head_lt (hs : Shape h B F) {k : Nat} (hk : k ≤ maxBlockShift) :
    h.freeLists k < 4294967296 := by
  by_cases hne : h.freeLists k = 0
  · omega
  · have hin := hs.inHeap (hs.sub (hs.head hk hne))
    have h1 : h.freeLists k + 2 ^ k ≤ 37748736 := hin.hi
    have h2 := Nat.two_pow_pos k
    omega

/-- A list is shorter than the fuel of a walk: its blocks have different multiples of 32 as
bases. -/
theorem Shape.list_length (hs : Shape h B F) {k : Nat} {l : List Nat}
    (hl : Chain (links h.mem) (ptr (h.freeLists k)) l) (hmem : ∀ a, a ∈ l ↔ (⟨a, k⟩ : Chunk) ∈ F) :
    l.length < listFuel := by
  have hsub : l.toFinset.image (fun a => (a - 33554432) / 32) ⊆ Finset.range 131072 := by
    intro i hi
    obtain ⟨a, ha, rfl⟩ := Finset.mem_image.mp hi
    have hin := hs.inHeap (hs.sub ((hmem a).mp (List.mem_toFinset.mp ha)))
    have h1 : a + 2 ^ k ≤ 37748736 := hin.hi
    have h2 : 32 ≤ 2 ^ k := hin.size
    exact Finset.mem_range.mpr (by omega)
  have hinj : Set.InjOn (fun a => (a - 33554432) / 32) (l.toFinset : Set Nat) := by
    intro a ha b hb hab
    have h1 := hs.inHeap (hs.sub ((hmem a).mp (by simpa using ha)))
    have h2 := hs.inHeap (hs.sub ((hmem b).mp (by simpa using hb)))
    have h3 : 33554432 ≤ a := h1.lo
    have h4 : 33554432 ≤ b := h2.lo
    have h5 : a % 32 = 0 := h1.mult
    have h6 : b % 32 = 0 := h2.mult
    have h7 : (a - 33554432) / 32 = (b - 33554432) / 32 := hab
    omega
  have hcard := Finset.card_le_card hsub
  rw [Finset.card_image_of_injOn hinj, List.toFinset_card_of_nodup hl.nodup,
    Finset.card_range] at hcard
  unfold listFuel
  omega

theorem blockNext_lt (m : Mem) (b : Nat) : blockNext m b < 4294967296 := load32_lt m b

theorem links_setNext_same (m : Mem) (b : Nat) {w : Nat} (hw : w < 4294967296) :
    links (setNext m b w) b = ptr w := by
  unfold links blockNext setNext
  rw [load32_store32_of_lt m b hw]

theorem links_setNext_ne (m : Mem) {b c : Nat} (w : Nat) (h : b + 4 ≤ c ∨ c + 4 ≤ b) :
    links (setNext m b w) c = links m c := by
  unfold links blockNext setNext
  rw [load32_store32_of_ne m w h]

theorem nextOnly_setNext {m : Mem} {c : Chunk} (hc : c ∈ F) (w : Nat) :
    NextOnly F m (setNext m c.base w) :=
  fun _ hx => store32_ne m w (hx c hc)

theorem NextOnly.trans {m m' m'' : Mem} (h : NextOnly F m m') (g : NextOnly F m' m'') :
    NextOnly F m m'' := fun x hx => (g x hx).trans (h x hx)

theorem NextOnly.frame (hs : Shape h B F) {m m' : Mem} (hn : NextOnly F m m') {x : Nat}
    (hx : ¬ InSpan F x) : m' x = m x := by
  refine hn x (fun d hd => ?_)
  have hin := (hs.inHeap (hs.sub hd)).size
  by_contra hcon
  exact hx ⟨d, hd, by omega, by omega⟩

theorem Shape.next_apart (hs : Shape h B F) {c d : Chunk} (hc : c ∈ F) (hd : d ∈ F)
    (hne : c.base ≠ d.base) :
    c.base + 4 ≤ d.base ∨ d.base + 4 ≤ c.base := by
  have := hs.sep (hs.sub hc) (hs.sub hd) (fun he => hne (congrArg Chunk.base he))
  omega

theorem Shape.base_ne (hs : Shape h B F) {c d : Chunk} (hc : c ∈ F) (hd : d ∈ F)
    (hne : c.order ≠ d.order) :
    c.base ≠ d.base :=
  fun he => hne (congrArg Chunk.order (hs.tiles.eq_of_base (hs.sub hc) (hs.sub hd) he))

/-! ### Removing a block from its list -/

/-- What `remove_free_block` leaves when it has found the block at `b` on list `k`, behind the cell
`prev`. -/
def unlinked (h : State) (k b : Nat) (prev : Option Nat) : State :=
  let h1 := setIndirect h k prev (blockNext h.mem b)
  { h1 with mem := setNext h1.mem b 0 }

section

variable {c : Chunk} {prev : Option Nat}

theorem unlinked_nextOnly (hc : c ∈ F) (hprev : ∀ d ∈ prev, (⟨d, c.order⟩ : Chunk) ∈ F) :
    NextOnly F h.mem (unlinked h c.order c.base prev).mem := by
  cases prev with
  | none => exact nextOnly_setNext hc 0
  | some d =>
    exact (nextOnly_setNext (c := ⟨d, c.order⟩) (hprev d rfl) _).trans (nextOnly_setNext hc 0)

theorem unlinked_lists_ne (h : State) (b : Nat) {k j : Nat} (hj : j ≠ k) :
    (unlinked h k b prev).freeLists j = h.freeLists j := by
  cases prev with
  | none => exact Function.update_of_ne hj _ _
  | some d => rfl

/-- The head of the list is the cell behind the block when the block was the first one. -/
theorem unlinked_head (h : State) (k b : Nat) (pre : List Nat) :
    (if pre = [] then links h.mem b else ptr (h.freeLists k)) =
      ptr ((unlinked h k b pre.getLast?).freeLists k) := by
  cases hg : pre.getLast? with
  | none =>
    rw [if_pos (List.getLast?_eq_none_iff.mp hg)]
    show _ = ptr (Function.update h.freeLists k _ k)
    rw [Function.update_self]
    rfl
  | some d =>
    rw [if_neg (by rintro rfl; simp at hg)]
    rfl

/-- A free chunk that is neither the block nor the cell before it keeps its link. -/
theorem links_unlinked_ne (hs : Shape h B F) (hc : c ∈ F)
    (hprev : ∀ d ∈ prev, (⟨d, c.order⟩ : Chunk) ∈ F) {d : Chunk} (hd : d ∈ F)
    (hne : d.base ≠ c.base) (hnot : d.base ∉ prev) :
    links (unlinked h c.order c.base prev).mem d.base = links h.mem d.base := by
  refine (links_setNext_ne _ 0 (hs.next_apart hc hd hne.symm)).trans ?_
  cases prev with
  | none => rfl
  | some e =>
    refine links_setNext_ne h.mem _ (hs.next_apart (hprev e rfl) hd ?_)
    rintro rfl
    exact hnot rfl

theorem links_unlinked_prev (hs : Shape h B F) (hc : c ∈ F) {d : Nat}
    (hd : (⟨d, c.order⟩ : Chunk) ∈ F) (hne : d ≠ c.base) :
    links (unlinked h c.order c.base (some d)).mem d = links h.mem c.base := by
  refine (links_setNext_ne _ 0 (hs.next_apart hc hd hne.symm)).trans ?_
  exact links_setNext_same h.mem d (blockNext_lt _ _)

theorem unlinked_list (hs : Shape h B F) (hc : c ∈ F) {pre post : List Nat}
    (hl : Chain (links h.mem) (ptr (h.freeLists c.order)) (pre ++ c.base :: post))
    (hmem : ∀ a ∈ pre ++ c.base :: post, (⟨a, c.order⟩ : Chunk) ∈ F) :
    Chain (links (unlinked h c.order c.base pre.getLast?).mem)
      (ptr ((unlinked h c.order c.base pre.getLast?).freeLists c.order)) (pre ++ post) := by
  have hnot : c.base ∉ pre ++ post := (List.nodup_cons.mp (List.nodup_middle.mp hl.nodup)).1
  have hpre : ∀ a ∈ pre, (⟨a, c.order⟩ : Chunk) ∈ F :=
    fun a ha => hmem a (List.mem_append_left _ ha)
  rw [← unlinked_head]
  refine hl.remove _ (fun d hd => ?_) (fun a ha hlast => ?_)
  · have hdp := List.mem_of_getLast? hd
    rw [hd]
    exact links_unlinked_prev hs hc (hpre d hdp)
      (fun he => hnot (List.mem_append_left _ (he ▸ hdp)))
  · have haF : (⟨a, c.order⟩ : Chunk) ∈ F :=
      hmem a (by rcases List.mem_append.mp ha with ha | ha <;> simp [ha])
    exact links_unlinked_ne hs hc (fun d hd => hpre d (List.mem_of_getLast? hd)) haF
      (fun he => hnot (he ▸ ha)) hlast

theorem unlinked_list_ne (hs : Shape h B F) (hc : c ∈ F)
    (hprev : ∀ d ∈ prev, (⟨d, c.order⟩ : Chunk) ∈ F) {k : Nat} (hk : k ≠ c.order) {l : List Nat}
    (hl : Chain (links h.mem) (ptr (h.freeLists k)) l) (hmem : ∀ a ∈ l, (⟨a, k⟩ : Chunk) ∈ F) :
    Chain (links (unlinked h c.order c.base prev).mem)
      (ptr ((unlinked h c.order c.base prev).freeLists k)) l := by
  rw [unlinked_lists_ne h c.base hk]
  refine hl.congr (fun a ha => ?_)
  exact links_unlinked_ne hs hc hprev (hmem a ha) (hs.base_ne (hmem a ha) hc hk)
    (fun hp => hs.base_ne (hmem a ha) (hprev a hp) hk rfl)

/-- **`remove_free_block` on a free chunk** finds it, takes it off the list of its order and changes
only `next` words. -/
theorem removeFreeBlock_spec (hs : Shape h B F) {c : Chunk} (hc : c ∈ F) :
    ∃ h', removeFreeBlock h c.base = .ok h' ∧ Shape h' B (F \ {c}) ∧
      NextOnly F h.mem h'.mem ∧ ∀ k, k ≠ c.order → h'.freeLists k = h.freeLists k := by
  have hin := hs.inHeap (hs.sub hc)
  obtain ⟨l, hl, hmem⟩ := hs.lists c.order hin.order
  obtain ⟨pre, post, rfl, hloc⟩ := locate_mem none hl ((hmem c.base).mpr hc)
    (hs.list_length hl hmem)
  rw [Option.or_none] at hloc
  have hF : ∀ a ∈ pre ++ c.base :: post, (⟨a, c.order⟩ : Chunk) ∈ F := fun a ha => (hmem a).mp ha
  have hprev : ∀ d ∈ pre.getLast?, (⟨d, c.order⟩ : Chunk) ∈ F := fun d hd =>
    hF d (List.mem_append_left _ (List.mem_of_getLast? hd))
  have hrun : removeFreeBlock h c.base = .ok (unlinked h c.order c.base pre.getLast?) := by
    unfold removeFreeBlock
    simp only [hs.order c hc, hloc]
    exact if_neg (by have := hin.order; unfold maxBlockShift; omega)
  have hnext := unlinked_nextOnly (h := h) hc hprev
  refine ⟨_, hrun, ⟨hs.tiles, fun d hd => hs.sub hd.1, hs.small, ?_, ?_, ?_⟩, hnext,
    fun k hk => unlinked_lists_ne h c.base hk⟩
  · intro d hd
    rw [(hs.header_of_nextOnly hs.sub hnext (hs.sub hd.1)).1]
    exact hs.order d hd.1
  · intro d hd
    rw [(hs.header_of_nextOnly hs.sub hnext (hs.sub hd.1)).2.1]
    exact hs.free d hd.1
  · intro k hk
    by_cases hkc : k = c.order
    · subst hkc
      refine ⟨pre ++ post, unlinked_list hs hc hl hF, fun a => ?_⟩
      have hcpre := (List.nodup_cons.mp (List.nodup_middle.mp hl.nodup)).1
      have hiff := hmem a
      rw [List.perm_middle.mem_iff, List.mem_cons] at hiff
      by_cases hac : a = c.base
      · subst hac
        exact iff_of_false hcpre (fun h => h.2 rfl)
      · have hne : (⟨a, c.order⟩ : Chunk) ≠ c := fun he => hac (congrArg Chunk.base he)
        rw [or_iff_right hac] at hiff
        exact hiff.trans ⟨fun h => ⟨h, hne⟩, fun h => h.1⟩
    · obtain ⟨l', hl', hmem'⟩ := hs.lists k hk
      refine ⟨l', unlinked_list_ne hs hc hprev hkc hl' (fun a => (hmem' a).mp), fun a => ?_⟩
      have hne : (⟨a, k⟩ : Chunk) ≠ c := fun he => hkc (congrArg Chunk.order he)
      exact (hmem' a).trans ⟨fun h => ⟨h, hne⟩, fun h => h.1⟩

end

/-! ### Putting a block on the list of its order -/

/-- **`insert_free_block`** on a chunk of the tiling whose header calls it free. -/
theorem insertFreeBlock_spec (hs : Shape h B F) {c : Chunk} (hc : c ∈ B) (hcF : c ∉ F)
    (ho : blockOrder h.mem c.base = c.order) (hf : blockFree h.mem c.base = 1) :
    ∃ h', insertFreeBlock h c.base = .ok h' ∧ Shape h' B (insert c F) ∧
      h'.mem = setNext h.mem c.base (h.freeLists c.order) ∧
      h'.freeLists = Function.update h.freeLists c.order c.base := by
  have hin := hs.inHeap hc
  let h1 : State := { h with
    mem := setNext h.mem c.base (h.freeLists c.order)
    freeLists := Function.update h.freeLists c.order c.base }
  have hrun : insertFreeBlock h c.base = .ok h1 := by
    unfold insertFreeBlock
    simp only [ho]
    exact if_neg (by have := hin.order; unfold maxBlockShift; omega)
  have hsub : insert c F ⊆ B := Set.insert_subset hc hs.sub
  have hnext : NextOnly (insert c F) h.mem h1.mem := nextOnly_setNext (Set.mem_insert c F) _
  have hkeep : ∀ d ∈ F, links h1.mem d.base = links h.mem d.base := by
    intro d hd
    refine links_setNext_ne h.mem _ ?_
    have := hs.sep hc (hs.sub hd) (by rintro rfl; exact hcF hd)
    omega
  refine ⟨h1, hrun, ⟨hs.tiles, hsub, hs.small, ?_, ?_, ?_⟩, rfl, rfl⟩
  · intro d hd
    rw [(hs.header_of_nextOnly hsub hnext (hsub hd)).1]
    rcases hd with rfl | hd
    · exact ho
    · exact hs.order d hd
  · intro d hd
    rw [(hs.header_of_nextOnly hsub hnext (hsub hd)).2.1]
    rcases hd with rfl | hd
    · exact hf
    · exact hs.free d hd
  · intro k hk
    obtain ⟨l, hl, hmem⟩ := hs.lists k hk
    have hl' : Chain (links h1.mem) (ptr (h.freeLists k)) l :=
      hl.congr (fun a ha => hkeep ⟨a, k⟩ ((hmem a).mp ha))
    by_cases hkc : k = c.order
    · subst hkc
      refine ⟨c.base :: l, ⟨?_, ?_⟩, ?_⟩
      · show ptr (Function.update h.freeLists c.order c.base c.order) = _
        rw [Function.update_self]
        exact ptr_eq_some.mpr ⟨rfl, by have := hin.lo; omega⟩
      · show Chain _ (links (setNext h.mem c.base _) c.base) l
        rw [links_setNext_same h.mem c.base (hs.head_lt hk)]
        exact hl'
      · intro a
        rw [List.mem_cons, hmem a, Set.mem_insert_iff]
        refine or_congr ⟨?_, ?_⟩ Iff.rfl
        · rintro rfl
          rfl
        · exact fun he => congrArg Chunk.base he
    · refine ⟨l, ?_, ?_⟩
      · show Chain _ (ptr (Function.update h.freeLists c.order c.base k)) l
        rw [Function.update_of_ne hkc]
        exact hl'
      · intro a
        have : (⟨a, k⟩ : Chunk) ≠ c := fun he => hkc (congrArg Chunk.order he)
        rw [hmem a, Set.mem_insert_iff]
        simp [this]

/-! ### Header words -/

theorem header_writes (m : Mem) (b w : Nat) (hw : w < 4294967296) :
    blockOrder (setOrder m b w) b = w ∧ blockFree (setFree m b w) b = w ∧
      blockSelf (setSelf m b w) b = w ∧
      blockOrder (setFree m b w) b = blockOrder m b ∧
        blockOrder (setSelf m b w) b = blockOrder m b ∧
      blockFree (setSelf m b w) b = blockFree m b := by
  unfold blockOrder blockFree blockSelf setOrder setFree setSelf
  refine ⟨load32_store32_of_lt _ _ hw, load32_store32_of_lt _ _ hw, load32_store32_of_lt _ _ hw,
    load32_store32_of_ne _ _ (by omega), load32_store32_of_ne _ _ (by omega),
    load32_store32_of_ne _ _ (by omega)⟩

theorem header_frame (m : Mem) (b w : Nat) {x : Nat} (hx : x < b ∨ b + 16 ≤ x) :
    setNext m b w x = m x ∧ setOrder m b w x = m x ∧ setFree m b w x = m x ∧
      setSelf m b w x = m x :=
  ⟨store32_ne m w (by omega), store32_ne m w (by omega), store32_ne m w (by omega),
    store32_ne m w (by omega)⟩

theorem header_apart (m : Mem) {b d : Nat} (w : Nat) (h : b + 16 ≤ d ∨ d + 16 ≤ b) :
    (blockOrder (setOrder m b w) d = blockOrder m d ∧
      blockFree (setOrder m b w) d = blockFree m d) ∧
    (blockOrder (setFree m b w) d = blockOrder m d ∧ blockFree (setFree m b w) d = blockFree m d) ∧
    (blockOrder (setSelf m b w) d = blockOrder m d ∧ blockFree (setSelf m b w) d = blockFree m d) ∧
    (blockOrder (setNext m b w) d = blockOrder m d ∧
      blockFree (setNext m b w) d = blockFree m d) := by
  unfold blockOrder blockFree setOrder setFree setSelf setNext
  refine ⟨⟨?_, ?_⟩, ⟨?_, ?_⟩, ⟨?_, ?_⟩, ?_, ?_⟩ <;> exact load32_store32_of_ne m w (by omega)

theorem setFree_setOrder (m : Mem) (b : Nat) {k : Nat} (hk : k < 4294967296) :
    blockOrder (setFree (setOrder m b k) b 1) b = k ∧
      blockFree (setFree (setOrder m b k) b 1) b = 1 := by
  have h1 := header_writes m b k hk
  have h2 := header_writes (setOrder m b k) b 1 (by decide)
  exact ⟨h2.2.2.2.1.trans h1.1, h2.2.1⟩

theorem mark_frame (m : Mem) (b k : Nat) {x : Nat} (hx : x < b ∨ b + 16 ≤ x) :
    setFree (setOrder m b k) b 1 x = m x :=
  (header_frame _ _ _ hx).2.2.1.trans (header_frame _ _ _ hx).2.1

theorem mark_apart (m : Mem) {b d : Nat} (k : Nat) (h : b + 16 ≤ d ∨ d + 16 ≤ b) :
    blockOrder (setSelf (setFree (setOrder m b k) b 1) b 0) d = blockOrder m d ∧
      blockFree (setSelf (setFree (setOrder m b k) b 1) b 0) d = blockFree m d := by
  have h1 := (header_apart m k h).1
  have h2 := (header_apart (setOrder m b k) 1 h).2.1
  have h3 := (header_apart (setFree (setOrder m b k) b 1) 0 h).2.2.1
  exact ⟨h3.1.trans (h2.1.trans h1.1), h3.2.trans (h2.2.trans h1.2)⟩

theorem buddyOf_eq {m : Mem} {c : Chunk} (ho : blockOrder m c.base = c.order) :
    buddyOf m c.base = c.buddy.base := by
  unfold buddyOf
  rw [ho, Nat.shiftLeft_eq, Nat.one_mul]
  rfl

/-! ### Splitting the block at the head of a list -/

/-- The headers of the two halves of `c`, linked to `v` and `w`. -/
def writeHalves (m : Mem) (c : Chunk) (v w : Nat) : Mem :=
  let m := setFree (setOrder m c.lo.base (c.order - 1)) c.lo.base 1
  let m := setSelf (setFree (setOrder m c.hi.base (c.order - 1)) c.hi.base 1) c.hi.base 0
  setNext (setNext m c.lo.base v) c.hi.base w

/-- The headers of the halves of `c`, before they are linked. -/
def markHalves (m : Mem) (c : Chunk) : Mem :=
  let m := setFree (setOrder m c.lo.base (c.order - 1)) c.lo.base 1
  setSelf (setFree (setOrder m c.hi.base (c.order - 1)) c.hi.base 1) c.hi.base 0

section

variable {c : Chunk}

theorem half_ge (ho : minBlockShift < c.order) : 32 ≤ 2 ^ (c.order - 1) := by
  have h : 2 ^ 5 ≤ 2 ^ (c.order - 1) :=
    Nat.pow_le_pow_right (by decide) (by unfold minBlockShift at ho; omega)
  omega

theorem halves_apart (ho : minBlockShift < c.order) :
    c.hi.base + 16 ≤ c.lo.base ∨ c.lo.base + 16 ≤ c.hi.base := by
  have hhalf := half_ge ho
  show c.base + 2 ^ (c.order - 1) + 16 ≤ c.base ∨ c.base + 16 ≤ c.base + 2 ^ (c.order - 1)
  omega

theorem outside_halves (ho : minBlockShift < c.order) {x : Nat} (hx : ¬ c.Has x) :
    (x < c.lo.base ∨ c.lo.base + 16 ≤ x) ∧ (x < c.hi.base ∨ c.hi.base + 16 ≤ x) := by
  have hhalf := half_ge ho
  have hsize := half_size (c := c) (by omega)
  unfold Has at hx
  show (x < c.base ∨ c.base + 16 ≤ x) ∧
    (x < c.base + 2 ^ (c.order - 1) ∨ c.base + 2 ^ (c.order - 1) + 16 ≤ x)
  omega

/-- The buddy that `split_block` computes for the lower half is the upper half. -/
theorem buddyOf_lo (m : Mem) (hal : c.Aligned) (ho : minBlockShift < c.order) (hlt : c.order ≤ 22) :
    buddyOf (setFree (setOrder m c.base (c.order - 1)) c.base 1) c.base = c.hi.base := by
  have hmark := setFree_setOrder m c.lo.base (k := c.order - 1) (by omega)
  have h := buddyOf_eq hmark.1
  rwa [lo_buddy hal (by omega)] at h

theorem markHalves_lo (m : Mem) (ho : minBlockShift < c.order) (hlt : c.order ≤ 22) :
    blockOrder (markHalves m c) c.lo.base = c.order - 1 ∧
      blockFree (markHalves m c) c.lo.base = 1 := by
  have hmark := setFree_setOrder m c.lo.base (k := c.order - 1) (by omega)
  have hkept := mark_apart (setFree (setOrder m c.lo.base (c.order - 1)) c.lo.base 1) (c.order - 1)
    (halves_apart ho)
  exact ⟨hkept.1.trans hmark.1, hkept.2.trans hmark.2⟩

theorem markHalves_hi (m : Mem) (hlt : c.order ≤ 22) :
    blockOrder (markHalves m c) c.hi.base = c.order - 1 ∧
      blockFree (markHalves m c) c.hi.base = 1 := by
  let m' := setFree (setOrder m c.lo.base (c.order - 1)) c.lo.base 1
  have hmark := setFree_setOrder m' c.hi.base (k := c.order - 1) (by omega)
  have hself := header_writes (setFree (setOrder m' c.hi.base (c.order - 1)) c.hi.base 1) c.hi.base
    0 (by decide)
  exact ⟨hself.2.2.2.2.1.trans hmark.1, hself.2.2.2.2.2.trans hmark.2⟩

theorem markHalves_frame (m : Mem) (ho : minBlockShift < c.order) {x : Nat} (hx : ¬ c.Has x) :
    markHalves m c x = m x := by
  obtain ⟨hlo, hhi⟩ := outside_halves ho hx
  exact (header_frame _ _ _ hhi).2.2.2.trans ((mark_frame _ _ _ hhi).trans (mark_frame _ _ _ hlo))

theorem Shape.halve (hs : Shape h B (F \ {c})) (hc : c ∈ B) (ho : minBlockShift < c.order) :
    Shape { h with mem := markHalves h.mem c } (insert c.hi (insert c.lo (B \ {c}))) (F \ {c}) := by
  have hin : F \ {c} ⊆ insert c.hi (insert c.lo (B \ {c})) := fun d hd =>
    Set.mem_insert_of_mem _ (Set.mem_insert_of_mem _ ⟨hs.sub hd, hd.2⟩)
  have hsmall : ∀ d ∈ insert c.hi (insert c.lo (B \ {c})), minBlockShift ≤ d.order := by
    rintro d (rfl | rfl | hd)
    · exact Nat.le_sub_one_of_lt ho
    · exact Nat.le_sub_one_of_lt ho
    · exact hs.small d hd.1
  refine (hs.retile (hs.tiles.split hc (by omega)) hin hsmall).of_frame ?_
  rintro x ⟨d, hd, hdx⟩
  exact markHalves_frame h.mem ho (fun hcx => hd.2 (hs.tiles.unique d (hs.sub hd) c hc x hdx hcx))

theorem Shape.half_not_free (hs : Shape h B F) (hc : c ∈ B) {d : Chunk} (hd : d.Sub c)
    (hne : d.order ≠ c.order) :
    d ∉ F := fun hdF =>
  hne (congrArg Chunk.order
    (hs.tiles.unique d (hs.sub hdF) c hc d.base d.has_base (hd.has d.has_base)))

/-- **`split_block`** halves the first block of list `o`; the upper half is then the first block of
list `o - 1`. -/
theorem splitBlock_spec (hs : Shape h B F) {c : Chunk} (hc : c ∈ F)
    (hhead : h.freeLists c.order = c.base) (ho : minBlockShift < c.order) :
    ∃ h', splitBlock h c.order = .ok h' ∧
      Shape h' (insert c.hi (insert c.lo (B \ {c}))) (insert c.hi (insert c.lo (F \ {c}))) ∧
      (∀ x, ¬ InSpan F x → h'.mem x = h.mem x) ∧ h'.freeLists (c.order - 1) = c.hi.base ∧
      ∃ m v w, NextOnly F h.mem m ∧ h'.mem = writeHalves m c v w := by
  have hcB := hs.sub hc
  have hlt := (hs.inHeap hcB).order
  obtain ⟨h1, hrun1, hs1, hn1, -⟩ := removeFreeBlock_spec hs hc
  -- The lower half goes onto its list.
  have hs2 := hs1.halve hcB ho
  have hlo := markHalves_lo h1.mem ho hlt
  obtain ⟨h3, hrun3, hs3, hmem3, hfl3⟩ := insertFreeBlock_spec hs2 (c := c.lo)
    (Set.mem_insert_of_mem _ (Set.mem_insert _ _))
    (fun hm => hs.half_not_free hcB (lo_sub c) (show c.order - 1 ≠ c.order by omega) hm.1)
      hlo.1 hlo.2
  -- The upper half follows, and its header is still the one that was written.
  have hhi := markHalves_hi h1.mem hlt
  have hkept :=
    (header_apart (markHalves h1.mem c) (h1.freeLists (c.order - 1)) (halves_apart ho).symm).2.2.2
  obtain ⟨h4, hrun4, hs4, hmem4, hfl4⟩ := insertFreeBlock_spec hs3 (c := c.hi) (Set.mem_insert _ _)
    (by
      rintro (he | hm)
      · exact lo_ne_hi c he.symm
      · exact hs.half_not_free hcB (hi_sub (by omega)) (show c.order - 1 ≠ c.order by omega) hm.1)
    (by rw [hmem3]; exact hkept.1.trans hhi.1) (by rw [hmem3]; exact hkept.2.trans hhi.2)
  refine ⟨h4, ?_, hs4, ?_, ?_, h1.mem, h1.freeLists (c.order - 1),
    h3.freeLists (c.order - 1), hn1, ?_⟩
  · unfold splitBlock
    simp only [hhead, hrun1, bind, Except.bind, buddyOf_lo h1.mem (hs.tiles.aligned c hcB) ho hlt]
    exact (congrArg (fun r => Except.bind r (fun h => insertFreeBlock h c.hi.base))
      hrun3).trans hrun4
  · intro x hx
    have hcx : ¬ c.Has x := fun h => hx ⟨c, hc, h⟩
    obtain ⟨hout, hout'⟩ := outside_halves ho hcx
    rw [hmem4, (header_frame _ _ _ hout').1, hmem3, (header_frame _ _ _ hout).1]
    exact (markHalves_frame h1.mem ho hcx).trans (hn1.frame hs hx)
  · rw [hfl4]
    exact Function.update_self _ _ _
  · rw [hmem4, hmem3]
    rfl

end

end
end CobraOS.Heap
