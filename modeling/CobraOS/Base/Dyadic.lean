import Mathlib.Tactic
import Mathlib.Data.Set.Basic
import Mathlib.Data.Nat.Bitwise

/-!
# Dyadic chunks and tilings

A chunk of order `k` is an interval of `2 ^ k` addresses; it is aligned when its base is a multiple
of `2 ^ k`.  Two aligned chunks are nested or disjoint (`Chunk.nested`), and every aligned chunk
has a buddy, the other half of its parent, whose base differs from its own in the bit of its size
(`Chunk.buddy_base`).

`Tiles B root` says that the aligned chunks of `B` cut the aligned chunk `root` into pieces.

* `Tiles.split`, `Tiles.merge`: a tiling stays one when a chunk is halved, or when a chunk and its
  buddy are joined.
* `Tiles.exists_at_buddy`: in a tiling, a chunk of order at most `c`'s starts at the base of the
  buddy of `c`.  This is what lets a buddy allocator read a header at an address it computed.
* `Tiles.free_eq_maximal`: if no two chunks of `F` are buddies, then `F` is exactly the set of
  maximal chunks that meet no chunk of the rest of the tiling.
-/

namespace Base

/-- The addresses from `base` to `base + 2 ^ order`. -/
@[ext] structure Chunk where
  base : Nat
  order : Nat
  deriving DecidableEq, Repr

namespace Chunk

/-- `x` is an address of `c`. -/
def Has (c : Chunk) (x : Nat) : Prop := c.base ≤ x ∧ x < c.base + 2 ^ c.order

/-- The base is a multiple of the size. -/
def Aligned (c : Chunk) : Prop := 2 ^ c.order ∣ c.base

/-- Every address of `c` is one of `d`. -/
def Sub (c d : Chunk) : Prop := d.base ≤ c.base ∧ c.base + 2 ^ c.order ≤ d.base + 2 ^ d.order

/-- No address is in both. -/
def Apart (c d : Chunk) : Prop := ∀ x, c.Has x → ¬ d.Has x

/-- The chunk of twice the size that contains `c`. -/
def parent (c : Chunk) : Chunk := ⟨c.base / 2 ^ (c.order + 1) * 2 ^ (c.order + 1), c.order + 1⟩

/-- The other half of the parent. -/
def buddy (c : Chunk) : Chunk := ⟨c.base ^^^ 2 ^ c.order, c.order⟩

/-- The lower half. -/
def lo (c : Chunk) : Chunk := ⟨c.base, c.order - 1⟩

/-- The upper half. -/
def hi (c : Chunk) : Chunk := ⟨c.base + 2 ^ (c.order - 1), c.order - 1⟩

theorem size_pos (c : Chunk) : 0 < 2 ^ c.order := Nat.two_pow_pos _

theorem has_base (c : Chunk) : c.Has c.base := ⟨le_rfl, by have := c.size_pos; omega⟩

theorem sub_refl (c : Chunk) : c.Sub c := ⟨le_rfl, le_rfl⟩

theorem Sub.trans {c d e : Chunk} (h : c.Sub d) (g : d.Sub e) : c.Sub e :=
  ⟨le_trans g.1 h.1, le_trans h.2 g.2⟩

theorem Sub.has {c d : Chunk} (h : c.Sub d) {x : Nat} (hx : c.Has x) : d.Has x :=
  ⟨le_trans h.1 hx.1, lt_of_lt_of_le hx.2 h.2⟩

theorem Sub.order_le {c d : Chunk} (h : c.Sub d) : c.order ≤ d.order := by
  by_contra hlt
  have hp : 2 ^ d.order < 2 ^ c.order := Nat.pow_lt_pow_right (by decide) (by omega)
  have := h.1
  have := h.2
  omega

/-- **Aligned chunks are nested or disjoint.** -/
theorem nested {c d : Chunk} (hc : c.Aligned) (hd : d.Aligned) (hle : c.order ≤ d.order) {x : Nat}
    (hcx : c.Has x) (hdx : d.Has x) : c.Sub d := by
  obtain ⟨i, hi⟩ := hc
  obtain ⟨j, hj⟩ := hd
  obtain ⟨m, hm⟩ := Nat.pow_dvd_pow 2 hle
  obtain ⟨h1, h2⟩ := hcx
  obtain ⟨h3, h4⟩ := hdx
  have hp := c.size_pos
  rw [hi] at h1 h2
  rw [hj, hm] at h3 h4
  unfold Sub
  rw [hi, hj, hm]
  generalize 2 ^ c.order = s at *
  have e1 : s * m * j = s * (m * j) := Nat.mul_assoc _ _ _
  have h5 : m * j < i + 1 := by
    apply Nat.lt_of_mul_lt_mul_left (a := s)
    rw [Nat.mul_succ, ← e1]
    omega
  have h6 : i < m * j + m := by
    apply Nat.lt_of_mul_lt_mul_left (a := s)
    rw [Nat.mul_add, ← e1]
    omega
  constructor
  · rw [e1]
    exact Nat.mul_le_mul_left s (by omega)
  · have := Nat.mul_le_mul_left s (show i + 1 ≤ m * j + m by omega)
    rw [Nat.mul_add, Nat.mul_add, Nat.mul_one, ← e1] at this
    exact this

theorem eq_of_sub_of_order {c d : Chunk} (h : c.Sub d) (ho : c.order = d.order) : c = d := by
  have h1 := h.1
  have h2 := h.2
  rw [ho] at h2
  exact Chunk.ext (by omega) ho

theorem buddy_base {c : Chunk} (h : c.Aligned) : c.buddy.base =
    if c.base / 2 ^ c.order % 2 = 0 then c.base + 2 ^ c.order else c.base - 2 ^ c.order := by
  obtain ⟨q, hq⟩ := h
  have hp := c.size_pos
  have hb : c.base ^^^ 2 ^ c.order = (q ^^^ 1) * 2 ^ c.order := by
    rw [← Nat.shiftLeft_eq, Nat.shiftLeft_xor_distrib, Nat.shiftLeft_eq, Nat.shiftLeft_eq, hq,
      Nat.mul_comm, Nat.one_mul]
  have hdiv : c.base / 2 ^ c.order = q := by rw [hq, Nat.mul_div_cancel_left _ hp]
  have hx : q ^^^ 1 = if q % 2 = 0 then q + 1 else q - 1 := by
    split
    · rename_i he
      exact Nat.xor_one_of_even (Nat.even_iff.mpr he)
    · rename_i he
      exact Nat.xor_one_of_odd (Nat.odd_iff.mpr (by omega))
  show c.base ^^^ 2 ^ c.order = _
  rw [hb, hdiv, hx]
  split
  · rw [hq, Nat.add_mul, Nat.one_mul, Nat.mul_comm]
  · rw [hq, Nat.sub_mul, Nat.one_mul, Nat.mul_comm]

theorem buddy_order (c : Chunk) : c.buddy.order = c.order := rfl

theorem buddy_buddy (c : Chunk) : c.buddy.buddy = c := by
  refine Chunk.ext ?_ rfl
  show c.base ^^^ 2 ^ c.order ^^^ 2 ^ c.order = c.base
  rw [Nat.xor_assoc, Nat.xor_self, Nat.xor_zero]

theorem buddy_ne (c : Chunk) : c.buddy ≠ c := by
  intro h
  have h1 : c.base ^^^ 2 ^ c.order = c.base := congrArg Chunk.base h
  have h2 : c.base ^^^ (c.base ^^^ 2 ^ c.order) = c.base ^^^ c.base := by rw [h1]
  rw [← Nat.xor_assoc, Nat.xor_self, Nat.zero_xor] at h2
  have := c.size_pos
  omega

theorem buddy_aligned {c : Chunk} (h : c.Aligned) : c.buddy.Aligned := by
  show 2 ^ c.order ∣ c.buddy.base
  rw [buddy_base h]
  split
  · exact Nat.dvd_add h (dvd_refl _)
  · exact Nat.dvd_sub h (dvd_refl _)

theorem parent_aligned (c : Chunk) : c.parent.Aligned := Dvd.intro_left _ rfl

/-- The parent starts where the lower of the two halves does, and the upper half follows it. -/
theorem parent_base {c : Chunk} (h : c.Aligned) :
    (c.parent.base = c.base ∧ c.buddy.base = c.base + 2 ^ c.order) ∨
      (c.parent.base = c.buddy.base ∧ c.base = c.buddy.base + 2 ^ c.order) := by
  have hb := buddy_base h
  have hp : c.parent.base = c.base / 2 ^ (c.order + 1) * 2 ^ (c.order + 1) := rfl
  rw [hb, hp, Nat.pow_succ, ← Nat.div_div_eq_div_mul]
  obtain ⟨q, hq⟩ := h
  have hs := c.size_pos
  have hdiv : c.base / 2 ^ c.order = q := by rw [hq, Nat.mul_div_cancel_left _ hs]
  rw [hdiv, hq]
  generalize 2 ^ c.order = s at *
  have hq2 := Nat.div_add_mod q 2
  split
  · left
    rename_i he
    refine ⟨?_, rfl⟩
    have : q = 2 * (q / 2) := by omega
    calc q / 2 * (s * 2) = s * (2 * (q / 2)) := by ring
      _ = s * q := by rw [← this]
  · right
    rename_i he
    have : q = 2 * (q / 2) + 1 := by omega
    have hsq : s * q = s * (2 * (q / 2)) + s := by
      calc s * q = s * (2 * (q / 2) + 1) := by rw [← this]
        _ = s * (2 * (q / 2)) + s := by ring
    rw [hsq]
    refine ⟨?_, by omega⟩
    rw [Nat.add_sub_cancel]
    ring

theorem parent_size (c : Chunk) : 2 ^ c.parent.order = 2 ^ c.order + 2 ^ c.order := by
  show 2 ^ (c.order + 1) = _
  rw [Nat.pow_succ]
  omega

theorem sub_parent {c : Chunk} (h : c.Aligned) : c.Sub c.parent := by
  have hp := parent_size c
  have hs := c.size_pos
  rcases parent_base h with ⟨h1, h2⟩ | ⟨h1, h2⟩
  · exact ⟨by omega, by omega⟩
  · exact ⟨by omega, by omega⟩

theorem buddy_sub_parent {c : Chunk} (h : c.Aligned) : c.buddy.Sub c.parent := by
  have hp := parent_size c
  have hs := c.size_pos
  rcases parent_base h with ⟨h1, h2⟩ | ⟨h1, h2⟩
  · exact ⟨by omega, by rw [buddy_order]; omega⟩
  · exact ⟨by omega, by rw [buddy_order]; omega⟩

theorem has_parent {c : Chunk} (h : c.Aligned) (x : Nat) :
    c.parent.Has x ↔ c.Has x ∨ c.buddy.Has x := by
  have hp := parent_size c
  have ho := buddy_order c
  unfold Has
  rw [ho]
  rcases parent_base h with ⟨h1, h2⟩ | ⟨h1, h2⟩ <;> omega

theorem buddy_apart {c : Chunk} (h : c.Aligned) : c.Apart c.buddy := by
  intro x hx hb
  have ho := buddy_order c
  unfold Has at hx hb
  rw [ho] at hb
  rcases parent_base h with ⟨h1, h2⟩ | ⟨h1, h2⟩ <;> omega

theorem parent_sub {c d : Chunk} (hd : d.Aligned) (hc : c.Aligned) (h : c.Sub d)
    (ho : c.order < d.order) : c.parent.Sub d :=
  nested (parent_aligned c) hd ho ((sub_parent hc).has c.has_base) (h.has c.has_base)

theorem lo_aligned {c : Chunk} (h : c.Aligned) : c.lo.Aligned :=
  dvd_trans (Nat.pow_dvd_pow 2 (Nat.sub_le _ _)) h

theorem half_size {c : Chunk} (h : 0 < c.order) :
    2 ^ c.order = 2 ^ (c.order - 1) + 2 ^ (c.order - 1) := by
  obtain ⟨k, hk⟩ : ∃ k, c.order = k + 1 := ⟨c.order - 1, by omega⟩
  rw [hk, Nat.pow_succ]
  simp only [Nat.add_sub_cancel]
  omega

theorem hi_aligned {c : Chunk} (h : c.Aligned) : c.hi.Aligned :=
  Nat.dvd_add (lo_aligned h) (dvd_refl _)

theorem has_halves {c : Chunk} (h : 0 < c.order) (x : Nat) :
    c.Has x ↔ c.lo.Has x ∨ c.hi.Has x := by
  have hs := half_size h
  unfold Has lo hi
  simp only
  omega

theorem lo_sub (c : Chunk) : c.lo.Sub c := by
  exact ⟨le_rfl, Nat.add_le_add_left (Nat.pow_le_pow_right (by decide) (Nat.sub_le _ _)) _⟩

theorem hi_sub {c : Chunk} (h : 0 < c.order) : c.hi.Sub c := by
  have hs := half_size h
  have hp := Nat.two_pow_pos (c.order - 1)
  unfold Sub hi
  simp only
  omega

/-- A smaller aligned chunk lies in one half. -/
theorem sub_half {c d : Chunk} (hd : d.Aligned) (hc : c.Aligned) (h : d.Sub c)
    (ho : d.order < c.order) :
    d.Sub c.lo ∨ d.Sub c.hi := by
  have hle : d.order ≤ c.order - 1 := by omega
  rcases (has_halves (by omega) d.base).mp (h.has d.has_base) with hx | hx
  · exact Or.inl (nested hd (lo_aligned hc) hle d.has_base hx)
  · exact Or.inr (nested hd (hi_aligned hc) hle d.has_base hx)

theorem lo_ne_hi (c : Chunk) : c.lo ≠ c.hi := by
  intro h
  have h1 : c.base = c.base + 2 ^ (c.order - 1) := congrArg Chunk.base h
  have := Nat.two_pow_pos (c.order - 1)
  omega

theorem lo_buddy {c : Chunk} (h : c.Aligned) (ho : 0 < c.order) : c.lo.buddy = c.hi := by
  refine Chunk.ext ?_ rfl
  rw [buddy_base (lo_aligned h), if_pos]
  · rfl
  · obtain ⟨q, hq⟩ := h
    obtain ⟨k, hk⟩ : ∃ k, c.order = k + 1 := ⟨c.order - 1, by omega⟩
    show c.base / 2 ^ (c.order - 1) % 2 = 0
    rw [hq, hk, Nat.pow_succ, Nat.add_sub_cancel, Nat.mul_assoc,
      Nat.mul_div_cancel_left _ (Nat.two_pow_pos k), Nat.mul_mod_right]

end Chunk

open Chunk

/-! ### Tilings -/

/-- The aligned chunks of `B` cut `root` into pieces: every address of `root` is in exactly one. -/
structure Tiles (B : Set Chunk) (root : Chunk) : Prop where
  aligned : ∀ c ∈ B, c.Aligned
  sub : ∀ c ∈ B, c.Sub root
  cover : ∀ x, root.Has x → ∃ c ∈ B, c.Has x
  unique : ∀ c ∈ B, ∀ d ∈ B, ∀ x, c.Has x → d.Has x → c = d

namespace Tiles

variable {B : Set Chunk} {root : Chunk}

theorem single (h : root.Aligned) : Tiles {root} root where
  aligned := by rintro c rfl; exact h
  sub := by rintro c rfl; exact c.sub_refl
  cover := fun x hx => ⟨root, rfl, hx⟩
  unique := by rintro c rfl d rfl _ _ _; rfl

theorem eq_of_base (h : Tiles B root) {c d : Chunk} (hc : c ∈ B) (hd : d ∈ B)
    (hb : c.base = d.base) : c = d :=
  h.unique c hc d hd c.base c.has_base (by rw [hb]; exact d.has_base)

theorem apart (h : Tiles B root) {c d : Chunk} (hc : c ∈ B) (hd : d ∈ B) (hne : c ≠ d) :
    c.Apart d := fun x hx hy => hne (h.unique c hc d hd x hx hy)

theorem split (h : Tiles B root) {c : Chunk} (hc : c ∈ B) (ho : 0 < c.order) :
    Tiles (insert c.hi (insert c.lo (B \ {c}))) root := by
  have hal := h.aligned c hc
  have hin : ∀ d ∈ insert c.hi (insert c.lo (B \ {c})), d = c.hi ∨ d = c.lo ∨ d ∈ B ∧ d ≠ c := by
    intro d hd
    simpa using hd
  have hhalf : ∀ d, d = c.hi ∨ d = c.lo → d.Sub c := by
    rintro d (rfl | rfl)
    · exact hi_sub ho
    · exact lo_sub c
  have hdis : ∀ x, c.lo.Has x → ¬ c.hi.Has x := by
    intro x
    rw [← lo_buddy hal ho]
    exact buddy_apart (lo_aligned hal) x
  refine ⟨?_, ?_, ?_, ?_⟩
  · intro d hd
    rcases hin d hd with rfl | rfl | ⟨hd, -⟩
    · exact hi_aligned hal
    · exact lo_aligned hal
    · exact h.aligned d hd
  · intro d hd
    rcases hin d hd with rfl | rfl | ⟨hd, -⟩
    · exact (hi_sub ho).trans (h.sub c hc)
    · exact (lo_sub c).trans (h.sub c hc)
    · exact h.sub d hd
  · intro x hx
    obtain ⟨d, hd, hdx⟩ := h.cover x hx
    by_cases hdc : d = c
    · subst hdc
      rcases (has_halves ho x).mp hdx with hx | hx
      · exact ⟨_, by simp, hx⟩
      · exact ⟨_, by simp, hx⟩
    · exact ⟨d, by simp [hd, hdc], hdx⟩
  · intro d hd e he x hdx hex
    -- two pieces that share an address: both halves, one half, or neither
    rcases hin d hd with hd | hd | ⟨hd, hdc⟩ <;> rcases hin e he with he | he | ⟨he, hec⟩
    · rw [hd, he]
    · subst hd he; exact absurd hdx (hdis x hex)
    · exact absurd (h.unique e he c hc x hex ((hhalf d (Or.inl hd)).has hdx)) hec
    · subst hd he; exact absurd hex (hdis x hdx)
    · rw [hd, he]
    · exact absurd (h.unique e he c hc x hex ((hhalf d (Or.inr hd)).has hdx)) hec
    · exact absurd (h.unique d hd c hc x hdx ((hhalf e (Or.inl he)).has hex)) hdc
    · exact absurd (h.unique d hd c hc x hdx ((hhalf e (Or.inr he)).has hex)) hdc
    · exact h.unique d hd e he x hdx hex

theorem merge (h : Tiles B root) (hroot : root.Aligned) {c : Chunk} (hc : c ∈ B)
    (hb : c.buddy ∈ B) (ho : c.order < root.order) :
    Tiles (insert c.parent (B \ {c, c.buddy})) root := by
  have hal := h.aligned c hc
  have hin : ∀ d ∈ insert c.parent (B \ {c, c.buddy}),
      d = c.parent ∨ d ∈ B ∧ d ≠ c ∧ d ≠ c.buddy := by
    intro d hd
    simpa using hd
  have hmeet : ∀ d ∈ B, d ≠ c → d ≠ c.buddy → ∀ x, c.parent.Has x → ¬ d.Has x := by
    intro d hd hdc hdb x hx hdx
    rcases (has_parent hal x).mp hx with hx | hx
    · exact hdc (h.unique d hd c hc x hdx hx)
    · exact hdb (h.unique d hd _ hb x hdx hx)
  refine ⟨?_, ?_, ?_, ?_⟩
  · intro d hd
    rcases hin d hd with rfl | ⟨hd, -⟩
    · exact parent_aligned c
    · exact h.aligned d hd
  · intro d hd
    rcases hin d hd with rfl | ⟨hd, -⟩
    · exact parent_sub hroot hal (h.sub c hc) ho
    · exact h.sub d hd
  · intro x hx
    obtain ⟨d, hd, hdx⟩ := h.cover x hx
    by_cases hdc : d = c
    · subst hdc
      exact ⟨_, by simp, (has_parent hal x).mpr (Or.inl hdx)⟩
    · by_cases hdb : d = c.buddy
      · subst hdb
        exact ⟨_, by simp, (has_parent hal x).mpr (Or.inr hdx)⟩
      · exact ⟨d, by simp [hd, hdc, hdb], hdx⟩
  · intro d hd e he x hdx hex
    rcases hin d hd with rfl | ⟨hd, hdc, hdb⟩ <;> rcases hin e he with rfl | ⟨he, hec, heb⟩
    · rfl
    · exact absurd hex (hmeet e he hec heb x hdx)
    · exact absurd hdx (hmeet d hd hdc hdb x hex)
    · exact h.unique d hd e he x hdx hex

theorem buddy_sub (h : Tiles B root) (hroot : root.Aligned) {c : Chunk} (hc : c ∈ B)
    (ho : c.order < root.order) : c.buddy.Sub root :=
  (buddy_sub_parent (h.aligned c hc)).trans (parent_sub hroot (h.aligned c hc) (h.sub c hc) ho)

/-- **A piece starts at the buddy's base.**  The piece that contains the base of the buddy is not
larger than `c`, because it would contain `c` too; being aligned, it starts there. -/
theorem exists_at_buddy (h : Tiles B root) (hroot : root.Aligned) {c : Chunk} (hc : c ∈ B)
    (ho : c.order < root.order) : ∃ d ∈ B, d.base = c.buddy.base ∧ d.order ≤ c.order := by
  have hal := h.aligned c hc
  obtain ⟨d, hd, hdx⟩ := h.cover _ ((h.buddy_sub hroot hc ho).has c.buddy.has_base)
  have hle : d.order ≤ c.order := by
    by_contra hlt
    have hs : c.buddy.Sub d := nested (buddy_aligned hal) (h.aligned d hd)
      (by rw [buddy_order]; omega) c.buddy.has_base hdx
    have hp : c.buddy.parent.Sub d :=
      parent_sub (h.aligned d hd) (buddy_aligned hal) hs (by rw [buddy_order]; omega)
    have hcd : c.Sub d := by
      have := (buddy_sub_parent (buddy_aligned hal)).trans hp
      rwa [buddy_buddy] at this
    have := h.unique c hc d hd c.base c.has_base (hcd.has c.has_base)
    rw [this] at hlt
    omega
  refine ⟨d, hd, ?_, hle⟩
  have hs : d.Sub c.buddy := nested (h.aligned d hd) (buddy_aligned hal) hle hdx c.buddy.has_base
  exact le_antisymm hdx.1 hs.1

end Tiles

/-! ### Coalesced sets -/

/-- No two chunks of `F` are buddies. -/
def NoBuddies (F : Set Chunk) : Prop := ∀ c ∈ F, c.buddy ∉ F

/-- The only buddies in `F` are `cur` and its own. -/
def NoBuddiesExcept (cur : Chunk) (F : Set Chunk) : Prop :=
  ∀ c ∈ F, c.buddy ∈ F → c = cur ∨ c.buddy = cur

theorem NoBuddies.except {F : Set Chunk} (h : NoBuddies F) (cur : Chunk) : NoBuddiesExcept cur F :=
  fun c hc hb => absurd hb (h c hc)

theorem NoBuddies.subset {F G : Set Chunk} (h : NoBuddies G) (hs : F ⊆ G) : NoBuddies F :=
  fun c hc hb => h c (hs hc) (hs hb)

theorem NoBuddies.insert {F : Set Chunk} (h : NoBuddies F) {c : Chunk} (hb : c.buddy ∉ F) :
    NoBuddies (insert c F) := by
  rintro d (rfl | hd) (he | he)
  · exact buddy_ne _ he
  · exact hb he
  · rw [← he, buddy_buddy] at hb
    exact hb hd
  · exact h d hd he

theorem NoBuddiesExcept.split {F : Set Chunk} {cur : Chunk} (h : NoBuddiesExcept cur F)
    (hal : cur.Aligned) (ho : 0 < cur.order) :
    NoBuddiesExcept cur.hi (insert cur.hi (insert cur.lo (F \ {cur}))) := by
  have hlo := lo_buddy hal ho
  rintro c (rfl | rfl | ⟨hc, hcc⟩) hb
  · exact Or.inl rfl
  · exact Or.inr hlo
  · rcases hb with hb | hb | ⟨hb, hbc⟩
    · exact Or.inr hb
    · left
      rw [← hlo, ← hb, buddy_buddy]
    · rcases h c hc hb with rfl | he
      · exact absurd rfl hcc
      · exact absurd he hbc

theorem NoBuddiesExcept.remove {F : Set Chunk} {cur : Chunk} (h : NoBuddiesExcept cur F) :
    NoBuddies (F \ {cur}) := by
  rintro c ⟨hc, hcc⟩ ⟨hb, hbc⟩
  rcases h c hc hb with he | he
  · exact hcc he
  · exact hbc he

/-- An aligned chunk inside `root` that meets no chunk of `U`, and is not part of a larger one. -/
structure MaximalFree (U : Set Chunk) (root c : Chunk) : Prop where
  aligned : c.Aligned
  sub : c.Sub root
  free : ∀ u ∈ U, c.Apart u
  maximal : ∀ d : Chunk, d.Aligned → d.Sub root → (∀ u ∈ U, d.Apart u) → c.Sub d → d = c

namespace Tiles

variable {F U : Set Chunk} {root : Chunk}

/-- No piece of `F` lies properly inside a chunk that avoids `U`: its buddy would be cut into
smaller pieces of `F`, and so on down. -/
theorem not_sub_free (h : Tiles (F ∪ U) root) (hroot : root.Aligned) (hn : NoBuddies F) {d : Chunk}
    (hd : d.Aligned) (hdr : d.Sub root) (hdu : ∀ u ∈ U, d.Apart u) :
    ∀ (n : Nat) (c : Chunk), c.order = n → c ∈ F → c.Sub d → ¬ c.order < d.order := by
  intro n
  induction n using Nat.strong_induction_on with
  | _ n ih =>
    intro c hn' hc hcd hlt
    have hcB : c ∈ F ∪ U := Or.inl hc
    have hal := h.aligned c hcB
    have hbd : c.buddy.Sub d := (buddy_sub_parent hal).trans (parent_sub hd hal hcd hlt)
    obtain ⟨e, he, heb, heo⟩ := h.exists_at_buddy hroot hcB (lt_of_lt_of_le hlt hdr.order_le)
    have hes : e.Sub c.buddy := by
      refine nested (h.aligned e he) (buddy_aligned hal) heo e.has_base ?_
      rw [heb]
      exact c.buddy.has_base
    have heF : e ∈ F := by
      rcases he with he | he
      · exact he
      · exact absurd e.has_base (hdu e he e.base ((hes.trans hbd).has e.has_base))
    rcases Nat.lt_or_eq_of_le heo with hlt' | heq
    · exact ih e.order (by omega) e rfl heF (hes.trans hbd) (by omega)
    · rw [eq_of_sub_of_order hes heq] at heF
      exact hn c hc heF

/-- **A vacant chunk lies in one free piece** of a coalesced tiling. -/
theorem exists_free (h : Tiles (F ∪ U) root) (hroot : root.Aligned) (hn : NoBuddies F) {d : Chunk}
    (hd : d.Aligned) (hdr : d.Sub root) (hdu : ∀ u ∈ U, d.Apart u) : ∃ c ∈ F, d.Sub c := by
  obtain ⟨c, hc, hcx⟩ := h.cover d.base (hdr.has d.has_base)
  have hcF : c ∈ F := by
    rcases hc with hc | hc
    · exact hc
    · exact absurd hcx (hdu c hc d.base d.has_base)
  refine ⟨c, hcF, nested hd (h.aligned c hc) ?_ d.has_base hcx⟩
  by_contra hlt
  have hcd := nested (h.aligned c hc) hd (by omega) hcx d.has_base
  exact h.not_sub_free hroot hn hd hdr hdu c.order c rfl hcF hcd (by omega)

/-- **The free pieces of a coalesced tiling are the maximal free chunks.** -/
theorem free_eq_maximal (h : Tiles (F ∪ U) root) (hroot : root.Aligned) (hFU : ∀ c ∈ F, c ∉ U)
    (hn : NoBuddies F) (c : Chunk) : c ∈ F ↔ MaximalFree U root c := by
  have hmax : ∀ c ∈ F, MaximalFree U root c := by
    intro c hc
    refine ⟨h.aligned c (Or.inl hc), h.sub c (Or.inl hc), ?_, ?_⟩
    · intro u hu
      exact h.apart (Or.inl hc) (Or.inr hu) (fun he => hFU c hc (he ▸ hu))
    · intro d hd hdr hdu hcd
      have hle := h.not_sub_free hroot hn hd hdr hdu c.order c rfl hc hcd
      exact (eq_of_sub_of_order hcd (le_antisymm hcd.order_le (by omega))).symm
  refine ⟨hmax c, ?_⟩
  intro hm
  obtain ⟨d, hd, hdx⟩ := h.cover c.base (hm.sub.has c.has_base)
  have hdF : d ∈ F := by
    rcases hd with hd | hd
    · exact hd
    · exact absurd hdx (hm.free d hd c.base c.has_base)
  have hdm := hmax d hdF
  rcases Nat.le_total c.order d.order with hle | hle
  · have hs := nested hm.aligned hdm.aligned hle c.has_base hdx
    rw [← hm.maximal d hdm.aligned hdm.sub hdm.free hs]
    exact hdF
  · have hs := nested hdm.aligned hm.aligned hle hdx c.has_base
    rw [hdm.maximal c hm.aligned hm.sub hm.free hs]
    exact hdF

end Tiles
end Base
