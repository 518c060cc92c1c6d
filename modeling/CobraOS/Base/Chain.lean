import Mathlib.Tactic
import Mathlib.Logic.Function.Basic
import Mathlib.Data.List.Nodup
import Mathlib.Data.List.TakeWhile

/-!
# Pointer chains

A singly linked list kept in the cells of some memory is a head pointer and a `next` function.
`Seg next p l q` says that following `next` from `p` visits exactly the cells of `l`, in order,
and is then at `q`; `Chain next p l` is the segment that ends in the null pointer.  The pointers
determine the list (`Chain.unique`) and it has no repetition (`Chain.nodup`), so a chain is never
cyclic.

* `locate` is the walk of every singly linked list: it stops at the first cell that satisfies a
  test, and also returns the cell before it, whose pointer is the one to change.
  `locate_chain` says where it stops.
* `Chain.relink` is the only surgery there is: what follows a prefix is replaced.  Insertion
  (`Chain.insert`) and removal (`Chain.remove`) are its two instances.
-/

namespace Base

variable {α : Type*}

/-- Following `next` from `p` visits exactly `l` and ends at `q`. -/
def Seg (next : α → Option α) : Option α → List α → Option α → Prop
  | p, [], q => p = q
  | p, a :: l, q => p = some a ∧ Seg next (next a) l q

/-- Following `next` from `p` visits exactly `l` and stops. -/
def Chain (next : α → Option α) (p : Option α) (l : List α) : Prop := Seg next p l none

section Seg

variable {next next' : α → Option α} {p q r : Option α}

@[simp] theorem seg_nil : Seg next p [] q ↔ p = q := Iff.rfl

@[simp] theorem seg_cons {a : α} {l : List α} :
    Seg next p (a :: l) q ↔ p = some a ∧ Seg next (next a) l q := Iff.rfl

theorem seg_append : ∀ {l₁ : List α} {l₂ : List α} {p : Option α},
    Seg next p (l₁ ++ l₂) q ↔ ∃ r, Seg next p l₁ r ∧ Seg next r l₂ q := by
  intro l₁
  induction l₁ with
  | nil => intro l₂ p; simp
  | cons a l₁ ih => intro l₂ p; simp [ih, and_assoc]

theorem Seg.congr : ∀ {l : List α} {p : Option α}, Seg next p l q →
    (∀ a ∈ l, next' a = next a) → Seg next' p l q := by
  intro l
  induction l with
  | nil => intro p h _; exact h
  | cons a l ih =>
    intro p h hn
    refine ⟨h.1, ?_⟩
    rw [hn a (by simp)]
    exact ih h.2 (fun b hb => hn b (by simp [hb]))

/-- **Only the last cell of a segment knows where it ends.** -/
theorem Seg.retarget : ∀ {l : List α} {p : Option α}, Seg next p l q → l.Nodup →
    (∀ c ∈ l.getLast?, next' c = r) → (∀ c ∈ l, c ∉ l.getLast? → next' c = next c) →
    Seg next' (if l = [] then r else p) l r := by
  intro l
  induction l with
  | nil => intro p _ _ _ _; simp
  | cons a l ih =>
    intro p h hnd hlast hrest
    rw [if_neg (by simp)]
    refine ⟨h.1, ?_⟩
    cases l with
    | nil => exact hlast a (by simp)
    | cons b l =>
      have hab : a ∉ (b :: l).getLast? := by
        intro hm
        exact (List.nodup_cons.mp hnd).1 (List.mem_of_getLast? hm)
      rw [hrest a (by simp) (by simpa using hab)]
      have := ih h.2 (List.nodup_cons.mp hnd).2 (by simpa using hlast)
        (fun c hc hn => hrest c (by simp [hc]) (by simpa using hn))
      simpa using this

end Seg

namespace Chain

variable {next next' : α → Option α} {p q : Option α} {l : List α}

@[simp] theorem nil_iff : Chain next p [] ↔ p = none := Iff.rfl

@[simp] theorem cons_iff {a : α} :
    Chain next p (a :: l) ↔ p = some a ∧ Chain next (next a) l := Iff.rfl

@[simp] theorem none_iff : Chain next none l ↔ l = [] := by
  cases l <;> simp

theorem append_iff {l₁ l₂ : List α} :
    Chain next p (l₁ ++ l₂) ↔ ∃ r, Seg next p l₁ r ∧ Chain next r l₂ := seg_append

theorem head_eq (h : Chain next p l) : p = l.head? := by
  cases l with
  | nil => exact h
  | cons a l => exact h.1

theorem congr (h : Chain next p l) (hn : ∀ a ∈ l, next' a = next a) : Chain next' p l :=
  Seg.congr h hn

theorem unique : ∀ {l l' : List α} {p : Option α}, Chain next p l → Chain next p l' → l = l' := by
  intro l
  induction l with
  | nil =>
    intro l' p h h'
    rw [nil_iff] at h
    subst h
    exact (none_iff.mp h').symm
  | cons a l ih =>
    intro l' p h h'
    obtain ⟨rfl, h⟩ := h
    cases l' with
    | nil => simp at h'
    | cons b l' =>
      obtain ⟨hb, h'⟩ := h'
      cases hb
      rw [ih h h']

/-- **A chain has no repetition**: the list after a cell is determined by the cell, so a second
visit would make the list longer than itself. -/
theorem nodup : ∀ {l : List α} {p : Option α}, Chain next p l → l.Nodup := by
  intro l
  induction l with
  | nil => intro p _; exact List.nodup_nil
  | cons a l ih =>
    intro p h
    refine List.nodup_cons.mpr ⟨?_, ih h.2⟩
    intro ha
    obtain ⟨s, t, rfl⟩ := List.append_of_mem ha
    obtain ⟨r, -, hr⟩ := append_iff.mp h.2
    have he := unique h.2 hr.2
    have := congrArg List.length he
    simp at this
    omega

/-- The cells of a chain of addresses are different, so it is no longer than there are addresses. -/
theorem length_le {next : Nat → Option Nat} {p : Option Nat} {l : List Nat} {n : Nat}
    (h : Chain next p l) (hl : ∀ a ∈ l, a < n) : l.length ≤ n := by
  have hsub : l.toFinset ⊆ Finset.range n := fun a ha =>
    Finset.mem_range.mpr (hl a (List.mem_toFinset.mp ha))
  have hcard := Finset.card_le_card hsub
  rwa [List.toFinset_card_of_nodup h.nodup, Finset.card_range] at hcard

/-- **Replacing what follows a prefix.**  The pointer that ends the prefix (the head pointer when
the prefix is empty) is the only one that changes. -/
theorem relink {pre l post : List α} (h : Chain next p (pre ++ l)) (hpost : Chain next' q post)
    (hlast : ∀ c ∈ pre.getLast?, next' c = q)
    (hpre : ∀ c ∈ pre, c ∉ pre.getLast? → next' c = next c) :
    Chain next' (if pre = [] then q else p) (pre ++ post) := by
  have hnd : pre.Nodup := (List.nodup_append.mp h.nodup).1
  obtain ⟨r, hr, -⟩ := append_iff.mp h
  exact append_iff.mpr ⟨q, hr.retarget hnd hlast hpre, hpost⟩

theorem insert {pre post : List α} {a : α} (h : Chain next p (pre ++ post)) (next' : α → Option α)
    (hnext : next' a = post.head?) (hlast : ∀ c ∈ pre.getLast?, next' c = some a)
    (hrest : ∀ c ∈ pre ++ post, c ∉ pre.getLast? → next' c = next c) :
    Chain next' (if pre = [] then some a else p) (pre ++ a :: post) := by
  have hnd := List.nodup_append.mp h.nodup
  obtain ⟨r, hr, hpost⟩ := append_iff.mp h
  refine relink h ⟨rfl, ?_⟩ hlast (fun c hc => hrest c (by simp [hc]))
  rw [hnext, ← hpost.head_eq]
  refine hpost.congr (fun c hc => hrest c (by simp [hc]) ?_)
  intro hl
  exact hnd.2.2 c (List.mem_of_getLast? hl) c hc rfl

theorem remove {pre post : List α} {b : α} (h : Chain next p (pre ++ b :: post))
    (next' : α → Option α) (hlast : ∀ c ∈ pre.getLast?, next' c = next b)
    (hrest : ∀ c ∈ pre ++ post, c ∉ pre.getLast? → next' c = next c) :
    Chain next' (if pre = [] then next b else p) (pre ++ post) := by
  have hnd := List.nodup_append.mp h.nodup
  obtain ⟨r, hr, hpost⟩ := append_iff.mp h
  refine relink h (hpost.2.congr (fun c hc => hrest c (by simp [hc]) ?_)) hlast
    (fun c hc => hrest c (by simp [hc]))
  intro hl
  exact hnd.2.2 c (List.mem_of_getLast? hl) c (by simp [hc]) rfl

/-! ### Going round -/

/-- `next`, and from the end back to `h`. -/
def round (next : α → Option α) (h : Option α) (a : α) : Option α := (next a).or h

theorem wrap {h : Option α} : ∀ {l : List α} {p : Option α}, Chain next p l → Seg (round next h)
    (p.or h) l h := by
  intro l
  induction l with
  | nil =>
    intro p hp
    rw [nil_iff] at hp
    subst hp
    rfl
  | cons a l ih =>
    intro p hp
    obtain ⟨rfl, hp⟩ := hp
    exact ⟨rfl, ih hp⟩

theorem seg_isSome {c : α} : ∀ {l : List α} {p : Option α}, Seg next p l (some c) →
    ∀ a ∈ l, (next a).isSome = true := by
  intro l
  induction l with
  | nil => exact fun _ a ha => absurd ha List.not_mem_nil
  | cons b l ih =>
    intro p hp a ha
    rcases List.mem_cons.mp ha with rfl | ha
    · cases l with
      | nil => rw [show next a = some c from hp.2, Option.isSome_some]
      | cons d l => rw [hp.2.1, Option.isSome_some]
    · exact ih hp.2 a ha

theorem seg_round {h : Option α} {c : α} {l : List α} {p : Option α} (hp : Seg next p l (some c)) :
    Seg (round next h) p l (some c) := by
  refine hp.congr (fun a ha => ?_)
  obtain ⟨b, hb⟩ := Option.isSome_iff_exists.mp (seg_isSome hp a ha)
  rw [round, hb, Option.some_or]

/-- **All the way round**: from a cell of the chain one comes to every other cell before it. -/
theorem ring {pre post : List α} {c : α} (h : Chain next p (pre ++ c :: post)) :
    Seg (round next p) (round next p c) (post ++ pre) (some c) := by
  obtain ⟨r, hpre, hr, hpost⟩ := append_iff.mp h
  subst hr
  exact seg_append.mpr ⟨p, wrap hpost, seg_round hpre⟩

end Chain

/-! ### The walk -/

/-- Walk from `cur`, whose predecessor is `prev`, up to the first cell where `stop` holds; `none`
when the walk is longer than the fuel. -/
def locate (next : α → Option α) (stop : α → Bool) :
    Nat → Option α → Option α → Option (Option α × Option α)
  | 0, _, _ => none
  | _ + 1, prev, none => some (prev, none)
  | fuel + 1, prev, some a => if stop a then some (prev, some a) else
      locate next stop fuel (some a) (next a)

/-- **Where the walk stops**: after the longest prefix on which the test fails. -/
theorem locate_chain {next : α → Option α} (stop : α → Bool) : ∀ {l : List α} {fuel : Nat}
    (prev : Option α) {p : Option α}, Chain next p l → l.length < fuel →
    locate next stop fuel prev p =
      some ((l.takeWhile (fun a => !stop a)).getLast?.or prev,
        (l.dropWhile (fun a => !stop a)).head?) := by
  intro l
  induction l with
  | nil =>
    intro fuel prev p h hf
    obtain ⟨fuel, rfl⟩ : ∃ n, fuel = n + 1 := ⟨fuel - 1, by simp at hf; omega⟩
    rw [Chain.nil_iff] at h
    subst h
    simp [locate]
  | cons a l ih =>
    intro fuel prev p h hf
    obtain ⟨fuel, rfl⟩ : ∃ n, fuel = n + 1 := ⟨fuel - 1, by simp at hf; omega⟩
    obtain ⟨rfl, h⟩ := h
    rw [locate]
    by_cases ha : stop a
    · simp [ha]
    · rw [if_neg ha, ih _ h (by simpa using hf)]
      have ha' : stop a = false := by simpa using ha
      cases ht : l.takeWhile (fun a => !stop a) with
      | nil => simp [ha', ht]
      | cons b t =>
        rw [List.takeWhile_cons_of_pos (by simpa using ha'),
          List.dropWhile_cons_of_pos (by simpa using ha'), ht, List.getLast?_cons_cons,
          List.getLast?_eq_getLast_of_ne_nil (List.cons_ne_nil b t)]
        rfl

theorem locate_last {next : α → Option α} (prev : Option α) {p : Option α} {l : List α} {b : α}
    {fuel : Nat} (h : Chain next p (l ++ [b])) (hf : (l ++ [b]).length < fuel) :
    locate next (fun a => (next a).isNone) fuel prev p = some (l.getLast?.or prev, some b) := by
  obtain ⟨r, hl, hr, hb⟩ := Chain.append_iff.mp h
  subst hr
  rw [seg_nil] at hb
  have hall : ∀ a ∈ l, (!(next a).isNone) = true := by
    intro a ha
    rw [Option.not_isNone]
    exact Chain.seg_isSome hl a ha
  rw [locate_chain _ _ h hf, List.takeWhile_append_of_pos hall, List.dropWhile_append_of_pos hall]
  simp [hb]

/-- The walk that looks for a cell of the chain finds it, and the cell before it. -/
theorem locate_mem [DecidableEq α] {next : α → Option α} (prev : Option α) {p : Option α}
    {l : List α} {b : α} {fuel : Nat} (h : Chain next p l) (hb : b ∈ l) (hf : l.length < fuel) :
    ∃ pre post, l = pre ++ b :: post ∧
      locate next (fun a => a == b) fuel prev p = some (pre.getLast?.or prev, some b) := by
  have hsplit := List.takeWhile_append_dropWhile (p := fun a => !(a == b)) (l := l)
  cases hd : l.dropWhile (fun a => !(a == b)) with
  | nil =>
    have hall := List.dropWhile_eq_nil_iff.mp hd b hb
    simp at hall
  | cons c post =>
    have hc := List.head?_dropWhile_not (fun a => !(a == b)) l
    rw [hd] at hc
    obtain rfl : c = b := by simpa using hc
    refine ⟨l.takeWhile (fun a => !(a == c)), post, by rw [← hd, hsplit], ?_⟩
    rw [locate_chain _ _ h hf, hd]
    rfl

end Base
