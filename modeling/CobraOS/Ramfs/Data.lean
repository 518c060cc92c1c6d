import CobraOS.Ramfs.Calls

/-!
# Nodes and the buffers they own

`Owned` is the invariant of the data of files: every buffer belongs to exactly one node and is as
long as the node says.  So what is done to the buffer of one node is not seen by the others
(`Owned.bytes_write`, `Owned.bytes_replace`).
-/

namespace CobraOS.Ramfs

open Base

/-- A node without its pointers to other nodes. -/
def VfsNode.bare (n : VfsNode) : VfsNode :=
  { n with parent := none, children := none, next := none }

/-- The nodes without their pointers to other nodes. -/
def contents (fs : Fs) (a : Nat) : Option VfsNode := (fs.nodes a).map VfsNode.bare

/-- Every buffer belongs to one node, and is as long as it says. -/
structure Owned (c : Nat → Option VfsNode) (b : Nat → Option Bytes) : Prop where
  held : ∀ a n d, c a = some n → n.data = some d → ∃ bytes, b d = some bytes ∧ bytes.length = n.size
  null : ∀ a n, c a = some n → n.data = none → n.size = 0
  small : ∀ a n, c a = some n → n.size ≤ maxRequest
  one : ∀ a n a' n' d, c a = some n → c a' = some n' → n.data = some d → n'.data = some d → a = a'
  used : ∀ d bytes, b d = some bytes → ∃ a n, c a = some n ∧ n.data = some d

/-- The bytes of the node at `a`. -/
def bytesAt (c : Nat → Option VfsNode) (b : Nat → Option Bytes) (a : Nat) : Bytes :=
  (((c a).bind VfsNode.data).bind b).getD []

/-- The buffers without that of a node. -/
def freed (b : Nat → Option Bytes) : Option Nat → Nat → Option Bytes
  | none => b
  | some d => Function.update b d none

theorem update_some {β : Type} {c : Nat → Option β} {a x : Nat} {n m : β}
    (h : Function.update c a (some n) x = some m) : x = a ∧ m = n ∨ x ≠ a ∧ c x = some m := by
  by_cases hxa : x = a
  · rw [hxa, Function.update_self, Option.some.injEq] at h
    exact Or.inl ⟨hxa, h.symm⟩
  · rw [Function.update_of_ne hxa] at h
    exact Or.inr ⟨hxa, h⟩

theorem update_none {β : Type} {c : Nat → Option β} {a x : Nat} {m : β}
    (h : Function.update c a none x = some m) : x ≠ a ∧ c x = some m := by
  by_cases hxa : x = a
  · rw [hxa, Function.update_self] at h
    cases h
  · rw [Function.update_of_ne hxa] at h
    exact ⟨hxa, h⟩

namespace Owned

variable {c : Nat → Option VfsNode} {b : Nat → Option Bytes} {a d : Nat} {n m : VfsNode}
    {bytes : Bytes}

theorem empty : Owned (fun _ => none) (fun _ => none) := by
  constructor
  all_goals
    intros
    contradiction

theorem bytes_length (h : Owned c b) (ha : c a = some n) : (bytesAt c b a).length = n.size := by
  unfold bytesAt
  rw [ha, Option.bind_some]
  cases hd : n.data with
  | none => exact (h.null a n ha hd).symm
  | some d =>
    obtain ⟨bytes, hb, hl⟩ := h.held a n d ha hd
    simp [hb, hl]

theorem freed_of_ne {data : Option Nat} (hd : data ≠ some d) : freed b data d = b d := by
  cases data with
  | none => rfl
  | some e => exact Function.update_of_ne (fun he => hd (congrArg some he.symm)) _ _

theorem freed_self : freed b (some d) d = none := Function.update_self _ _ _

theorem data_ne (h : Owned c b) (ha : c a = some n) {a' : Nat} {n' : VfsNode} (ha' : c a' = some n')
    (hne : a' ≠ a) (hd : n'.data = some d) : n.data ≠ some d :=
  fun he => hne (h.one a' n' a n d ha' ha hd he)

theorem add (h : Owned c b) (ha : c a = none) (hd : n.data = none) (hs : n.size = 0) :
    Owned (Function.update c a (some n)) b := by
  refine ⟨fun x m d hx hm => ?_, fun x m hx hm => ?_, fun x m hx => ?_,
    fun x m x' m' d hx hx' hm hm' => ?_, fun d bytes hb => ?_⟩
  · obtain ⟨-, rfl⟩ | ⟨-, hx⟩ := update_some hx
    · rw [hd] at hm
      cases hm
    · exact h.held x m d hx hm
  · obtain ⟨-, rfl⟩ | ⟨-, hx⟩ := update_some hx
    · exact hs
    · exact h.null x m hx hm
  · obtain ⟨-, rfl⟩ | ⟨-, hx⟩ := update_some hx
    · rw [hs]
      exact Nat.zero_le _
    · exact h.small x m hx
  · obtain ⟨-, rfl⟩ | ⟨-, hx⟩ := update_some hx
    · rw [hd] at hm
      cases hm
    · obtain ⟨-, rfl⟩ | ⟨-, hx'⟩ := update_some hx'
      · rw [hd] at hm'
        cases hm'
      · exact h.one x m x' m' d hx hx' hm hm'
  · obtain ⟨x, m, hx, hm⟩ := h.used d bytes hb
    have hxa : x ≠ a := by
      rintro rfl
      rw [ha] at hx
      cases hx
    exact ⟨x, m, (Function.update_of_ne hxa _ _).trans hx, hm⟩

theorem remove (h : Owned c b) (ha : c a = some n) :
    Owned (Function.update c a none) (freed b n.data) := by
  refine ⟨fun x m d hx hm => ?_, fun x m hx hm => h.null x m (update_none hx).2 hm,
    fun x m hx => h.small x m (update_none hx).2,
    fun x m x' m' d hx hx' hm hm' => h.one x m x' m' d (update_none hx).2
      (update_none hx').2 hm hm',
    fun d bytes hb => ?_⟩
  · obtain ⟨hxa, hx⟩ := update_none hx
    rw [freed_of_ne (h.data_ne ha hx hxa hm)]
    exact h.held x m d hx hm
  · have hd : n.data ≠ some d := by
      intro hd
      rw [hd, freed_self] at hb
      cases hb
    rw [freed_of_ne hd] at hb
    obtain ⟨x, m, hx, hm⟩ := h.used d bytes hb
    have hxa : x ≠ a := by
      rintro rfl
      rw [ha] at hx
      exact hd (Option.some.inj hx ▸ hm)
    exact ⟨x, m, (Function.update_of_ne hxa _ _).trans hx, hm⟩

theorem clear (h : Owned c b) (ha : c a = some n) (hd : m.data = none) (hs : m.size = 0) :
    Owned (Function.update c a (some m)) (freed b n.data) := by
  have := (h.remove ha).add (a := a) (n := m) (Function.update_self _ _ _) hd hs
  rwa [Function.update_idem] at this

theorem give (h : Owned c b) (ha : c a = some n) (hn : n.data = none) (hfresh : b d = none)
    (hd : m.data = some d) (hl : bytes.length = m.size) (hs : m.size ≤ maxRequest) :
    Owned (Function.update c a (some m)) (Function.update b d (some bytes)) := by
  -- the new buffer belonged to nobody
  have hno : ∀ {x k}, c x = some k → k.data ≠ some d := by
    intro x k hx hk
    obtain ⟨bytes', hb, -⟩ := h.held x k d hx hk
    rw [hfresh] at hb
    cases hb
  refine ⟨fun x k e hx hk => ?_, fun x k hx hk => ?_, fun x k hx => ?_,
    fun x k x' k' e hx hx' hk hk' => ?_, fun e bytes' hb => ?_⟩
  · obtain ⟨-, rfl⟩ | ⟨-, hx⟩ := update_some hx
    · rw [hd, Option.some.injEq] at hk
      rw [← hk]
      exact ⟨bytes, Function.update_self _ _ _, hl⟩
    · have hed : e ≠ d := fun he => hno hx (he ▸ hk)
      rw [Function.update_of_ne hed]
      exact h.held x k e hx hk
  · obtain ⟨-, rfl⟩ | ⟨-, hx⟩ := update_some hx
    · rw [hd] at hk
      cases hk
    · exact h.null x k hx hk
  · obtain ⟨-, rfl⟩ | ⟨-, hx⟩ := update_some hx
    · exact hs
    · exact h.small x k hx
  · obtain ⟨hxa, hkm⟩ | ⟨-, hx⟩ := update_some hx
    · obtain ⟨hxa', -⟩ | ⟨-, hx'⟩ := update_some hx'
      · exact hxa.trans hxa'.symm
      · rw [hkm, hd] at hk
        exact absurd (hk.symm ▸ hk') (hno hx')
    · obtain ⟨-, hkm⟩ | ⟨-, hx'⟩ := update_some hx'
      · rw [hkm, hd] at hk'
        exact absurd (hk'.symm ▸ hk) (hno hx)
      · exact h.one x k x' k' e hx hx' hk hk'
  · by_cases hed : e = d
    · exact ⟨a, m, Function.update_self _ _ _, hed ▸ hd⟩
    · rw [Function.update_of_ne hed] at hb
      obtain ⟨x, k, hx, hk⟩ := h.used e bytes' hb
      have hxa : x ≠ a := by
        rintro rfl
        rw [ha, Option.some.injEq] at hx
        rw [← hx, hn] at hk
        cases hk
      exact ⟨x, k, (Function.update_of_ne hxa _ _).trans hx, hk⟩

theorem replace (h : Owned c b) (ha : c a = some n) (hfresh : b d = none) (hd : m.data = some d)
    (hl : bytes.length = m.size) (hs : m.size ≤ maxRequest) :
    Owned (Function.update c a (some m)) (Function.update (freed b n.data) d (some bytes)) := by
  let k : VfsNode := { m with data := none, size := 0 }
  have hfresh' : freed b n.data d = none := by
    cases n.data with
    | none => exact hfresh
    | some e =>
      by_cases hde : d = e
      · exact hde ▸ freed_self
      · rw [freed_of_ne (fun he => hde (Option.some.inj he).symm), hfresh]
  have := (h.clear ha (m := k) rfl rfl).give (a := a) (n := k) (Function.update_self _ _ _) rfl
    hfresh' hd hl hs
  rwa [Function.update_idem] at this

theorem write (h : Owned c b) (ha : c a = some n) (hd : n.data = some d)
    (hl : bytes.length = n.size) :
    Owned c (Function.update b d (some bytes)) := by
  refine ⟨fun x k e hx hk => ?_, h.null, h.small, h.one, fun e bytes' hb => ?_⟩
  · by_cases hed : e = d
    · subst hed
      obtain rfl := h.one x k a n e hx ha hk hd
      rw [ha, Option.some.injEq] at hx
      exact ⟨bytes, Function.update_self _ _ _, hx ▸ hl⟩
    · rw [Function.update_of_ne hed]
      exact h.held x k e hx hk
  · by_cases hed : e = d
    · exact ⟨a, n, ha, hed ▸ hd⟩
    · rw [Function.update_of_ne hed] at hb
      exact h.used e bytes' hb

/-! ### What the others see -/

/-- Nothing done to the buffer of a node, or to a buffer of nobody, is seen by the others. -/
theorem bytes_other {c' : Nat → Option VfsNode} {b' : Nat → Option Bytes} (h : Owned c b)
    (ha : c a = some n) (hc : ∀ x, x ≠ a → c' x = c x)
    (hb : ∀ e, (b e).isSome → n.data ≠ some e → b' e = b e) {x : Nat} (hx : x ≠ a) :
    bytesAt c' b' x = bytesAt c b x := by
  unfold bytesAt
  rw [hc x hx]
  cases hk : c x with
  | none => rfl
  | some k =>
    cases hd : k.data with
    | none => simp [hd]
    | some e =>
      obtain ⟨bytes', hbytes, -⟩ := h.held x k e hk hd
      simp only [Option.bind_some, hd]
      rw [hb e (by rw [hbytes]; rfl) (h.data_ne ha hk hx hd)]

end Owned

end CobraOS.Ramfs
