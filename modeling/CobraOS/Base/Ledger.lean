import CobraOS.Base.Block

/-!
# Who owns which block

The balance of a block is how often it was granted less how often it was released.  An `Account` of
a program says by how much its run changes the balance of one block, whatever requests are refused.
When this is what the results own less what the arguments owned, every block has one owner, and none
is lost.  A `Ledger` says so only of the runs in which no request is refused.

A pointer owns the block it points to, `owned`, and an array owns what its cells own, `total`.
-/

namespace Base

/-! ### The balance -/

/-- What an entry of the record adds to the balance of block `i`. -/
def Request.entry (i : Nat) : Request → Int
  | .granted j _ => if j = i then 1 else 0
  | .refused _ => 0
  | .released j => if j = i then -1 else 0

def World.balance (w : World) (i : Nat) : Int := (w.record.map (Request.entry i)).sum

/-- A block that was granted more often than released. -/
def World.Live (w : World) (i : Nat) : Prop := 0 < w.balance i

instance (w : World) (i : Nat) : Decidable (w.Live i) :=
  inferInstanceAs (Decidable (0 < w.balance i))

/-- Blocks that were not yet granted were not released. -/
def World.Proper (w : World) : Prop := ∀ i, w.calls ≤ i → w.balance i = 0

/-- No block was released more often than it was granted. -/
def World.Covered (w : World) : Prop := ∀ i, 0 ≤ w.balance i

/-- **What was released had been granted.** -/
theorem World.Covered.granted {w : World} (h : w.Covered) {i : Nat} (hi : .released i ∈ w.record) :
    ∃ size, .granted i size ∈ w.record := by
  by_contra hno
  have hle : ∀ {l : List Request}, (∀ size, .granted i size ∉ l) →
      (l.map (Request.entry i)).sum ≤ 0 ∧
      (.released i ∈ l → (l.map (Request.entry i)).sum < 0) := by
    intro l hl
    induction l with
    | nil => exact ⟨le_rfl, fun hf => absurd hf (by simp)⟩
    | cons x l ih =>
      obtain ⟨hle, hlt⟩ := ih fun size hmem => hl size (List.mem_cons_of_mem x hmem)
      rw [List.map_cons, List.sum_cons]
      cases x with
      | granted j size =>
        have hj : j ≠ i := fun he => hl size (he ▸ List.mem_cons_self)
        simp only [Request.entry, if_neg hj, List.mem_cons, reduceCtorEq, false_or]
        exact ⟨by omega, fun hi => by have := hlt hi; omega⟩
      | refused size =>
        simp only [Request.entry, List.mem_cons, reduceCtorEq, false_or]
        exact ⟨by omega, fun hi => by have := hlt hi; omega⟩
      | released j =>
        simp only [Request.entry, List.mem_cons, Request.released.injEq]
        split
        · exact ⟨by omega, fun _ => by omega⟩
        · refine ⟨by omega, fun hi => ?_⟩
          obtain rfl | hi := hi
          · exact absurd rfl (by assumption)
          · have := hlt hi
            omega
  have hneg := (hle fun size hmem => hno ⟨size, hmem⟩).2 hi
  have hpos : 0 ≤ (w.record.map (Request.entry i)).sum := h i
  omega

/-- What is true of every run. -/
structure Later (w w' : World) : Prop where
  refusals : w.refusals ≤ w'.refusals
  calls : w.calls ≤ w'.calls

theorem Later.refl (w : World) : Later w w := ⟨le_rfl, le_rfl⟩

theorem Later.trans {w w' w'' : World} (h : Later w w') (h' : Later w' w'') : Later w w'' :=
  ⟨h.refusals.trans h'.refusals, h.calls.trans h'.calls⟩

/-! ### What pointers and arrays own -/

/-- `1` for a pointer to block `i`, otherwise `0`. -/
def owned {α : Type} (i : Nat) (b : Option (Block α)) : Int :=
  b.elim 0 (fun b => if b.id = i then 1 else 0)

@[simp] theorem owned_none {α : Type} (i : Nat) : owned i (none : Option (Block α)) = 0 := rfl

/-- What cells own, of which each owns `f`. -/
def total {α : Type} (f : α → Int) (cells : List (Option α)) : Int := (cells.map (·.elim 0 f)).sum

section

variable {α : Type} {f : α → Int} {i j n : Nat} {a a₀ : α} {b b' src : Block α}

theorem owned_of_id {β : Type} {b' : Block β} (h : b'.id = b.id) :
    owned i (some b') = owned i (some b) := by
  show (if b'.id = i then (1 : Int) else 0) = if b.id = i then 1 else 0
  rw [h]

theorem owned_set (h : b.set j a = some b') : owned i (some b') = owned i (some b) := by
  obtain ⟨-, rfl⟩ := Block.set_some h
  rfl

theorem owned_copy {k : Nat} (h : b.copy j src k n = some b') :
    owned i (some b') = owned i (some b) := by
  obtain ⟨-, rfl⟩ := Block.copy_some h
  rfl

@[simp] theorem total_nil : total f [] = 0 := rfl

@[simp] theorem total_cons (c : Option α) (cs : List (Option α)) :
    total f (c :: cs) = c.elim 0 f + total f cs := List.sum_cons

@[simp] theorem total_append (cs cs' : List (Option α)) :
    total f (cs ++ cs') = total f cs + total f cs' := by
  unfold total
  rw [List.map_append, List.sum_append]

@[simp] theorem total_unwritten (n : Nat) : total f (List.replicate n (none : Option α)) = 0 := by
  induction n with
  | zero => rfl
  | succ n ih => rw [List.replicate_succ, total_cons, ih]; rfl

theorem owned_nonneg {β : Type} (i : Nat) (b : Option (Block β)) : 0 ≤ owned i b := by
  cases b with
  | none => exact le_rfl
  | some b =>
    show (0 : Int) ≤ if b.id = i then 1 else 0
    split <;> decide

theorem total_nonneg (hf : ∀ a, 0 ≤ f a) (cs : List (Option α)) : 0 ≤ total f cs := by
  induction cs with
  | nil => exact le_rfl
  | cons c cs ih =>
    rw [total_cons]
    cases c with
    | none => exact Int.add_nonneg le_rfl ih
    | some a => exact Int.add_nonneg (hf a) ih

theorem total_take_succ (h : b.get j = some a) :
    total f (b.cells.take (j + 1)) = total f (b.cells.take j) + f a := by
  rw [List.take_add_one, total_append, Block.get_eq_some.mp h]
  simp [total]

theorem total_drop_succ (h : b.get j = some a) :
    total f ((b.cells.drop j).take (n + 1)) = f a + total f ((b.cells.drop (j + 1)).take n) := by
  have hget := Block.get_eq_some.mp h
  obtain ⟨hlt, hcell⟩ := List.getElem?_eq_some_iff.mp hget
  rw [List.drop_eq_getElem_cons hlt, List.take_succ_cons, total_cons, hcell]
  rfl

theorem total_split (cs : List (Option α)) (h : j ≤ n) :
    total f (cs.take n) = total f (cs.take j) + total f ((cs.drop j).take (n - j)) := by
  obtain ⟨k, rfl⟩ := Nat.exists_eq_add_of_le h
  rw [List.take_add, total_append, Nat.add_sub_cancel_left]

theorem get_set (h : b.set j a = some b') : b'.get j = some a := by
  obtain ⟨hlt, rfl⟩ := Block.set_some h
  rw [Block.get_eq_some, List.getElem?_set_self hlt]

theorem total_set_out (h : b.set j a = some b') (hn : n ≤ j) :
    total f (b'.cells.take n) = total f (b.cells.take n) := by
  obtain ⟨-, rfl⟩ := Block.set_some h
  rw [List.take_set_of_le hn]

theorem total_set_next (h : b.set j a = some b') :
    total f (b'.cells.take (j + 1)) = total f (b.cells.take j) + f a := by
  rw [total_take_succ (get_set h), total_set_out h le_rfl]

theorem total_set_split (h : b.set j a = some b') (hn : j < n) :
    total f (b'.cells.take n) =
      total f (b.cells.take j) + f a + total f ((b.cells.drop (j + 1)).take (n - (j + 1))) := by
  rw [total_split _ (show j + 1 ≤ n from hn), total_set_next h]
  obtain ⟨-, rfl⟩ := Block.set_some h
  rw [List.drop_set_of_lt (Nat.lt_succ_self j)]

theorem copy_take {k m : Nat} (h : b.copy j src k n = some b') (hm : m ≤ j) :
    b'.cells.take m = b.cells.take m := by
  obtain ⟨⟨hs, hb⟩, rfl⟩ := Block.copy_some h
  rw [List.take_append_of_le_length (by rw [List.length_take]; omega), List.take_take,
    Nat.min_eq_left hm]

theorem copy_drop {k : Nat} (h : b.copy j src k n = some b') :
    (b'.cells.drop j).take n = (src.cells.drop k).take n := by
  obtain ⟨⟨hs, hb⟩, rfl⟩ := Block.copy_some h
  have hj : (b.cells.take j).length = j := by
    rw [List.length_take]
    omega
  have hn : ((src.cells.drop k).take n).length = n := by
    rw [List.length_take, List.length_drop]
    omega
  rw [List.drop_left' hj, List.take_left' hn]

theorem total_copy {k : Nat} (h : b.copy j src k n = some b') :
    total f (b'.cells.take (j + n)) = total f (b.cells.take j) + total f
      ((src.cells.drop k).take n) := by
  rw [total_split _ (Nat.le_add_right j n), Nat.add_sub_cancel_left, copy_take h le_rfl,
    copy_drop h]

/-- **A cell changes hands.** -/
theorem total_set (hget : b.get j = some a₀) (h : b.set j a = some b') (hn : j < n) :
    total f (b'.cells.take n) = total f (b.cells.take n) - f a₀ + f a := by
  have hsplit := total_split (f := f) b.cells (le_of_lt hn)
  rw [show n - j = n - (j + 1) + 1 by omega, total_drop_succ hget] at hsplit
  rw [total_set_split h hn, hsplit]
  ring

end

/-! ### Accounts -/

/-- The program, run in `w`, changes the balance of block `i` by `δ` of its result. -/
def Account {α : Type} (i : Nat) (m : Alloc α) (w : World) (δ : α → Int) : Prop :=
  Leads m w (fun a w' => Later w w' ∧ w'.balance i = w.balance i + δ a)

/-- The program, run in `w`, changes the balance of block `i` by `δ` of its result if no request is
refused. -/
def Ledger {α : Type} (i : Nat) (m : Alloc α) (w : World) (δ : α → Int) : Prop :=
  Leads m w (fun a w' => Later w w' ∧ (w'.refusals = w.refusals → w'.balance i = w.balance i + δ a))

namespace Account

variable {α β : Type} {i : Nat} {m m' : Alloc α} {w : World} {δ δ' : α → Int} {f : α → Alloc β}
  {ε : β → Int}

theorem later (h : Account i m w δ) : Leads m w (fun _ w' => Later w w') := h.mono fun _ _ h => h.1

theorem of_eq (h : Account i m w δ) (heq : ∀ a, δ a = δ' a) : Account i m w δ' :=
  h.mono fun a _ h => heq a ▸ h

theorem pure {a : α} (h : δ a = 0) : Account i (pure a) w δ :=
  Leads.pure ⟨.refl w, by rw [h, Int.add_zero]⟩

/-- **One program after the other.** -/
theorem bind (h : Account i m w δ)
    (hf : ∀ a w', m w = some (a, w') → Account i (f a) w' (fun b => ε b - δ a)) :
    Account i (m >>= f) w ε := by
  intro b w'' hr
  simp only [Bind.bind, StateT.bind] at hr
  obtain ⟨⟨a, w'⟩, hm, hb⟩ := Option.bind_eq_some_iff.mp hr
  obtain ⟨hlater, hbal⟩ := h a w' hm
  obtain ⟨hlater', hbal'⟩ := hf a w' hm b w'' hb
  refine ⟨hlater.trans hlater', ?_⟩
  rw [hbal', hbal]
  ring

theorem lift {o : Option α} (hf : ∀ a, o = some a → Account i (f a) w ε) :
    Account i (liftM o >>= f) w ε :=
  Leads.lift hf

theorem ite {c : Prop} [Decidable c] (ht : c → Account i m w δ) (he : ¬ c → Account i m' w δ) :
    Account i (if c then m else m') w δ := Leads.ite ht he

/-- **The allocation rule.** -/
theorem request {γ : Type} {limit cell size : Nat} {f : Option (Block γ) → Alloc β}
    (hsome : ∀ b w', w.calls ≤ b.id → b.cells = List.replicate (size / cell) none →
      Account i (f (some b)) w' (fun c => ε c - owned i (some b)))
    (hnone : ∀ w', Account i (f none) w' ε) :
    Account i (Base.request limit cell size >>= f) w ε := by
  intro c w'' hr
  simp only [Bind.bind, StateT.bind] at hr
  obtain ⟨⟨b, w'⟩, hm, hc⟩ := Option.bind_eq_some_iff.mp hr
  unfold Base.request at hm
  split at hm
  · cases hm
    obtain ⟨hlater, hbal⟩ :=
      hsome ⟨w.calls, List.replicate (size / cell) none⟩ _ le_rfl rfl c w'' hc
    refine ⟨⟨hlater.refusals, (Nat.le_succ _).trans hlater.calls⟩, ?_⟩
    rw [hbal]
    simp only [World.balance, List.map_cons, List.sum_cons, Request.entry, owned, Option.elim_some]
    ring
  · cases hm
    obtain ⟨hlater, hbal⟩ := hnone _ c w'' hc
    have hmore : w.refusals + 1 ≤ w''.refusals := by simpa [World.refusals] using hlater.refusals
    refine ⟨⟨by omega, (Nat.le_succ _).trans hlater.calls⟩, ?_⟩
    rw [hbal]
    simp only [World.balance, List.map_cons, List.sum_cons, Request.entry, Int.zero_add]

/-- **The release rule.** -/
theorem release {b : Option (Block α)} : Account i (release b) w (fun _ => -owned i b) := by
  intro u w' hr
  cases b with
  | none =>
    cases hr
    exact ⟨.refl w, by simp⟩
  | some b =>
    cases hr
    refine ⟨⟨by simp [World.refusals], le_rfl⟩, ?_⟩
    simp only [World.balance, List.map_cons, List.sum_cons, Request.entry, owned, Option.elim_some]
    split <;> omega

end Account
end Base
