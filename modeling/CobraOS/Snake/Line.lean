import CobraOS.Snake.Session

/-!
# What the line operations do

`l.Holds t` says that the line `l` has the text `t`: its buffer begins with `t` and a zero byte, and
it is as large as its capacity says.  Every operation of the source that takes a line with a text
gives one with the expected text, or leaves the line as it was because a request was refused
(`Outcome`).
-/

namespace CobraOS.Snake

open Base

structure Line.Holds (l : Line) (t : Text) : Prop where
  data : ∃ id rest, l.data = some ⟨id, t.map some ++ some 0 :: rest⟩ ∧
    t.length + 1 + rest.length = l.cap
  len : l.len = t.length
  cap : l.cap ≤ maxRequest

/-- An operation that needs memory: `ok` when no request was refused. -/
def Outcome (w w' : World) (ok : Bool) : Prop :=
  ok = true ∧ w'.refusals = w.refusals ∨ ok = false ∧ w.refusals < w'.refusals

theorem Outcome.trans {w w' w'' : World} {ok : Bool} (h : w'.refusals = w.refusals)
    (ho : Outcome w' w'' ok) : Outcome w w'' ok := by
  unfold Outcome at *
  rw [← h]
  exact ho

theorem Outcome.then {w' w'' : World} {ok : Bool} (ho : Outcome w w' ok)
    (h : w''.refusals = w'.refusals) : Outcome w w'' ok := by
  unfold Outcome at *
  rw [h]
  exact ho

section

variable {w : World} {l : Line} {t u v : Text}

theorem Line.Holds.length_lt (h : l.Holds t) : t.length < maxRequest := by
  obtain ⟨id, rest, -, hcap⟩ := h.data
  have := h.cap
  omega

theorem Line.Holds.terminated (h : l.Holds t) :
    l.len < l.cap ∧ ∃ b, l.data = some b ∧ b.cells.length = l.cap ∧ b.get l.len = some 0 := by
  obtain ⟨id, rest, hd, hcap⟩ := h.data
  have hlen := h.len
  refine ⟨by omega, _, hd, by simp; omega, ?_⟩
  exact Block.get_mid rfl (by rw [List.length_map, hlen])

/-! ### Growth -/

theorem doubled_spec {needed : Nat} (hn : needed ≤ 2147483648) : ∀ (n : Nat) {newCap : Nat},
    0 < newCap → newCap < 4294967296 → needed ≤ newCap * 2 ^ n →
    ∃ k, doubled needed (n + 1) newCap = some k ∧ needed ≤ k ∧ 0 < k ∧ k < 4294967296 := by
  intro n
  induction n with
  | zero =>
    intro newCap h0 h1 h2
    exact ⟨newCap, by rw [doubled, if_neg (by omega)], by omega, h0, h1⟩
  | succ n ih =>
    intro newCap h0 h1 h2
    rw [doubled]
    by_cases hlt : newCap < needed
    · have hmod : newCap * 2 % 4294967296 = newCap * 2 := Nat.mod_eq_of_lt (by omega)
      rw [if_pos hlt, hmod]
      refine ih (by omega) (by omega) ?_
      rw [pow_succ] at h2
      nlinarith
    · exact ⟨newCap, by rw [if_neg hlt], by omega, h0, h1⟩

/-- **`line_reserve` in the loop**: some capacity is enough. -/
theorem doubled_enough {needed cap : Nat} (hn : needed ≤ 2147483648) (hcap : cap < 2147483648) :
    ∃ k, doubled needed 33 (if cap = 0 then 16 else cap * 2 % 4294967296) = some k ∧ needed ≤ k ∧
      0 < k ∧ k < 4294967296 := by
  refine doubled_spec hn 32 ?_ ?_ ?_ <;> split <;> omega

theorem moveData_spec (h : l.Holds t) {id k : Nat} (hk : t.length + 1 ≤ k) :
    Meets (moveData l ⟨id, List.replicate k none⟩) w (fun b w' => w'.refusals = w.refusals ∧
      b = ⟨id, t.map some ++ some 0 :: List.replicate (k - (t.length + 1)) none⟩) := by
  obtain ⟨id', rest, hd, -⟩ := h.data
  have hdst : (⟨id, List.replicate k none⟩ : Block UInt8).cells =
      [] ++ (List.replicate (t.length + 1) none ++ List.replicate (k - (t.length + 1)) none) := by
    rw [List.nil_append, List.replicate_append_replicate, Nat.add_sub_cancel' hk]
  have hsrc : (⟨id', t.map some ++ some 0 :: rest⟩ : Block UInt8).cells =
      [] ++ ((t.map some ++ [some 0]) ++ rest) := by
    simp
  have hcopy := Block.copy_mid (n := t.length + 1) hdst hsrc rfl rfl (by simp) (by simp)
  unfold moveData
  rw [hd, h.len]
  refine Meets.lift hcopy (Meets.seq (Meets.release fun w' hw => Meets.pure ⟨hw, ?_⟩))
  simp

/-- **`line_reserve`** -/
theorem lineReserve_spec (h : l.Holds t) {needed : Nat} (hn : needed ≤ 2147483648)
    (ht : t.length < needed) :
    Meets (lineReserve l needed) w (fun r w' => Outcome w w' r.1 ∧
      (r.1 = true → r.2.Holds t ∧ needed ≤ r.2.cap) ∧ (r.1 = false → r.2 = l)) := by
  unfold lineReserve
  by_cases hle : needed ≤ l.cap
  · rw [if_pos hle]
    exact Meets.pure ⟨Or.inl ⟨rfl, rfl⟩, fun _ => ⟨h, hle⟩, fun hf => absurd hf (by simp)⟩
  · rw [if_neg hle]
    have hcap := h.cap
    unfold maxRequest at hcap
    obtain ⟨k, hk, hneed, h0, h1⟩ := doubled_enough hn (by omega : l.cap < 2147483648)
    refine Meets.lift hk (Meets.seq (Meets.request ?_ ?_))
    · intro id w1 _ hkle hw1
      rw [Nat.mod_eq_of_lt h1] at hkle
      rw [Nat.mod_eq_of_lt h1, Nat.div_one]
      refine Meets.bind (moveData_spec h (by omega)) ?_
      rintro b w2 ⟨hw2, rfl⟩
      refine Meets.pure ⟨Or.inl ⟨rfl, hw2.trans hw1⟩,
        fun _ => ⟨⟨⟨id, _, rfl, ?_⟩, h.len, hkle⟩, hneed⟩, fun hf => absurd hf (by simp)⟩
      rw [List.length_replicate]
      show _ = k
      omega
    · intro w1 hw1
      exact Meets.pure ⟨Or.inr ⟨rfl, by omega⟩, fun hf => absurd hf (by simp), fun _ => rfl⟩

/-- **`line_reserve`** of a line without a buffer. -/
theorem lineReserve_new {needed : Nat} (h0 : 0 < needed) (hn : needed ≤ 2147483648) :
    Meets (lineReserve ⟨none, 0, 0⟩ needed) w (fun r w' => Outcome w w' r.1 ∧
      (r.1 = true → ∃ id, r.2.data = some ⟨id, List.replicate r.2.cap none⟩ ∧ needed ≤ r.2.cap ∧
        r.2.cap ≤ maxRequest)) := by
  unfold lineReserve
  rw [if_neg (Nat.not_le.mpr h0)]
  obtain ⟨k, hk, hneed, -, h1⟩ := doubled_enough hn (by decide : 0 < 2147483648)
  refine Meets.lift hk (Meets.seq (Meets.request ?_ ?_))
  · intro id w1 _ hkle hw1
    rw [Nat.mod_eq_of_lt h1] at hkle
    rw [Nat.mod_eq_of_lt h1, Nat.div_one]
    exact Meets.pure ⟨Or.inl ⟨rfl, hw1⟩, fun _ => ⟨id, rfl, hneed, hkle⟩⟩
  · intro w1 hw1
    exact Meets.pure ⟨Or.inr ⟨rfl, by omega⟩, fun hf => absurd hf (by simp)⟩

/-! ### Edits -/

/-- **`line_insert_char`** -/
theorem lineInsertChar_spec (h : l.Holds (u ++ v)) (c : UInt8) :
    Meets (lineInsertChar l u.length c) w (fun r w' => Outcome w w' r.1 ∧
      (r.1 = true → r.2.Holds (u ++ c :: v)) ∧ (r.1 = false → r.2 = l)) := by
  have hlen : l.len = u.length + v.length := h.len.trans List.length_append
  have hmax := h.length_lt
  unfold maxRequest at hmax
  rw [List.length_append] at hmax
  unfold lineInsertChar
  rw [if_neg (by omega), Nat.mod_eq_of_lt (by omega)]
  refine Meets.bind (lineReserve_spec h (by omega) (by rw [List.length_append]; omega)) ?_
  rintro ⟨ok, l'⟩ w' ⟨ho, hgrown, hsame⟩
  cases ok with
  | false =>
    exact Meets.pure ⟨ho, fun hf => absurd hf (by simp), hsame⟩
  | true =>
    obtain ⟨h', hcap⟩ := hgrown rfl
    obtain ⟨id, rest, hd, hsize⟩ := h'.data
    have hlen' := h'.len
    simp only [List.length_append] at hsize hlen' hcap
    obtain ⟨x, rest, rfl⟩ : ∃ x rest', rest = x :: rest' := by
      cases rest with
      | nil => simp only [List.length_nil] at hsize; omega
      | cons x rest => exact ⟨x, rest, rfl⟩
    -- the tail and the terminator, one place up
    have hcells : (⟨id, (u ++ v).map some ++ some 0 :: x :: rest⟩ : Block UInt8).cells =
        u.map some ++ ((v.map some ++ [some 0]) ++ (x :: rest)) := by
      simp
    have hcells' : ∃ y ys, (⟨id, (u ++ v).map some ++ some 0 :: x :: rest⟩ : Block UInt8).cells =
        (u.map some ++ [y]) ++ (ys ++ rest) ∧ ys.length = v.length + 1 := by
      cases v with
      | nil => exact ⟨some 0, [x], by simp, rfl⟩
      | cons b v => exact ⟨some b, v.map some ++ [some 0, x], by simp, by simp⟩
    obtain ⟨y, ys, hdst, hys⟩ := hcells'
    have hcopy := Block.copy_mid (j := u.length + 1) (i := u.length) (n := v.length + 1) hdst hcells
      (by simp) (by simp) (by simp) hys
    have hset := Block.set_mid (i := u.length) c
      (show (⟨id, u.map some ++ [y] ++ ((v.map some ++ [some 0]) ++ rest)⟩ : Block UInt8).cells =
        u.map some ++ y :: (v.map some ++ some 0 :: rest) by simp) (by simp)
    have hn : l'.len - u.length + 1 = v.length + 1 := by omega
    simp only [if_true]
    rw [hd, hn]
    refine Meets.lift rfl (Meets.lift hcopy (Meets.lift hset (Meets.pure
      ⟨ho, fun _ => ⟨⟨id, rest, ?_, ?_⟩, ?_, h'.cap⟩, fun hf => absurd hf (by simp)⟩)))
    · simp
    · simp only [List.length_append, List.length_cons] at hsize ⊢
      omega
    · simp only [List.length_append, List.length_cons]
      omega

/-- **`line_delete_char`** -/
theorem lineDeleteChar_spec {a : UInt8} (h : l.Holds (u ++ a :: v)) :
    Meets (lineDeleteChar l u.length) w (fun r w' => w'.refusals = w.refusals ∧ r.1 = true ∧
      r.2.Holds (u ++ v)) := by
  have hlen : l.len = u.length + (v.length + 1) := h.len.trans List.length_append
  obtain ⟨id, rest, hd, hsize⟩ := h.data
  simp only [List.length_append, List.length_cons] at hsize
  have hsrc : (⟨id, (u ++ a :: v).map some ++ some 0 :: rest⟩ : Block UInt8).cells =
      (u.map some ++ [some a]) ++ ((v.map some ++ [some 0]) ++ rest) := by
    simp
  -- the cells from the erased character on
  have hdst : ∃ ys y, (⟨id, (u ++ a :: v).map some ++ some 0 :: rest⟩ : Block UInt8).cells =
      u.map some ++ (ys ++ (y :: rest)) ∧ ys.length = v.length + 1 :=
    ⟨some a :: v.map some, some 0, by simp, by simp⟩
  obtain ⟨ys, y, hdst, hys⟩ := hdst
  have hcopy := Block.copy_mid (j := u.length) (i := u.length + 1) (n := v.length + 1) hdst hsrc
    (by simp) (by simp) (by simp) hys
  have hn : l.len - u.length = v.length + 1 := by omega
  unfold lineDeleteChar
  rw [if_neg (by omega), hd, hn]
  refine Meets.lift rfl
    (Meets.lift hcopy (Meets.pure ⟨rfl, rfl, ⟨id, y :: rest, ?_, ?_⟩, ?_, h.cap⟩))
  · simp
  · simp only [List.length_append, List.length_cons]
    omega
  · simp only [List.length_append]
    omega

/-- **`line_split`** -/
theorem lineSplit_spec (h : l.Holds (u ++ v)) :
    Meets (lineSplit l u.length) w (fun r w' => Outcome w w' r.1 ∧
      (r.1 = true → r.2.1.Holds u ∧ r.2.2.Holds v) ∧ (r.1 = false → r.2.1 = l)) := by
  have hlen : l.len = u.length + v.length := h.len.trans List.length_append
  have hmax := h.length_lt
  unfold maxRequest at hmax
  rw [List.length_append] at hmax
  obtain ⟨id, rest, hd, hsize⟩ := h.data
  simp only [List.length_append] at hsize
  have hn : l.len - u.length = v.length := by omega
  unfold lineSplit
  rw [if_neg (by omega)]
  simp only [hn]
  rw [Nat.mod_eq_of_lt (by omega)]
  refine Meets.bind (lineReserve_new (by omega) (by omega)) ?_
  rintro ⟨ok, l'⟩ w' ⟨ho, hnew⟩
  cases ok with
  | false => exact Meets.pure ⟨ho, fun hf => absurd hf (by simp), fun _ => rfl⟩
  | true =>
    obtain ⟨id', hd', hcap, hmax'⟩ := hnew rfl
    simp only at hcap hmax' hd'
    obtain ⟨k, hk⟩ : ∃ k, l'.cap = v.length + (k + 1) := ⟨l'.cap - v.length - 1, by omega⟩
    have hdst : (⟨id', List.replicate l'.cap none⟩ : Block UInt8).cells =
        [] ++ (List.replicate v.length none ++ none :: List.replicate k none) := by
      rw [hk, ← List.replicate_append_replicate, List.replicate_succ]
      rfl
    have hsrc : (⟨id, (u ++ v).map some ++ some 0 :: rest⟩ : Block UInt8).cells =
        u.map some ++ (v.map some ++ some 0 :: rest) := by
      simp
    have hcopy := Block.copy_mid (j := 0) (i := u.length) (n := v.length) hdst hsrc rfl (by simp)
      (by simp) (by simp)
    have hset := Block.set_mid (i := v.length) (0 : UInt8)
      (show (⟨id', [] ++ (v.map some ++ none :: List.replicate k none)⟩ : Block UInt8).cells =
        v.map some ++ none :: List.replicate k none from rfl) (by simp)
    have hcut : ∃ x xs, (⟨id, (u ++ v).map some ++ some 0 :: rest⟩ : Block UInt8).cells =
        u.map some ++ x :: xs ∧ xs.length = v.length + rest.length := by
      cases v with
      | nil => exact ⟨some 0, rest, by simp, by simp⟩
      | cons b v => exact ⟨some b, v.map some ++ some 0 :: rest, by simp, by simp; omega⟩
    obtain ⟨x, xs, hcut, hxs⟩ := hcut
    have hset' := Block.set_mid (i := u.length) (0 : UInt8) hcut (by simp)
    simp only [if_true]
    rw [hd', hd]
    refine Meets.lift rfl (Meets.lift rfl (Meets.lift hcopy (Meets.lift hset (Meets.lift hset'
      (Meets.pure ⟨ho, fun _ => ⟨⟨⟨id, xs, rfl, ?_⟩, rfl, h.cap⟩, ⟨⟨id', _, rfl, ?_⟩, rfl, hmax'⟩⟩,
        fun hf => absurd hf (by simp)⟩)))))
    · show _ = l.cap
      omega
    · rw [List.length_replicate]
      show _ = l'.cap
      omega

/-- **`line_join`** -/
theorem lineJoin_spec {l' : Line} (h : l.Holds u) (h' : l'.Holds v) :
    Meets (lineJoin l l') w (fun r w' => Outcome w w' r.1 ∧
      (r.1 = true → r.2.Holds (u ++ v)) ∧ (r.1 = false → r.2 = l)) := by
  have hmax := h.length_lt
  have hmax' := h'.length_lt
  unfold maxRequest at hmax hmax'
  have hlen := h.len
  have hlen' := h'.len
  have hsum : (l.len + l'.len) % 4294967296 = u.length + v.length := by
    rw [Nat.mod_eq_of_lt (by omega), hlen, hlen']
  unfold lineJoin
  simp only [hsum]
  rw [Nat.mod_eq_of_lt (by omega)]
  refine Meets.bind (lineReserve_spec h (by omega) (by omega)) ?_
  rintro ⟨ok, l1⟩ w' ⟨ho, hgrown, hsame⟩
  cases ok with
  | false => exact Meets.pure ⟨ho, fun hf => absurd hf (by simp), hsame⟩
  | true =>
    obtain ⟨h1, hcap⟩ := hgrown rfl
    simp only at h1 hcap
    obtain ⟨id, rest, hd, hsize⟩ := h1.data
    obtain ⟨id', rest', hd', -⟩ := h'.data
    have hlen1 := h1.len
    -- the terminator and the cells for `v`, and one more
    obtain ⟨x, xs, hrest, hxs⟩ : ∃ x xs, some 0 :: rest = xs ++ x :: rest.drop v.length ∧
        xs.length = v.length := by
      have hroom : v.length ≤ rest.length := by omega
      have hne : 0 < ((some (0 : UInt8) :: rest).drop v.length).length := by
        rw [List.length_drop, List.length_cons]
        omega
      obtain ⟨x, ys, hxy⟩ := List.exists_cons_of_length_pos hne
      refine ⟨x, (some 0 :: rest).take v.length, ?_, ?_⟩
      · have hys : ys = rest.drop v.length := by
          have := congrArg List.tail hxy
          rwa [List.tail_drop, List.drop_succ_cons, List.tail_cons, eq_comm] at this
        rw [← hys, ← hxy, List.take_append_drop]
      · rw [List.length_take, List.length_cons]
        omega
    have hdst : (⟨id, u.map some ++ some 0 :: rest⟩ : Block UInt8).cells =
        u.map some ++ (xs ++ x :: rest.drop v.length) := by
      rw [← hrest]
    have hsrc : (⟨id', v.map some ++ some 0 :: rest'⟩ : Block UInt8).cells =
        [] ++ (v.map some ++ some 0 :: rest') := rfl
    have hcopy := Block.copy_mid (j := u.length) (i := 0) (n := v.length) hdst hsrc (by simp) rfl
      (by simp) hxs
    have hset := Block.set_mid (i := u.length + v.length) (0 : UInt8)
      (show (⟨id, u.map some ++ (v.map some ++ x :: rest.drop v.length)⟩ : Block UInt8).cells =
        (u ++ v).map some ++ x :: rest.drop v.length by simp) (by simp)
    simp only [if_true]
    rw [hd, hd', hlen1, hlen']
    refine Meets.lift rfl
      (Meets.lift rfl (Meets.lift hcopy (Meets.lift hset (Meets.pure ⟨ho, fun _ =>
      ⟨⟨id, _, rfl, ?_⟩, ?_, h1.cap⟩, fun hf => absurd hf (by simp)⟩))))
    · rw [List.length_append, List.length_drop]
      show _ = l1.cap
      omega
    · exact List.length_append.symm

end
end CobraOS.Snake
