import CobraOS.Keyboard.Model

/-!
# The keyboard ring is a lossless queue

The invariant `Inv` says what the ring holds and, for each place in `keyboard_get_char`, what has
been read so far: an interrupt writes to the slot of `key_head` only, which is not the one that is
being read.
-/

namespace CobraOS.Keyboard

open Base

/-- What the kernel has read is still so. -/
def Reading (r : Ring) : Consumer → Prop
  | .idle => True
  | .hasHead => True
  | .hasTail _ => True
  | .getHead => r.head ≠ r.tail
  | .getTail head => r.head ≠ r.tail ∧ head ≠ r.tail
  | .getIndex => r.head ≠ r.tail
  | .getSlot index => r.head ≠ r.tail ∧ index = r.tail
  | .getNext c => r.head ≠ r.tail ∧ c = r.buffer r.tail
  | .getStore c tail => r.head ≠ r.tail ∧ c = r.buffer r.tail ∧ tail = r.tail

structure Inv (s : State) : Prop where
  head : s.ring.head < 256
  tail : s.ring.tail < 256
  fifo : returned s ++ held s.ring = accepted s
  reading : Reading s.ring s.consumer

variable {s s' : State} {r : Ring} {c : UInt8}

/-! ### The ring -/

/-- A character that is put into the ring comes last, in a slot that is not the first. -/
theorem bufferPut_true (hh : r.head < 256) (ht : r.tail < 256) {r' : Ring}
    (h : bufferPut r c = (true, r')) : held r' = held r ++ [c] ∧ r'.head < 256 ∧ r'.tail = r.tail ∧
      r'.head ≠ r.tail ∧ (r.head ≠ r.tail → r'.buffer r.tail = r.buffer r.tail) := by
  unfold bufferPut at h
  dsimp only at h
  by_cases hfull : (r.head + 1) % kbBufferSize = r.tail
  · rw [if_pos hfull] at h
    cases h
  rw [if_neg hfull] at h
  cases h
  unfold kbBufferSize at hfull
  have hcount :
      (((r.head + 1) % 256 + 256 - r.tail) % 256) = (r.head + 256 - r.tail) % 256 + 1 := by omega
  have hslot : r.head = (r.tail + (r.head + 256 - r.tail) % 256) % 256 := by omega
  refine ⟨?_, Nat.mod_lt _ (by decide), rfl, hfull, fun hne => Function.update_of_ne hne.symm _ _⟩
  have hput := ringList_put r.buffer r.tail c (show (r.head + 256 - r.tail) % 256 < 256 by omega)
  rw [← hslot] at hput
  simp only [held, count, kbBufferSize, hcount]
  exact hput

/-- **A character is refused only when 255 are held.** -/
theorem bufferPut_false (hh : r.head < 256) (ht : r.tail < 256) {r' : Ring}
    (h : bufferPut r c = (false, r')) : (held r).length = 255 ∧
      r' = { r with overflow := true } := by
  unfold bufferPut at h
  dsimp only at h
  by_cases hfull : (r.head + 1) % kbBufferSize = r.tail
  · rw [if_pos hfull] at h
    cases h
    unfold kbBufferSize at hfull
    refine ⟨?_, rfl⟩
    simp only [held, count, ringList_length, kbBufferSize]
    omega
  · rw [if_neg hfull] at h
    cases h

theorem held_take (hh : r.head < 256) (ht : r.tail < 256) (hne : r.head ≠ r.tail) :
    held r = r.buffer r.tail :: held { r with tail := (r.tail + 1) % kbBufferSize } := by
  have hcount : (r.head + 256 - r.tail) % 256 = (r.head + 256 - (r.tail + 1) % 256) % 256 + 1 := by
    omega
  simp only [held, count, kbBufferSize]
  rw [hcount, ringList_take ht]

/-! ### The steps -/

theorem Reading.put {k : Consumer} (h : Reading r k) (hh : r.head < 256) (ht : r.tail < 256)
    {r' : Ring} (hput : bufferPut r c = (true, r')) : Reading r' k := by
  obtain ⟨-, -, htail, hne, hslot⟩ := bufferPut_true hh ht hput
  cases k <;> simp only [Reading, htail] at h ⊢ <;> grind

theorem Reading.flag {k : Consumer} (h : Reading r k) (b : Bool) :
    Reading { r with overflow := b } k := by
  cases k <;> exact h

/-- What a step that says `e` adds to what has been returned and accepted. -/
theorem returned_log (ring : Ring) (k : Consumer) (e : Event) :
    returned ⟨ring, k, s.log ++ [e]⟩ = returned s ++ e.got?.toList := by
  cases h : e.got? <;> simp [returned, h]

theorem accepted_log (ring : Ring) (k : Consumer) (e : Event) :
    accepted ⟨ring, k, s.log ++ [e]⟩ = accepted s ++ e.accepted?.toList := by
  cases h : e.accepted? <;> simp [accepted, h]

theorem Inv.put (h : Inv s) (c : UInt8) : Inv (put s c) := by
  unfold Keyboard.put
  rcases hput : bufferPut s.ring c with ⟨ok, ring⟩
  cases ok with
  | true =>
    obtain ⟨hheld, hhead, htail, -, -⟩ := bufferPut_true h.head h.tail hput
    refine ⟨hhead, htail ▸ h.tail, ?_, h.reading.put h.head h.tail hput⟩
    rw [returned_log, accepted_log, ← h.fifo, hheld]
    simp [Event.got?, Event.accepted?]
  | false =>
    obtain ⟨-, rfl⟩ := bufferPut_false h.head h.tail hput
    refine ⟨h.head, h.tail, ?_, h.reading.flag true⟩
    rw [returned_log, accepted_log, ← h.fifo]
    simp [Event.got?, Event.accepted?]
    rfl

theorem Inv.silent (h : Inv s) {k : Consumer} (hk : Reading s.ring k) :
    Inv { s with consumer := k } :=
  ⟨h.head, h.tail, h.fifo, hk⟩

theorem Inv.access (h : Inv s) (ha : access s = some s') : Inv s' := by
  have hreading := h.reading
  unfold Keyboard.access at ha
  cases hk : s.consumer with
  | idle =>
    rw [hk] at ha
    cases ha
  | hasHead =>
    rw [hk] at ha
    cases ha
    exact h.silent trivial
  | hasTail head =>
    rw [hk] at ha
    cases ha
    refine ⟨h.head, h.tail, ?_, trivial⟩
    rw [returned_log, accepted_log, ← h.fifo]
    simp [Event.got?, Event.accepted?]
  | getHead =>
    rw [hk] at ha hreading
    cases ha
    exact h.silent ⟨hreading, hreading⟩
  | getTail head =>
    rw [hk] at ha hreading
    dsimp only at ha
    rw [if_neg hreading.2] at ha
    cases ha
    exact h.silent hreading.1
  | getIndex =>
    rw [hk] at ha hreading
    cases ha
    exact h.silent ⟨hreading, rfl⟩
  | getSlot index =>
    rw [hk] at ha hreading
    cases ha
    exact h.silent ⟨hreading.1, congrArg s.ring.buffer hreading.2⟩
  | getNext c =>
    rw [hk] at ha hreading
    cases ha
    exact h.silent ⟨hreading.1, hreading.2, rfl⟩
  | getStore c tail =>
    rw [hk] at ha hreading
    cases ha
    obtain ⟨hne, hc, ht⟩ := hreading
    refine ⟨h.head, Nat.mod_lt _ (by decide), ?_, trivial⟩
    rw [returned_log, accepted_log, ← h.fifo, held_take h.head h.tail hne, ← hc, ht]
    simp [Event.got?, Event.accepted?]

/-- **One step**, of the interrupt handler or of the kernel. -/
theorem Inv.step (h : Inv s) {l : Step} (hs : step s l = some s') : Inv s' := by
  cases l with
  | put c =>
    cases hs
    exact h.put c
  | cleanup =>
    cases hs
    unfold cleanup
    split
    · exact h
    · exact ⟨h.head, h.tail, h.fifo, h.reading.flag false⟩
  | has =>
    unfold Keyboard.step at hs
    cases hk : s.consumer with
    | idle =>
      rw [hk] at hs
      cases hs
      exact h.silent trivial
    | _ =>
      rw [hk] at hs
      cases hs
  | get =>
    unfold Keyboard.step at hs
    cases hk : s.consumer with
    | idle =>
      rw [hk] at hs
      dsimp only at hs
      by_cases hc : hasChar s.ring
      · rw [if_pos hc] at hs
        cases hs
        exact h.silent (by simpa [Reading, hasChar] using hc)
      · rw [if_neg hc] at hs
        cases hs
    | _ =>
      rw [hk] at hs
      cases hs
  | access => exact h.access hs

theorem inv_reach (h : system.Reach s) : Inv s := by
  refine h.induct (fun s hi => ?_) (fun _ _ _ hs hstep => hs.step hstep)
  obtain ⟨hhead, htail, -, hk, hlog⟩ := hi
  refine ⟨by rw [hhead]; decide, by rw [htail]; decide, ?_, by rw [hk]; trivial⟩
  simp [returned, accepted, hlog, held, count, hhead, htail, ringList, kbBufferSize]

/-- **The keyboard ring is a lossless queue.** -/
theorem keyboard_fifo (h : system.Reach s) :
    returned s ++ held s.ring = accepted s ∧ s.ring.head < 256 ∧ s.ring.tail < 256 ∧
      ∀ c, (bufferPut s.ring c).1 = false → (accepted s).length = (returned s).length + 255 := by
  have hinv := inv_reach h
  refine ⟨hinv.fifo, hinv.head, hinv.tail, fun c hc => ?_⟩
  obtain ⟨hlen, -⟩ := bufferPut_false (c := c) (r := s.ring) hinv.head hinv.tail (Prod.ext hc rfl)
  rw [← hinv.fifo, List.length_append, hlen]

/-- A character comes while the kernel is getting another one. -/
theorem keyboard_fifo_interrupted :
    ∃ s₁ s₂ s₃, step ⟨⟨fun _ => 0, 0, 0, false⟩, .idle, []⟩ (.put 97) = some s₁ ∧
    step s₁ .get = some s₂ ∧ step s₂ (.put 98) = some s₃ ∧
      returned s₃ ++ held s₃.ring = accepted s₃ ∧ s₃.ring.head < 256 ∧ s₃.ring.tail < 256 ∧
      ∀ c, (bufferPut s₃.ring c).1 = false → (accepted s₃).length = (returned s₃).length + 255 := by
  obtain ⟨s₁, s₂, s₃, h₁, h₂, h₃⟩ : ∃ s₁ s₂ s₃,
      step ⟨⟨fun _ => 0, 0, 0, false⟩, .idle, []⟩ (.put 97) = some s₁ ∧ step s₁ .get = some s₂ ∧
      step s₂ (.put 98) = some s₃ := ⟨_, _, _, rfl, rfl, rfl⟩
  have hr₀ : system.Reach ⟨⟨fun _ => 0, 0, 0, false⟩, .idle, []⟩ := .init ⟨rfl, rfl, rfl, rfl, rfl⟩
  have hr₃ : system.Reach s₃ := ((hr₀.step h₁).step h₂).step h₃
  exact ⟨s₁, s₂, s₃, h₁, h₂, h₃, keyboard_fifo hr₃⟩

end CobraOS.Keyboard
