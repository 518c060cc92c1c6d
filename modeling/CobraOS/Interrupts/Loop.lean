import CobraOS.Interrupts.Start

/-!
# Interrupts while the kernel runs

After `kernel` has started it runs its loop: it works, it turns interrupts on and off, and
interrupts come.  The controllers remain as the start left them.  What the dispatcher writes to them
takes back no request, and an acknowledgement only the one of its line
(`Board.Ready.requested_interrupted`), so the interrupts of a line are counted against the times
that its device raised it (`handled_le`), and a request is kept until its interrupt
(`handled_or_requested`).
-/

namespace CobraOS.Interrupts

open Base

variable {σ : Type} {table : SyscallTable} {b b' : Board σ} {mask₁ mask₂ : BitVec 8}
    {i : Interrupt} {j : Nat}

/-! ### One interrupt -/

/-- The commands that the dispatcher sends to the chips. -/
def IsCommand (o : Screen.Out) : Prop :=
  (o.port = pic1Cmd ∨ o.port = pic2Cmd) ∧ (o.value = picReadIsrCmd ∨ o.value = picEoi)

theorem replay_requested {outs : List Screen.Out} (h : ∀ o ∈ outs, IsCommand o) (p : Pic.Pair)
    (j : Nat) :
    (replay p outs).requested j = p.requested j := by
  have hcommand : ∀ (c : Pic.Chip) (v : UInt8), v = picReadIsrCmd ∨ v = picEoi →
      (c.command v).requests = c.requests := by
    rintro c v (rfl | rfl)
    · rfl
    · exact c.command_end_requests
  induction outs generalizing p with
  | nil => rfl
  | cons o outs ih =>
    obtain ⟨⟨hport, hvalue⟩, h⟩ := List.forall_mem_cons.mp h
    refine (ih h (p.out o.port o.value)).trans ?_
    unfold Pic.Pair.requested
    rcases hport with hport | hport
    · rw [hport]
      show (if j < 8 then (p.master.command o.value).requests.getLsbD j else _) = _
      rw [hcommand p.master o.value hvalue]
      rfl
    · rw [hport]
      show (if j < 8 then _ else (p.slave.command o.value).requests.getLsbD (j - 8)) = _
      rw [hcommand p.slave o.value hvalue]
      rfl

theorem served_commands (irq : Nat) : ∀ o ∈ served irq, IsCommand o := by
  have heoi₁ : IsCommand ⟨pic1Cmd, picEoi⟩ := ⟨.inl rfl, .inr rfl⟩
  have heoi₂ : IsCommand ⟨pic2Cmd, picEoi⟩ := ⟨.inr rfl, .inr rfl⟩
  have hread₁ : IsCommand ⟨pic1Cmd, picReadIsrCmd⟩ := ⟨.inl rfl, .inl rfl⟩
  have hread₂ : IsCommand ⟨pic2Cmd, picReadIsrCmd⟩ := ⟨.inr rfl, .inl rfl⟩
  intro o ho
  unfold served isrReads at ho
  split_ifs at ho <;> simp at ho <;> grind

theorem Cause.handles_iff (h : Cause b i b') : (irqOf i = some j ∧ spurious i j = false) ↔
    b.pic.asked = some j := by
  cases h with
  | line irq hirq hasked hgenuine hdispatched =>
    rw [hirq, hasked]
    exact ⟨fun h => h.1, fun h => ⟨h, Option.some.inj h ▸ hgenuine⟩⟩
  | nothing hirq hasked hspurious hkernel =>
    rw [hirq, hasked]
    refine ⟨fun ⟨h, hgenuine⟩ => ?_, fun h => by cases h⟩
    cases h
    rw [hspurious] at hgenuine
    cases hgenuine

/-- **An interrupt takes back just the request of its line.** -/
theorem Board.Ready.requested_interrupted (h : b.Ready mask₁ mask₂) (hi : b.interrupted table i b')
    (hj : j < 16) (htwo : j ≠ 2) :
    b'.pic.requested j = (b.pic.requested j && decide (b.pic.asked ≠ some j)) := by
  obtain ⟨-, hcause⟩ := h.interrupted hi
  have hwrites : ∃ outs, Writes b.kernel b'.kernel outs ∧ ∀ o ∈ outs, IsCommand o := by
    cases hcause with
    | line irq hirq hasked hgenuine hdispatched =>
      exact ⟨served irq, irqDispatch_writes h.handlers hirq hgenuine hdispatched,
        served_commands irq⟩
    | nothing hirq hasked hspurious hkernel =>
      refine ⟨isrReads, ?_, fun o ho => ?_⟩
      · rw [hkernel]
        exact picReadIsr_writes b.kernel i
      · exact served_commands 7 o (List.mem_append_left _ ho)
  obtain ⟨outs, hwrites, hcommands⟩ := hwrites
  obtain ⟨-, -, -, k, r, -, rfl⟩ := hi
  rw [hwrites.replay, replay_requested hcommands, Pic.Pair.requested_acknowledge hj htwo]

/-! ### Runs -/

/-- What happens while the kernel runs: an event, work that does not touch the chips, and `sti` or
`cli`. -/
inductive Act (σ : Type)
  | event (e : Event)
  | work (f : Kernel σ → Kernel σ)
  | ints (on : Bool)

def Board.act (table : SyscallTable) (b : Board σ) (a : Act σ) (b' : Board σ) : Prop :=
  match a with
  | .event e => b.step table e b'
  | .work f => b' = { b with kernel := f b.kernel }
  | .ints on => b' = { b with accepts := on }

/-- The kernel after its start. -/
def loop (σ : Type) (table : SyscallTable) : System (Board σ) (Act σ) where
  init := Stage true kernelHandlers true (0xFC, 0xFF)
  step := Board.act table

/-- The interrupt of a line. -/
def Act.handles (j : Nat) : Act σ → Bool
  | .event (.interrupt i) => irqOf i == some j && !spurious i j
  | _ => false

/-- The device of a line raises it. -/
def Act.raises (j : Nat) : Act σ → Bool
  | .event (.raise l) => l == j
  | _ => false

/-- The device of a line takes its request back. -/
def Act.drops (j : Nat) : Act σ → Bool
  | .event (.drop l) => l == j
  | _ => false

/-- How often a line was handled. -/
def handled (j : Nat) (l : List (Act σ)) : Nat := l.countP (Act.handles j)

/-- How often a line was raised. -/
def raised (j : Nat) (l : List (Act σ)) : Nat := l.countP (Act.raises j)

theorem Board.Ready.act (h : b.Ready mask₁ mask₂) {a : Act σ} (ha : b.act table a b') :
    b'.Ready mask₁ mask₂ := by
  cases a with
  | event e => exact h.step ha
  | work f =>
    cases ha
    exact ⟨h.pic, h.handlers, h.idt⟩
  | ints on =>
    cases ha
    exact ⟨h.pic, h.handlers, h.idt⟩

/-- **One step**: a request is new when the line was raised, and it ends with the interrupt of the
line or when the device drops it. -/
theorem Board.Ready.requested_act (h : b.Ready mask₁ mask₂) {a : Act σ} (ha : b.act table a b')
    (hj : j < 16) (htwo : j ≠ 2) :
    b'.pic.requested j = ((b.pic.requested j || a.raises j) && !a.handles j &&
      !a.drops j) ∧ (a.handles j = true → b.pic.requested j = true) := by
  cases a with
  | event e =>
    cases e with
    | raise l =>
      obtain ⟨hl, rfl⟩ := ha
      refine ⟨?_, fun hf => by cases hf⟩
      rw [Pic.Pair.requested_raise hl]
      simp only [Act.handles, Act.raises, Act.drops, Bool.not_false, Bool.and_true]
      rw [decide_eq_decide.mpr (show j = l ↔ l = j from eq_comm), beq_eq_decide]
    | drop l =>
      obtain ⟨hl, rfl⟩ := ha
      refine ⟨?_, fun hf => by cases hf⟩
      rw [Pic.Pair.requested_drop hl hj]
      simp only [Act.handles, Act.raises, Act.drops, Bool.not_false, Bool.and_true, Bool.or_false]
      rw [decide_eq_decide.mpr (show j ≠ l ↔ ¬ l = j from ne_comm), beq_eq_decide, decide_not]
    | interrupt i =>
      obtain ⟨-, hi⟩ := ha
      have hiff : Act.handles j (.event (.interrupt i) : Act σ) = true ↔ b.pic.asked = some j := by
        rw [← (h.interrupted hi).2.handles_iff]
        simp [Act.handles]
      refine ⟨?_, fun hasked => (Pic.Pair.asked_some (hiff.mp hasked)).2.2.1⟩
      rw [h.requested_interrupted hi hj htwo]
      simp only [Act.raises, Act.drops, Bool.not_false, Bool.and_true, Bool.or_false]
      rw [decide_not, ← Bool.decide_coe (Act.handles j _), decide_eq_decide.mpr hiff]
  | work f =>
    cases ha
    simp [Act.handles, Act.raises, Act.drops]
  | ints on =>
    cases ha
    simp [Act.handles, Act.raises, Act.drops]

theorem Board.Ready.run (h : b.Ready mask₁ mask₂) {l : List (Act σ)}
    (hrun : (loop σ table).Run b l b') : b'.Ready mask₁ mask₂ :=
  hrun.induct (P := fun b => Board.Ready b mask₁ mask₂) (fun _ _ _ h ha => h.act ha) h

/-- The table of handlers stays. -/
theorem handlers_run {l : List (Act σ)} (hrun : (loop σ table).Run b l b') :
    b'.handlers = b.handlers := by
  refine hrun.induct (P := fun c => c.handlers = b.handlers) (fun c a c' hc ha => ?_) rfl
  cases a with
  | event e =>
    cases e with
    | raise l => exact ha.2 ▸ hc
    | drop l => exact ha.2 ▸ hc
    | interrupt i =>
      obtain ⟨-, -, -, -, k, r, -, rfl⟩ := ha
      exact hc
  | work f => exact ha ▸ hc
  | ints on => exact ha ▸ hc

/-- **No interrupt without a request**: a line is handled at most as often as it was raised. -/
theorem handled_le (h : b.Ready mask₁ mask₂) {l : List (Act σ)} (hrun : (loop σ table).Run b l b')
    (hj : j < 16) (htwo : j ≠ 2) :
    handled j l + (b'.pic.requested j).toNat ≤ raised j l + (b.pic.requested j).toNat := by
  induction hrun with
  | nil b => exact Nat.le_refl _
  | cons hstep hrest ih =>
    rename_i b b₁ b' a l
    have hle := ih (h.act hstep)
    obtain ⟨hrequested, hhandles⟩ := h.requested_act hstep hj htwo
    have hone : (a.handles j).toNat + (b₁.pic.requested j).toNat ≤
        (a.raises j).toNat + (b.pic.requested j).toNat := by
      rw [hrequested]
      cases hh : a.handles j with
      | true =>
        rw [hhandles hh]
        simp
      | false => cases a.raises j <;> cases b.pic.requested j <;> cases a.drops j <;> decide
    have hcount : ∀ p : Act σ → Bool, (a :: l).countP p = l.countP p + (p a).toNat := fun p => by
      rw [List.countP_cons]
      cases p a <;> rfl
    unfold handled raised at *
    rw [hcount, hcount]
    omega

/-- **A request is kept** until the interrupt of its line, unless its device takes it back. -/
theorem handled_or_requested (h : b.Ready mask₁ mask₂) {l : List (Act σ)}
    (hrun : (loop σ table).Run b l b') (hj : j < 16) (htwo : j ≠ 2)
    (hdrop : ∀ a ∈ l, a.drops j = false) (hrequested : b.pic.requested j = true) :
    0 < handled j l ∨ b'.pic.requested j = true := by
  induction hrun with
  | nil b => exact .inr hrequested
  | cons hstep hrest ih =>
    rename_i b b₁ b' a l
    obtain ⟨hkeeps, hdrop⟩ := List.forall_mem_cons.mp hdrop
    unfold handled at ih ⊢
    cases hh : a.handles j with
    | true =>
      left
      rw [List.countP_cons_of_pos hh]
      exact Nat.succ_pos _
    | false =>
      rw [List.countP_cons_of_neg (by rw [hh]; exact Bool.false_ne_true)]
      refine ih (h.act hstep) hdrop ?_
      rw [(h.requested_act hstep hj htwo).1, hrequested, hh, hkeeps]
      rfl

/-- A line that was raised in a run is requested until it is handled. -/
theorem raised_served (h : b.Ready mask₁ mask₂) {l₁ l₂ : List (Act σ)} {j : Nat} (hj : j < 2)
    (hrun : (loop σ table).Run b (l₁ ++ .event (.raise j) :: l₂) b')
    (hdrop : ∀ a ∈ l₂, a.drops j = false) : 0 < handled j l₂ ∨ b'.pic.requested j = true := by
  obtain ⟨b₁, hfirst, hsecond⟩ := hrun.split
  cases hsecond with
  | cons hstep hrest =>
    obtain ⟨hl, rfl⟩ := hstep
    have hb₁ := h.run hfirst
    have hraised : Board.Ready { b₁ with pic := b₁.pic.raise j } mask₁ mask₂ :=
      ⟨hb₁.pic.raise j, hb₁.handlers, hb₁.idt⟩
    refine handled_or_requested hraised hrest (by omega) (by omega) hdrop ?_
    rw [Pic.Pair.requested_raise hl]
    simp

/-- While one of the two lines is requested, an interrupt is of it or of the line before it. -/
theorem Board.Ready.requested_first (h : b.Ready 0xFC 0xFF) {j : Nat} (hj : j < 2)
    (hrequested : b.pic.requested j = true) {i : Interrupt} {b'' : Board σ}
    (hi : b.step table (.interrupt i) b'') :
    ∃ k ≤ j, irqOf i = some k ∧ b.pic.requested k = true := by
  have hopens : b.pic.opens j = true := by
    unfold Pic.Pair.opens Pic.Pair.masked
    rw [h.pic.master.mask, h.pic.slave.mask]
    obtain rfl | rfl : j = 0 ∨ j = 1 := by omega
    · decide
    · decide
  obtain ⟨k, hasked, hrank⟩ := Pic.Pair.asked_rank h.pic.master.service h.pic.slave.service
    (by omega) (by omega) hrequested hopens
  refine ⟨k, ?_, ?_, (Pic.Pair.asked_some hasked).2.2.1⟩
  · unfold Pic.rank at hrank
    split_ifs at hrank <;> omega
  · exact ((h.interrupted hi.2).2.handles_iff.mpr hasked).1

/-! ### The kernel -/

theorem Stage.ready (h : Stage true kernelHandlers true (mask₁, mask₂) b) : b.Ready mask₁ mask₂ :=
  ⟨h.pic, h.handlers ▸ kernelHandlers_table, h.idt⟩

/-- **Interrupts while the kernel runs**, in every order of its steps and of events.  An interrupt
is a tick, a key or spurious, and no service outlasts it.  A key's interrupt gets two EOIs: the
chips are then as after the first, which ends the service of the key, so the second ends no other.
A line is handled at most as often as its device raised it, and after it was raised it is requested
until it is handled, or dropped; and while it is requested, an interrupt is of that line or of one
before it. -/
theorem lines_served (h : Stage true kernelHandlers true (0xFC, 0xFF) b) {l : List (Act σ)}
    (hrun : (loop σ table).Run b l b') :
    (∀ i b'', b'.step table (.interrupt i) b'' → Known b' i b'') ∧
    (b'.pic.master.service = 0 ∧ b'.pic.slave.service = 0) ∧
    (∀ i b'', b'.step table (.interrupt i) b'' → irqOf i = some 1 →
      Writes b'.kernel b''.kernel [⟨pic1Cmd, picEoi⟩, ⟨pic1Cmd, picEoi⟩] ∧
      b'.pic.acknowledge.2.master.service = Pic.insertLine 0 1 ∧
        b'.pic.acknowledge.2.slave.service = 0 ∧
      b''.pic = b'.pic.acknowledge.2.out pic1Cmd picEoi) ∧ ∀ j < 2,
      handled j l + (b'.pic.requested j).toNat ≤ raised j l + (b.pic.requested j).toNat ∧
      (∀ l₁ l₂, l = l₁ ++ .event (.raise j) :: l₂ → (∀ a ∈ l₂, a.drops j = false) →
        0 < handled j l₂ ∨ b'.pic.requested j = true) ∧
      (b'.pic.requested j = true → ∀ i b'', b'.step table (.interrupt i) b'' →
        ∃ k ≤ j, irqOf i = some k ∧ b'.pic.requested k = true) := by
  have hb' := h.ready.run hrun
  have hstage : Stage b'.accepts kernelHandlers true (0xFC, 0xFF) b' :=
    ⟨rfl, (handlers_run hrun).trans h.handlers, hb'.idt, hb'.pic⟩
  refine ⟨fun i b'' hi => (hb'.interrupted hi.2).2.known hstage (by decide),
    ⟨hb'.pic.master.service, hb'.pic.slave.service⟩, fun i b'' hi hirq => ?_,
      fun j hj => ⟨?_, ?_, ?_⟩⟩
  · obtain ⟨hwrites, hat, hpic⟩ := hb'.key_interrupted hirq hi.2
    exact ⟨hwrites, hat.master.service, hat.slave.service, hpic⟩
  · exact handled_le h.ready hrun (by omega) (by omega)
  · rintro l₁ l₂ rfl hdrop
    exact raised_served h.ready hj hrun hdrop
  · exact fun hrequested i b'' hi => hb'.requested_first hj hrequested hi

/-- The key `A`, whose line is the only one in service. -/
def keyInterrupt : Interrupt := { interruptOf 33 0x1E with pic1 := 2 }

/-- The key is pressed twice, and its second interrupt has still to come. -/
theorem lines_served_key : ∃ b b' : Board Unit, ∃ l : List (Act Unit),
    (loop Unit fun _ => none).Run b l b' ∧
    handled 1 l = 1 ∧ raised 1 l = 2 ∧ b'.pic.requested 1 = true ∧
    (∃ b'', b'.step (fun _ => none) (.interrupt keyInterrupt) b'') ∧
    (∀ i b'', b'.step (fun _ => none) (.interrupt i) b'' → Known b' i b'') ∧
    (b'.pic.master.service = 0 ∧ b'.pic.slave.service = 0) ∧
    (∀ i b'', b'.step (fun _ => none) (.interrupt i) b'' → irqOf i = some 1 →
      Writes b'.kernel b''.kernel [⟨pic1Cmd, picEoi⟩, ⟨pic1Cmd, picEoi⟩] ∧
      b'.pic.acknowledge.2.master.service = Pic.insertLine 0 1 ∧
        b'.pic.acknowledge.2.slave.service = 0 ∧
      b''.pic = b'.pic.acknowledge.2.out pic1Cmd picEoi) ∧ ∀ j < 2,
      handled j l + (b'.pic.requested j).toNat ≤ raised j l + (b.pic.requested j).toNat ∧
      (∀ l₁ l₂, l = l₁ ++ .event (.raise j) :: l₂ → (∀ a ∈ l₂, a.drops j = false) →
        0 < handled j l₂ ∨ b'.pic.requested j = true) ∧
      (b'.pic.requested j = true → ∀ i b'', b'.step (fun _ => none) (.interrupt i) b'' →
        ∃ k ≤ j, irqOf i = some k ∧ b'.pic.requested k = true) := by
  have hraise : startedBoard.act (fun _ => none) (.event (.raise 1))
      { startedBoard with pic := startedBoard.pic.raise 1 } := ⟨by decide, rfl⟩
  have hdispatch : ∀ k : Kernel Unit, ∃ k' r,
      interruptDispatch kernelHandlers (fun _ => none) k keyInterrupt = some (k', r) :=
        fun k => ⟨_, _, rfl⟩
  have hkey : ∀ b : Board Unit, Stage true kernelHandlers true (0xFC, 0xFF) b →
      b.pic = startedBoard.pic.raise 1 →
      ∃ b', b.act (fun _ => none) (.event (.interrupt keyInterrupt)) b' ∧
        b'.pic = startedBoard.pic ∧
        Stage true kernelHandlers true (0xFC, 0xFF) b' := by
    intro b hstage hpic
    obtain ⟨k, r, hk⟩ := hdispatch b.kernel
    rw [← hstage.handlers] at hk
    have hi : b.interrupted (fun _ => none) keyInterrupt { b with
        kernel := k
        pic := replay b.pic.acknowledge.2 (k.screen.ports.drop b.kernel.screen.ports.length) } := by
      refine ⟨?_, ?_, ?_, k, r, hk, rfl⟩
      all_goals rw [hpic]; rfl
    have hready := (hstage.ready.interrupted hi).1
    refine ⟨_, ⟨hstage.accepts, hi⟩, ?_, hstage.accepts, hstage.handlers, hready.idt, hready.pic⟩
    rw [(hstage.ready.key_interrupted rfl hi).2.2, hpic]
    rfl
  have hraised : Stage true kernelHandlers true (0xFC, 0xFF)
      { startedBoard with pic := startedBoard.pic.raise 1 } := 
    have h := startedBoard_stage
    ⟨h.accepts, h.handlers, h.idt, h.pic.raise 1⟩
  obtain ⟨b₁, hfirst, hpic, hstage⟩ := hkey _ hraised rfl
  have hraisedAgain :
      Stage true kernelHandlers true (0xFC, 0xFF) { b₁ with pic := b₁.pic.raise 1 } :=
    ⟨hstage.accepts, hstage.handlers, hstage.idt, hstage.pic.raise 1⟩
  obtain ⟨b₂, hsecond, -⟩ := hkey _ hraisedAgain (by rw [hpic])
  have hagain : b₁.act (fun _ => none) (.event (.raise 1)) { b₁ with pic := b₁.pic.raise 1 } :=
    ⟨by decide, rfl⟩
  have hrun : (loop Unit fun _ => none).Run startedBoard
      [.event (.raise 1), .event (.interrupt keyInterrupt), .event (.raise 1)]
      { b₁ with pic := b₁.pic.raise 1 } := .cons hraise (.cons hfirst (.cons hagain (.nil _)))
  refine ⟨startedBoard, _, _, hrun, rfl, rfl, ?_, ⟨b₂, hsecond⟩,
    lines_served startedBoard_stage hrun⟩
  show (b₁.pic.raise 1).requested 1 = true
  rw [Pic.Pair.requested_raise (by decide)]
  simp

end CobraOS.Interrupts
