import CobraOS.Interrupts.Pic

/-!
# Lines and their interrupts

Between two interrupts nothing is in service (`Board.Ready`), whatever is masked: the dispatcher
ends the service of each line, the EOI that `keyboard_handler` sends before it finds nothing else to
end, and a spurious interrupt needs none (`Board.Ready.interrupted`).
-/

namespace CobraOS.Interrupts

open Base

variable {σ : Type} {k k' k'' : Kernel σ} {i : Interrupt} {table : SyscallTable}

/-! ### What is written to the ports of the chips -/

/-- A write to a port of one of the chips. -/
def onPic (o : Screen.Out) : Bool :=
  o.port == 0x20 || o.port == 0x21 || o.port == 0xA0 || o.port == 0xA1

theorem out_other {pic : Pic.Pair} {port : Nat} {v : UInt8} (h : onPic ⟨port, v⟩ = false) :
    pic.out port v = pic := by
  unfold onPic at h
  simp only [Bool.or_eq_false_iff, beq_eq_false_iff_ne] at h
  obtain ⟨⟨⟨h₁, h₂⟩, h₃⟩, h₄⟩ := h
  unfold Pic.Pair.out
  rw [if_neg h₁, if_neg h₂, if_neg h₃, if_neg h₄]

theorem replay_filter (pic : Pic.Pair) (outs : List Screen.Out) :
    replay pic outs = replay pic (outs.filter onPic) := by
  unfold replay
  induction outs generalizing pic with
  | nil => rfl
  | cons o outs ih =>
    cases h : onPic o with
    | true =>
      rw [List.filter_cons_of_pos h, List.foldl_cons, List.foldl_cons]
      exact ih _
    | false =>
      rw [List.filter_cons_of_neg (by simp [h]), List.foldl_cons, out_other h]
      exact ih _

/-- What a part of the dispatcher writes to the chips. -/
def Writes (k k' : Kernel σ) (outs : List Screen.Out) : Prop :=
  ∃ all, k'.screen.ports = k.screen.ports ++ all ∧ all.filter onPic = outs

theorem Writes.refl (h : k'.screen.ports = k.screen.ports) : Writes k k' [] :=
  ⟨[], by rw [h, List.append_nil], rfl⟩

theorem Writes.trans {outs outs' : List Screen.Out} (h : Writes k k' outs)
    (h' : Writes k' k'' outs') :
    Writes k k'' (outs ++ outs') := by
  obtain ⟨all, hports, rfl⟩ := h
  obtain ⟨all', hports', rfl⟩ := h'
  exact ⟨all ++ all', by rw [hports', hports, List.append_assoc], List.filter_append ..⟩

theorem Writes.outb {port : Nat} {v : UInt8} (h : onPic ⟨port, v⟩ = true) :
    Writes k (k.outb port v) [⟨port, v⟩] := ⟨[⟨port, v⟩], rfl, List.filter_cons_of_pos h⟩

theorem cprint_ports (s : Screen.State) (c : UInt8) :
    ∃ all, (Screen.cprint s c).ports = s.ports ++ all ∧ all.filter onPic = [] := by
  unfold Screen.cprint Screen.setCursorOffset Screen.moveHardwareCursor Screen.outb
  simp only
  rw [keepCursor_ports, putChar_ports]
  refine ⟨_, by simp only [List.append_assoc]; rfl, ?_⟩
  rfl

theorem vprint_writes (text : Screen.Bytes) (k : Kernel σ) :
    Writes k { k with screen := Screen.vprint k.screen text } [] := by
  unfold Writes Screen.vprint
  dsimp only
  generalize k.screen = s
  induction text generalizing s with
  | nil => exact ⟨[], (List.append_nil _).symm, rfl⟩
  | cons c text ih =>
    obtain ⟨all, hports, hnone⟩ := cprint_ports s c
    obtain ⟨all', hports', hnone'⟩ := ih (Screen.cprint s c)
    refine ⟨all ++ all', ?_, ?_⟩
    · rw [List.foldl_cons, hports', hports, List.append_assoc]
    · rw [List.filter_append, hnone, hnone']
      rfl

theorem keyboardHandler_writes (h : keyboardHandler k i = some k') :
    Writes k k' [⟨pic1Cmd, picEoi⟩] := by
  have hwrite : ∀ k₁ : Kernel σ, Writes k k₁ [] → Writes k
      { k₁ with
        keyboard := (Keyboard.keyboardHandler k.keyboard i.port).1
        screen := { k₁.screen with ports := k₁.screen.ports ++ [⟨0x20, 0x20⟩] } }
          [⟨pic1Cmd, picEoi⟩] :=
    fun k₁ h₁ => Writes.trans h₁ ⟨[⟨pic1Cmd, picEoi⟩], rfl, rfl⟩
  unfold keyboardHandler at h
  cases h
  split
  · exact hwrite k (.refl rfl)
  · exact hwrite _ (vprint_writes _ k)

/-- Handlers that do no port I/O but for those of the timer and of the keyboard. -/
theorem callHandler_writes {handlers : Nat → Option (Handler σ)} (ht : KernelTable handlers)
    {irq : Nat} (h : callHandler handlers k i irq = some k') :
    Writes k k' (if irq = 1 then [⟨pic1Cmd, picEoi⟩] else []) := by
  unfold callHandler at h
  by_cases hpit : irq = 0
  · subst hpit
    rw [ht.pit] at h
    obtain ⟨sys, -, he⟩ := Option.bind_eq_some_iff.mp h
    cases he
    exact .refl rfl
  by_cases hkeyboard : irq = 1
  · subst hkeyboard
    rw [ht.keyboard] at h
    exact keyboardHandler_writes h
  rw [if_neg hkeyboard]
  cases hh : handlers irq with
  | some handler =>
    rw [hh] at h
    exact .refl (ht.quiet irq handler hpit hkeyboard hh k i k' h)
  | none =>
    rw [hh] at h
    cases h
    have hfirst : Writes k (k.viprint "Unhandled IRQ ") [] := vprint_writes _ k
    have hnumber := hfirst.trans (vprint_writes (hexString irq ++ [10]) _)
    exact hnumber.trans (vprint_writes _ _)

/-- **A line that is in service**: its handler is called, and its service is ended. -/
theorem handleIrq_writes {handlers : Nat → Option (Handler σ)} (ht : KernelTable handlers)
    {irq : Nat} (h : handleIrq handlers k i irq = some k') : Writes k k'
      ((if irq = 1 then [⟨pic1Cmd, picEoi⟩] else []) ++
        (if 8 ≤ irq then [⟨pic2Cmd, picEoi⟩] else []) ++
        [⟨pic1Cmd, picEoi⟩]) := by
  obtain ⟨k₁, hcall, rfl⟩ := Option.map_eq_some_iff.mp h
  refine ((callHandler_writes ht hcall).trans ?_).trans (.outb rfl)
  split
  · exact .outb rfl
  · exact .refl rfl

/-- The reads of the lines in service. -/
def isrReads : List Screen.Out := [⟨pic1Cmd, picReadIsrCmd⟩, ⟨pic2Cmd, picReadIsrCmd⟩]

theorem picReadIsr_writes (k : Kernel σ) (i : Interrupt) : Writes k (picReadIsr k i).1 isrReads :=
  have hfirst : Writes k (k.outb pic1Cmd picReadIsrCmd) [⟨pic1Cmd, picReadIsrCmd⟩] := .outb rfl
  hfirst.trans (.outb rfl)

/-- What the dispatcher writes for a line that is in service. -/
def served (irq : Nat) : List Screen.Out :=
  (if irq = 7 ∨ irq = 15 then isrReads else []) ++
    ((if irq = 1 then [⟨pic1Cmd, picEoi⟩] else []) ++
      (if 8 ≤ irq then [⟨pic2Cmd, picEoi⟩] else []) ++
      [⟨pic1Cmd, picEoi⟩])

/-- **A genuine interrupt of a line.** -/
theorem irqDispatch_writes {handlers : Nat → Option (Handler σ)} (ht : KernelTable handlers)
    {irq : Nat} (hirq : irqOf i = some irq) (hgenuine : spurious i irq = false)
    (h : irqDispatch handlers k i = some k') :
    Writes k k' (served irq) := by
  obtain ⟨hlt, hmod, -⟩ := irqOf_some hirq
  unfold irqDispatch at h
  rw [hmod] at h
  dsimp only at h
  rw [if_neg (by unfold irqCount; omega)] at h
  unfold served
  by_cases hlast : irq = 7 ∨ irq = 15
  · have hne : ¬ (picReadIsr k i).2 &&& (1 <<< UInt16.ofNat irq) = 0 := by
      rw [spurious_iff hlast, hgenuine]
      exact Bool.false_ne_true
    rw [if_pos hlast, if_neg hne] at h
    rw [if_pos hlast]
    exact (picReadIsr_writes k i).trans (handleIrq_writes ht h)
  · rw [if_neg hlast] at h
    rw [if_neg hlast]
    exact handleIrq_writes ht h

/-- **A spurious interrupt of line 7** changes nothing but the log of port writes. -/
theorem irqDispatch_spurious {handlers : Nat → Option (Handler σ)} (hirq : irqOf i = some 7)
    (hspurious : spurious i 7 = true) : irqDispatch handlers k i = some (picReadIsr k i).1 := by
  obtain ⟨-, hmod, -⟩ := irqOf_some hirq
  unfold irqDispatch
  rw [hmod]
  dsimp only
  rw [if_neg (by decide), if_pos (.inl rfl), if_pos ((spurious_iff (.inl rfl)).mpr hspurious),
    if_neg (by decide)]

/-! ### Ends of service -/

/-- A chip after the initialization, with these lines in service. -/
structure ChipAt (c : Pic.Chip) (offset : UInt8) (mask service : BitVec 8) : Prop where
  phase : c.phase = .ready
  offset : c.offset = offset
  mask : c.mask = mask
  service : c.service = service

/-- Both chips after `remap`, with masks and the lines in service. -/
structure PairAt (p : Pic.Pair) (mask₁ mask₂ service₁ service₂ : BitVec 8) : Prop where
  master : ChipAt p.master 0x20 mask₁ service₁
  slave : ChipAt p.slave 0x28 mask₂ service₂

/-- **The board is ready**: nothing is in service, and the handlers are there. -/
structure Board.Ready (b : Board σ) (mask₁ mask₂ : BitVec 8) : Prop where
  pic : PairAt b.pic mask₁ mask₂ 0 0
  handlers : KernelTable b.handlers
  idt : b.idtLoaded = true

section

variable {c : Pic.Chip} {p : Pic.Pair} {l : Nat} {offset : UInt8}
    {mask mask₁ mask₂ w w₁ w₂ : BitVec 8} {b b' : Board σ}

theorem ChipAt.eoi (h : ChipAt c offset mask (Pic.insertLine 0 l)) (hl : l < 8) :
    ChipAt (c.command picEoi) offset mask 0 := by
  have hcommand : c.command picEoi = { c with service := 0 } := by
    have hfirst : Pic.first c.service = some l := by rw [h.service, Pic.first_insert_zero hl]
    refine (Pic.Chip.command_end hfirst).trans ?_
    rw [h.service, Pic.erase_insert_zero hl]
  rw [hcommand]
  exact ⟨h.phase, h.offset, h.mask, rfl⟩

theorem ChipAt.command_eoi (h : ChipAt c offset mask 0) : c.command picEoi = c :=
  Pic.Chip.command_end_none (Pic.first_none.mpr h.service)

theorem ChipAt.eoi_none (h : ChipAt c offset mask 0) : ChipAt (c.command picEoi) offset mask 0 := by
  rw [h.command_eoi]
  exact h

theorem replay_append (pic : Pic.Pair) (outs outs' : List Screen.Out) :
    replay pic (outs ++ outs') = replay (replay pic outs) outs' := List.foldl_append

theorem PairAt.reads (h : PairAt p mask₁ mask₂ w₁ w₂) :
    PairAt (replay p isrReads) mask₁ mask₂ w₁ w₂ :=
  ⟨⟨h.master.phase, h.master.offset, h.master.mask, h.master.service⟩,
    ⟨h.slave.phase, h.slave.offset, h.slave.mask, h.slave.service⟩⟩

theorem PairAt.readsIf (h : PairAt p mask₁ mask₂ w₁ w₂) (q : Prop) [Decidable q] :
    PairAt (replay p (if q then isrReads else [])) mask₁ mask₂ w₁ w₂ := by
  split
  · exact h.reads
  · exact h

/-- **A line of the first chip** is not in service any more after its interrupt, also when its
handler sends an EOI itself. -/
theorem PairAt.served_master (h : PairAt p mask₁ mask₂ (Pic.insertLine 0 l) 0) (hl : l < 8) :
    PairAt (replay p (served l)) mask₁ mask₂ 0 0 := by
  unfold served
  rw [replay_append, if_neg (c := 8 ≤ l) (by omega), List.append_nil, replay_append]
  have h := h.readsIf (l = 7 ∨ l = 15)
  generalize replay p (if l = 7 ∨ l = 15 then isrReads else []) = q at h
  split
  · exact ⟨(h.master.eoi hl).eoi_none, h.slave⟩
  · exact ⟨h.master.eoi hl, h.slave⟩

/-- **A line of the second chip.** -/
theorem PairAt.served_slave (h : PairAt p mask₁ mask₂ (Pic.insertLine 0 2) (Pic.insertLine 0 l))
    (hl : l < 8) :
    PairAt (replay p (served (8 + l))) mask₁ mask₂ 0 0 := by
  unfold served
  rw [replay_append, if_neg (c := 8 + l = 1) (by omega), if_pos (c := 8 ≤ 8 + l) (by omega),
    List.nil_append]
  have h := h.readsIf (8 + l = 7 ∨ 8 + l = 15)
  generalize replay p (if 8 + l = 7 ∨ 8 + l = 15 then isrReads else []) = q at h
  exact ⟨h.master.eoi (by decide), h.slave.eoi hl⟩

/-! ### Acknowledging -/

theorem ChipAt.acknowledge (h : ChipAt c offset mask 0) (hl : c.asks = some l) :
    c.acknowledge.1 = l ∧ ChipAt c.acknowledge.2 offset mask (Pic.insertLine 0 l) := by
  unfold Pic.Chip.acknowledge
  rw [hl]
  exact ⟨rfl, h.phase, h.offset, h.mask, by rw [h.service]⟩

theorem PairAt.cascaded (h : PairAt p mask₁ mask₂ w₁ w₂) : ChipAt p.cascaded 0x20 mask₁ w₁ :=
  ⟨h.master.phase, h.master.offset, h.master.mask, h.master.service⟩

/-- **What is acknowledged** when nothing is in service. -/
theorem PairAt.acknowledge (h : PairAt p mask₁ mask₂ 0 0) :
    (∃ l < 8, p.asked = some l ∧ p.acknowledge.1.toNat = 32 + l ∧
      PairAt p.acknowledge.2 mask₁ mask₂ (Pic.insertLine 0 l) 0) ∨
    (∃ l < 8, p.asked = some (8 + l) ∧ p.acknowledge.1.toNat = 40 + l ∧
      PairAt p.acknowledge.2 mask₁ mask₂ (Pic.insertLine 0 2) (Pic.insertLine 0 l)) ∨
    (p.asked = none ∧ p.acknowledge = (39, p)) := by
  have hvector : ∀ k < 8, ((0x20 : UInt8) + UInt8.ofNat k).toNat = 32 + k ∧
      ((0x28 : UInt8) + UInt8.ofNat k).toNat = 40 + k := by decide
  have hcascaded := h.cascaded
  cases hasks : p.cascaded.asks with
  | none =>
    obtain ⟨hack, hasked⟩ := Pic.Pair.acknowledge_none hasks
    refine .inr (.inr ⟨hasked, ?_⟩)
    rw [hack, h.master.offset]
    rfl
  | some l =>
    have hl := (Pic.Chip.asks_some hasks).1
    by_cases htwo : l = 2
    · subst htwo
      obtain ⟨l, hl⟩ := Pic.Pair.slave_asks hasks
      have hlt := (Pic.Chip.asks_some hl).1
      obtain ⟨hfst, hsnd⟩ := h.slave.acknowledge hl
      obtain ⟨hack, hasked⟩ := Pic.Pair.acknowledge_two hasks
      rw [hl, Option.map_some] at hasked
      rw [hack]
      refine .inr (.inl ⟨l, hlt, hasked, ?_, (hcascaded.acknowledge hasks).2, hsnd⟩)
      dsimp only
      rw [hfst, hsnd.offset]
      exact (hvector l hlt).2
    · obtain ⟨hack, hasked⟩ := Pic.Pair.acknowledge_line hasks htwo
      rw [hack]
      refine .inl ⟨l, hl, hasked, ?_, (hcascaded.acknowledge hasks).2, h.slave⟩
      dsimp only
      rw [h.master.offset]
      exact (hvector l hl).1

/-! ### Interrupts -/

theorem Writes.replay {outs : List Screen.Out} (h : Writes k k' outs) (p : Pic.Pair) :
    Interrupts.replay p (k'.screen.ports.drop k.screen.ports.length) =
      Interrupts.replay p outs := by
  obtain ⟨all, hports, rfl⟩ := h
  rw [hports, List.drop_left, replay_filter]

theorem irqOf_vector {vector : UInt8} (hno : i.regs.intNo = vector.toUInt32) {irq : Nat}
    (hvector : vector.toNat = 32 + irq) (hirq : irq < 16) : irqOf i = some irq := by
  have hnat : i.regs.intNo.toNat = 32 + irq := by
    rw [hno, UInt8.toNat_toUInt32, hvector]
  unfold irqOf
  rw [hnat, if_pos (by omega), Nat.add_sub_cancel_left]

theorem interruptDispatch_irq {handlers : Nat → Option (Handler σ)} {irq : Nat}
    (hirq : irqOf i = some irq) {r : Registers}
    (h : interruptDispatch handlers table k i = some (k', r)) :
    irqDispatch handlers k i = some k' := by
  obtain ⟨hlt, -, hno⟩ := irqOf_some hirq
  unfold interruptDispatch at h
  dsimp only at h
  have hexception : ¬ i.regs.intNo < 32 := by
    rw [UInt32.lt_iff_toNat_lt, hno]
    show ¬ irq + 32 < 32
    omega
  have hrange : irqBase ≤ i.regs.intNo ∧ i.regs.intNo < irqBase + UInt32.ofNat irqCount := by
    rw [UInt32.le_iff_toNat_le, UInt32.lt_iff_toNat_lt, hno]
    show 32 ≤ irq + 32 ∧ irq + 32 < 48
    omega
  rw [if_neg hexception, if_pos hrange] at h
  obtain ⟨k₁, hk, he⟩ := Option.map_eq_some_iff.mp h
  cases he
  exact hk

/-- What an interrupt was: a line that was asked for and gets its handler, or nothing. -/
inductive Cause (b : Board σ) (i : Interrupt) (b' : Board σ) : Prop
  | line (irq : Nat) (hirq : irqOf i = some irq) (asked : b.pic.asked = some irq)
      (genuine : spurious i irq = false)
      (dispatched : irqDispatch b.handlers b.kernel i = some b'.kernel)
  | nothing (hirq : irqOf i = some 7) (asked : b.pic.asked = none) (spurious : spurious i 7 = true)
      (kernel : b'.kernel = (picReadIsr b.kernel i).1)

/-- What is read of a chip that has its last line in service, and of one that has nothing. -/
theorem status_last (h : ChipAt c offset mask w) :
    ({ c with readsService := true } : Pic.Chip).status &&& 0x80 = 0 ↔
    w.getLsbD 7 = false := by
  have hall : ∀ n : Fin (2 ^ 8), ((⟨⟨n⟩⟩ : UInt8) &&& 0x80 = 0) ↔
      (⟨n⟩ : BitVec 8).getLsbD 7 = false := by
    decide +kernel
  show ((⟨c.service⟩ : UInt8) &&& 0x80 = 0) ↔ _
  rw [h.service]
  exact hall w.toFin

theorem inp_master (p : Pic.Pair) : (p.out pic1Cmd picReadIsrCmd).inp pic1Cmd =
    ({ p.master with readsService := true } : Pic.Chip).status := rfl

theorem inp_slave (p : Pic.Pair) :
    ((p.out pic1Cmd picReadIsrCmd).out pic2Cmd picReadIsrCmd).inp pic2Cmd =
    ({ p.slave with readsService := true } : Pic.Chip).status := rfl

/-- **One interrupt**: the board is ready again, and the interrupt had a cause. -/
theorem Board.Ready.interrupted (h : b.Ready mask₁ mask₂) (hi : b.interrupted table i b') :
    b'.Ready mask₁ mask₂ ∧ Cause b i b' := by
  unfold Board.interrupted at hi
  obtain ⟨hno, hpic₁, hpic₂, k', r, hdispatch, rfl⟩ := hi
  rw [inp_master] at hpic₁
  rw [inp_slave] at hpic₂
  obtain ⟨l, hl, hasked, hvector, hat⟩ | ⟨l, hl, hasked, hvector, hat⟩ | ⟨hasked, hack⟩ :=
    h.pic.acknowledge
  · have hirq := irqOf_vector hno hvector (by omega)
    have hgenuine : spurious i l = false := by
      have hlast := status_last hat.master
      unfold spurious
      by_cases hseven : l = 7
      · subst hseven
        have hne : i.pic1 &&& 0x80 ≠ 0 := fun hz => Bool.noConfusion (hlast.mp (hpic₁ ▸ hz))
        simp [hne]
      · simp [hseven, show l ≠ 15 by omega]
    have hk := interruptDispatch_irq hirq hdispatch
    refine ⟨⟨?_, h.handlers, h.idt⟩, .line l hirq hasked hgenuine hk⟩
    rw [(irqDispatch_writes h.handlers hirq hgenuine hk).replay]
    exact hat.served_master hl
  · have hirq : irqOf i = some (8 + l) := irqOf_vector hno (by omega) (by omega)
    have hgenuine : spurious i (8 + l) = false := by
      have hlast := status_last hat.slave
      unfold spurious
      by_cases hseven : l = 7
      · subst hseven
        have hne : i.pic2 &&& 0x80 ≠ 0 := fun hz => Bool.noConfusion (hlast.mp (hpic₂ ▸ hz))
        simp [hne]
      · simp [show 8 + l ≠ 7 by omega, show 8 + l ≠ 15 by omega]
    have hk := interruptDispatch_irq hirq hdispatch
    refine ⟨⟨?_, h.handlers, h.idt⟩, .line (8 + l) hirq hasked hgenuine hk⟩
    rw [(irqDispatch_writes h.handlers hirq hgenuine hk).replay]
    exact hat.served_slave hl
  · rw [hack] at hno hpic₁ hpic₂
    have hirq : irqOf i = some 7 := irqOf_vector hno rfl (by omega)
    have hspurious : spurious i 7 = true := by
      have hz : i.pic1 &&& 0x80 = 0 := hpic₁ ▸ (status_last h.pic.master).mpr rfl
      simp [spurious, hz]
    have hk := interruptDispatch_irq hirq hdispatch
    rw [irqDispatch_spurious hirq hspurious] at hk
    cases hk
    refine ⟨⟨?_, h.handlers, h.idt⟩, .nothing hirq hasked hspurious rfl⟩
    rw [hack, (picReadIsr_writes b.kernel i).replay]
    exact h.pic.reads

/-- **The interrupt of a key**: its service is the only one, the EOI of `keyboard_handler` ends it,
and that of the dispatcher finds nothing to end. -/
theorem Board.Ready.key_interrupted (h : b.Ready mask₁ mask₂) (hirq : irqOf i = some 1)
    (hi : b.interrupted table i b') :
    Writes b.kernel b'.kernel [⟨pic1Cmd, picEoi⟩, ⟨pic1Cmd, picEoi⟩] ∧
      PairAt b.pic.acknowledge.2 mask₁ mask₂ (Pic.insertLine 0 1) 0 ∧
      b'.pic = b.pic.acknowledge.2.out pic1Cmd picEoi := by
  obtain ⟨-, hcause⟩ := h.interrupted hi
  cases hcause with
  | nothing hseven asked spurious kernel =>
    rw [hirq] at hseven
    cases hseven
  | line irq hirq' asked genuine dispatched =>
    obtain rfl : irq = 1 := Option.some.inj (hirq'.symm.trans hirq)
    have hwrites := irqDispatch_writes h.handlers hirq genuine dispatched
    have hat : PairAt b.pic.acknowledge.2 mask₁ mask₂ (Pic.insertLine 0 1) 0 := by
      obtain ⟨l, hl, hasked, -, hat⟩ | ⟨l, hl, hasked, -, -⟩ | ⟨hasked, -⟩ := h.pic.acknowledge
      · obtain rfl : 1 = l := Option.some.inj (asked.symm.trans hasked)
        exact hat
      · have : 1 = 8 + l := Option.some.inj (asked.symm.trans hasked)
        omega
      · rw [asked] at hasked
        cases hasked
    refine ⟨hwrites, hat, ?_⟩
    obtain ⟨-, -, -, k', r, -, rfl⟩ := hi
    have htwice := (hat.master.eoi (by decide)).command_eoi
    rw [hwrites.replay]
    show ({ b.pic.acknowledge.2 with
      master := (b.pic.acknowledge.2.master.command picEoi).command picEoi } : Pic.Pair) = _
    rw [htwice]
    rfl

end

end CobraOS.Interrupts
