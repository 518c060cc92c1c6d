import CobraOS.Interrupts.Model

/-!
# Ends of interrupts

The dispatcher sends an end of interrupt (EOI) after the handler, to the slave too for its lines,
and none for a spurious interrupt but the one that the master has to get for line 15
(`dispatch_eois`).  `keyboard_handler` sends one itself, so the master gets two for the keyboard,
and every other interrupt has what it should (`eois_iff`).
-/

namespace CobraOS.Interrupts

variable {σ : Type} {k k' : Kernel σ} {i : Interrupt} {handlers : Nat → Option (Handler σ)}
    {table : SyscallTable}

/-- The EOIs that the master has got. -/
def masterEois (k : Kernel σ) : Nat := k.screen.ports.count ⟨pic1Cmd, picEoi⟩

/-- The EOIs that the slave has got. -/
def slaveEois (k : Kernel σ) : Nat := k.screen.ports.count ⟨pic2Cmd, picEoi⟩

/-- The line of an interrupt, if it is one of a PIC. -/
def irqOf (i : Interrupt) : Option Nat :=
  if 32 ≤ i.regs.intNo.toNat ∧ i.regs.intNo.toNat < 48 then some (i.regs.intNo.toNat - 32) else none

/-- An interrupt of line 7 or 15 is spurious when its PIC does not have it in service. -/
def spurious (i : Interrupt) (irq : Nat) : Bool :=
  (irq == 7 && i.pic1 &&& 0x80 == 0) || (irq == 15 && i.pic2 &&& 0x80 == 0)

/-- The EOIs that an interrupt should cause, at the master and at the slave. -/
def expected (i : Interrupt) : Nat × Nat :=
  match irqOf i with
  | none => (0, 0)
  | some irq =>
    if spurious i irq then (if irq = 15 then 1 else 0, 0) else (1, if 8 ≤ irq then 1 else 0)

/-- An interrupt has caused the EOIs that it should. -/
def Acknowledged (k : Kernel σ) (i : Interrupt) (k' : Kernel σ) : Prop :=
  masterEois k' = masterEois k + (expected i).1 ∧ slaveEois k' = slaveEois k + (expected i).2

/-- The handlers of `kernel`, and others that do no port I/O. -/
structure KernelTable (handlers : Nat → Option (Handler σ)) : Prop where
  pit : handlers 0 = some pitHandler
  keyboard : handlers 1 = some keyboardHandler
  quiet : ∀ irq handler, irq ≠ 0 → irq ≠ 1 → handlers irq = some handler →
    ∀ k i k', handler k i = some k' →
    k'.screen.ports = k.screen.ports

/-! ### What is printed -/

section

variable {s : Screen.State} {out : Screen.Out}

open Screen

theorem fill_ports (s : Screen.State) (i n : Nat) : (fill s i n).ports = s.ports := by
  induction n generalizing s i with
  | zero => rfl
  | succ n ih => exact ih _ _

theorem putChar_ports (s : Screen.State) (c : UInt8) : (putChar s c).ports = s.ports := by
  have hback : (stepBack s).ports = s.ports := by
    unfold stepBack
    split
    · rfl
    · split <;> rfl
  unfold putChar
  split
  · rfl
  split
  · exact hback
  · dsimp only
    split <;> rfl

theorem keepCursor_ports (s : Screen.State) : (keepCursor s).ports = s.ports := by
  have hscroll : (scroll s).ports = s.ports := by
    unfold scroll
    dsimp only
    rw [fill_ports]
    rfl
  have hrows :
      (if screenHeight ≤ s.cursorRow then { scroll s with cursorRow := screenHeight - 1 }
        else s).ports =
      s.ports := by
    split
    · dsimp only
      rw [hscroll]
    · rfl
  unfold keepCursor
  dsimp only
  generalize (if screenHeight ≤ s.cursorRow then { scroll s with cursorRow := screenHeight - 1 }
    else s) = s'
    at hrows ⊢
  split
  · exact hrows
  · exact hrows

theorem cprint_count (hctrl : out.port ≠ screenCtrl) (hdata : out.port ≠ screenData)
    (s : Screen.State) (c : UInt8) : (cprint s c).ports.count out = s.ports.count out := by
  have hnone : ∀ value, Out.mk screenCtrl value ≠ out ∧ Out.mk screenData value ≠ out := by
    intro value
    constructor
    · rintro rfl
      exact hctrl rfl
    · rintro rfl
      exact hdata rfl
  unfold cprint setCursorOffset moveHardwareCursor Screen.outb
  simp only [List.count_append, List.count_singleton, beq_iff_eq, (hnone _).1, (hnone _).2,
    if_false, Nat.add_zero]
  rw [keepCursor_ports, putChar_ports]

theorem vprint_count (hctrl : out.port ≠ screenCtrl) (hdata : out.port ≠ screenData)
    (s : Screen.State) (text : Screen.Bytes) :
    (vprint s text).ports.count out = s.ports.count out := by
  unfold vprint
  induction text generalizing s with
  | nil => rfl
  | cons c text ih => rw [List.foldl_cons, ih, cprint_count hctrl hdata]

end

/-- The EOIs are the same. -/
def SameEois (k k' : Kernel σ) : Prop := masterEois k' = masterEois k ∧ slaveEois k' = slaveEois k

theorem SameEois.trans {k k₁ k₂ : Kernel σ} (h : SameEois k k₁) (h' : SameEois k₁ k₂) :
    SameEois k k₂ :=
  ⟨h'.1.trans h.1, h'.2.trans h.2⟩

theorem vprint_same (k : Kernel σ) (text : Screen.Bytes) :
    SameEois k { k with screen := Screen.vprint k.screen text } :=
  ⟨vprint_count (by decide) (by decide) _ _, vprint_count (by decide) (by decide) _ _⟩

theorem outb_eois (k : Kernel σ) (port : Nat) (value : UInt8) :
    masterEois (k.outb port value) =
      masterEois k + (if port = pic1Cmd ∧ value = picEoi then 1 else 0) ∧
      slaveEois (k.outb port value) =
        slaveEois k + (if port = pic2Cmd ∧ value = picEoi then 1 else 0) := by
  unfold masterEois slaveEois Kernel.outb Screen.outb
  simp [List.count_append, List.count_singleton]

/-! ### Handlers -/

theorem pitHandler_same (h : pitHandler k i = some k') : SameEois k k' := by
  unfold pitHandler at h
  obtain ⟨sys, -, he⟩ := Option.bind_eq_some_iff.mp h
  cases he
  exact ⟨rfl, rfl⟩

/-- **`keyboard_handler` sends an EOI** on each of its paths. -/
theorem keyboardHandler_eois (h : keyboardHandler k i = some k') :
    masterEois k' = masterEois k + 1 ∧ slaveEois k' = slaveEois k := by
  have hcount : ∀ k₁ : Kernel σ, SameEois k k₁ →
      List.count (⟨pic1Cmd, picEoi⟩ : Screen.Out) (k₁.screen.ports ++ [⟨0x20, 0x20⟩]) =
        masterEois k + 1 ∧
      List.count (⟨pic2Cmd, picEoi⟩ : Screen.Out) (k₁.screen.ports ++ [⟨0x20, 0x20⟩]) =
        slaveEois k := by
    rintro k₁ ⟨hmaster, hslave⟩
    rw [List.count_append, List.count_append, ← hmaster, ← hslave]
    exact ⟨rfl, rfl⟩
  unfold keyboardHandler at h
  cases h
  refine hcount _ ?_
  split
  · exact ⟨rfl, rfl⟩
  · exact vprint_same k _

/-! ### Dispatch -/

theorem picSendEoi_eois (k : Kernel σ) (irq : Nat) :
    masterEois (picSendEoi k irq) = masterEois k + 1 ∧
    slaveEois (picSendEoi k irq) = slaveEois k + (if 8 ≤ irq then 1 else 0) := by
  unfold picSendEoi
  split
  · have h₁ := outb_eois k pic2Cmd picEoi
    have h₂ := outb_eois (k.outb pic2Cmd picEoi) pic1Cmd picEoi
    exact ⟨by rw [h₂.1, h₁.1]; rfl, by rw [h₂.2, h₁.2]; rfl⟩
  · have h := outb_eois k pic1Cmd picEoi
    exact ⟨by rw [h.1]; rfl, by rw [h.2]; rfl⟩

/-- A handler that comes back has sent no EOI, unless it is that of the keyboard. -/
theorem callHandler_eois (ht : KernelTable handlers) {irq : Nat}
    (h : callHandler handlers k i irq = some k') :
    masterEois k' = masterEois k + (if irq = 1 then 1 else 0) ∧ slaveEois k' = slaveEois k := by
  unfold callHandler at h
  by_cases hpit : irq = 0
  · rw [hpit, ht.pit] at h
    rw [if_neg (by omega)]
    exact pitHandler_same h
  by_cases hkeyboard : irq = 1
  · rw [hkeyboard, ht.keyboard] at h
    rw [if_pos hkeyboard]
    exact keyboardHandler_eois h
  rw [if_neg hkeyboard]
  cases hirq : handlers irq with
  | none =>
    rw [hirq] at h
    cases h
    exact ((vprint_same k _).trans (vprint_same _ _)).trans (vprint_same _ _)
  | some handler =>
    rw [hirq] at h
    have hports := ht.quiet irq handler hpit hkeyboard hirq k i k' h
    unfold masterEois slaveEois
    rw [hports]
    exact ⟨rfl, rfl⟩

/-- A line whose handler is called gets an EOI from the dispatcher too. -/
theorem handleIrq_eois (ht : KernelTable handlers) {irq : Nat}
    (h : handleIrq handlers k i irq = some k') :
    masterEois k' = masterEois k + 1 + (if irq = 1 then 1 else 0) ∧
      slaveEois k' = slaveEois k + (if 8 ≤ irq then 1 else 0) := by
  obtain ⟨k₁, hcall, rfl⟩ := Option.map_eq_some_iff.mp h
  obtain ⟨hmaster, hslave⟩ := picSendEoi_eois k₁ irq
  obtain ⟨hmaster₁, hslave₁⟩ := callHandler_eois ht hcall
  rw [hmaster, hslave, hmaster₁, hslave₁]
  exact ⟨Nat.add_right_comm _ _ _, rfl⟩

theorem or_and (a b c : UInt16) : (a ||| b) &&& c = (a &&& c) ||| (b &&& c) :=
  UInt16.toBitVec_inj.mp BitVec.and_or_distrib_right

/-- The bit of a line in the word of both PICs is the bit in the byte of its own. -/
theorem inService (pic1 pic2 : UInt8) :
    (((pic2.toUInt16 <<< 8) ||| pic1.toUInt16) &&& ((1 : UInt16) <<< 7) = 0 ↔ pic1 &&& 0x80 = 0) ∧
      (((pic2.toUInt16 <<< 8) ||| pic1.toUInt16) &&& ((1 : UInt16) <<< 15) = 0 ↔
        pic2 &&& 0x80 = 0) := by
  have hslave : ∀ n : Fin 256, ((UInt8.ofNat n).toUInt16 <<< 8) &&& ((1 : UInt16) <<< 7) = 0 ∧
      (((UInt8.ofNat n).toUInt16 <<< 8) &&& ((1 : UInt16) <<< 15) = 0 ↔
        UInt8.ofNat n &&& 0x80 = 0) := by
    decide +kernel
  have hmaster : ∀ n : Fin 256, (UInt8.ofNat n).toUInt16 &&& ((1 : UInt16) <<< 15) = 0 ∧
      ((UInt8.ofNat n).toUInt16 &&& ((1 : UInt16) <<< 7) = 0 ↔ UInt8.ofNat n &&& 0x80 = 0) := by
    decide +kernel
  have h₁ := hmaster ⟨pic1.toNat, pic1.toNat_lt⟩
  have h₂ := hslave ⟨pic2.toNat, pic2.toNat_lt⟩
  simp only [UInt8.ofNat_toNat] at h₁ h₂
  rw [or_and, or_and, h₁.1, h₂.1, UInt16.zero_or, UInt16.or_zero]
  exact ⟨h₁.2, h₂.2⟩

theorem picReadIsr_same (k : Kernel σ) (i : Interrupt) : SameEois k (picReadIsr k i).1 := by
  have h₁ := outb_eois k pic1Cmd picReadIsrCmd
  have h₂ := outb_eois (k.outb pic1Cmd picReadIsrCmd) pic2Cmd picReadIsrCmd
  exact ⟨by rw [picReadIsr, h₂.1, h₁.1]; rfl, by rw [picReadIsr, h₂.2, h₁.2]; rfl⟩

theorem spurious_iff {irq : Nat} (hirq : irq = 7 ∨ irq = 15) :
    (picReadIsr k i).2 &&& (1 <<< UInt16.ofNat irq) = 0 ↔ spurious i irq = true := by
  obtain ⟨hmaster, hslave⟩ := inService i.pic1 i.pic2
  rcases hirq with rfl | rfl
  · simpa [spurious, picReadIsr] using hmaster
  · simpa [spurious, picReadIsr] using hslave

theorem irqOf_some {irq : Nat} (h : irqOf i = some irq) :
    irq < 16 ∧ (i.regs.intNo - irqBase).toNat % 256 = irq ∧ i.regs.intNo.toNat = irq + 32 := by
  unfold irqOf at h
  split at h
  next hrange =>
    cases h
    have hsub : (i.regs.intNo - irqBase).toNat = i.regs.intNo.toNat - 32 := by
      have hle : irqBase.toNat ≤ i.regs.intNo.toNat := hrange.1
      rw [UInt32.toNat_sub_of_le _ _ (UInt32.le_iff_toNat_le.mpr hle)]
      rfl
    omega
  · cases h

/-- **An interrupt of a line** causes the EOIs that it should, and one more if it is the
keyboard's. -/
theorem irqDispatch_eois (ht : KernelTable handlers) {irq : Nat} (hirq : irqOf i = some irq)
    (h : irqDispatch handlers k i = some k') :
    masterEois k' = masterEois k + (expected i).1 + (if irq = 1 then 1 else 0) ∧
      slaveEois k' = slaveEois k + (expected i).2 := by
  obtain ⟨hlt, hmod, -⟩ := irqOf_some hirq
  have hexpected : expected i =
      if spurious i irq then (if irq = 15 then 1 else 0, 0) else (1, if 8 ≤ irq then 1 else 0) := by
    rw [expected, hirq]
  unfold irqDispatch at h
  rw [hmod] at h
  dsimp only at h
  rw [if_neg (by unfold irqCount; omega)] at h
  by_cases hlast : irq = 7 ∨ irq = 15
  · have hsame := picReadIsr_same k i
    rw [if_pos hlast] at h
    by_cases hspurious : spurious i irq = true
    · rw [if_pos ((spurious_iff hlast).mpr hspurious)] at h
      rw [hexpected, if_pos hspurious, if_neg (show ¬ irq = 1 by omega)]
      by_cases hfifteen : irq = 15
      · rw [if_pos hfifteen] at h ⊢
        cases h
        have hout := outb_eois (picReadIsr k i).1 pic1Cmd picEoi
        exact ⟨by rw [hout.1, hsame.1]; rfl, by rw [hout.2, hsame.2]; rfl⟩
      · rw [if_neg hfifteen] at h ⊢
        cases h
        exact hsame
    · rw [if_neg (fun hz => hspurious ((spurious_iff hlast).mp hz))] at h
      rw [hexpected, if_neg hspurious, ← hsame.1, ← hsame.2]
      exact handleIrq_eois ht h
  · rw [if_neg hlast] at h
    have hgenuine : ¬ spurious i irq = true := by
      rw [not_or] at hlast
      simp [spurious, hlast.1, hlast.2]
    rw [hexpected, if_neg hgenuine]
    exact handleIrq_eois ht h

/-- **One interrupt** of any kind. -/
theorem dispatch_eois (ht : KernelTable handlers) {r : Registers}
    (h : interruptDispatch handlers table k i = some (k', r)) :
    masterEois k' = masterEois k + (expected i).1 + (if i.regs.intNo = 33 then 1 else 0) ∧
      slaveEois k' = slaveEois k + (expected i).2 := by
  unfold interruptDispatch at h
  dsimp only at h
  split at h
  · cases h
  split at h
  next hrange =>
    obtain ⟨k₁, hirqDispatch, he⟩ := Option.map_eq_some_iff.mp h
    cases he
    have hbounds : 32 ≤ i.regs.intNo.toNat ∧ i.regs.intNo.toNat < 48 := hrange
    have hirq : irqOf i = some (i.regs.intNo.toNat - 32) := if_pos hbounds
    have hone : i.regs.intNo.toNat - 32 = 1 ↔ i.regs.intNo = 33 := by
      rw [← UInt32.toNat_inj]
      show _ ↔ i.regs.intNo.toNat = 33
      omega
    have := irqDispatch_eois ht hirq hirqDispatch
    simpa only [hone] using this
  next hrange =>
    have hnone : irqOf i = none := if_neg hrange
    have hne : i.regs.intNo ≠ 33 := by
      intro he
      exact hrange (by rw [he]; decide)
    split at h
    · cases h
      rw [expected, hnone, if_neg hne]
      exact ⟨rfl, rfl⟩
    · cases h

/-! ### Sequences of interrupts -/

/-- Interrupts that all come back; after each the kernel goes on until the next. -/
def Returns (handlers : Nat → Option (Handler σ)) (table : SyscallTable) :
    Kernel σ → List (Interrupt × (Kernel σ → Kernel σ)) → Prop
  | _, [] => True
  | k, (i, work) :: rest => ∃ k' r, interruptDispatch handlers table k i = some (k', r) ∧
      Returns handlers table (work k') rest

/-- Each interrupt causes the EOIs that it should. -/
def AllAcknowledged (handlers : Nat → Option (Handler σ)) (table : SyscallTable) :
    Kernel σ → List (Interrupt × (Kernel σ → Kernel σ)) → Prop
  | _, [] => True
  | k, (i, work) :: rest => ∀ k' r, interruptDispatch handlers table k i = some (k', r) →
      Acknowledged k i k' ∧ AllAcknowledged handlers table (work k') rest

/-- **Interrupts cause the EOIs that they should** exactly when none is the keyboard's. -/
theorem eois_iff (ht : KernelTable handlers) {l : List (Interrupt × (Kernel σ → Kernel σ))}
    (h : Returns handlers table k l) : AllAcknowledged handlers table k l ↔
      ∀ e ∈ l, e.1.regs.intNo ≠ 33 := by
  induction l generalizing k with
  | nil => exact ⟨fun _ _ he => absurd he List.not_mem_nil, fun _ => trivial⟩
  | cons e rest ih =>
    obtain ⟨i, work⟩ := e
    obtain ⟨k', r, hdispatch, hreturns⟩ := h
    have heois := dispatch_eois ht hdispatch
    rw [List.forall_mem_cons]
    constructor
    · intro hall
      obtain ⟨hack, hrest⟩ := hall k' r hdispatch
      refine ⟨fun hkeyboard => ?_, (ih hreturns).mp hrest⟩
      rw [if_pos hkeyboard, hack.1] at heois
      omega
    · rintro ⟨hne, hrest⟩ k₁ r₁ hdispatch₁
      rw [hdispatch] at hdispatch₁
      cases hdispatch₁
      rw [if_neg hne] at heois
      exact ⟨heois, (ih hreturns).mpr hrest⟩

/-! ### The handlers of the kernel -/

theorem kernelHandlers_table : KernelTable (kernelHandlers : Nat → Option (Handler σ)) where
  pit := rfl
  keyboard := rfl
  quiet irq handler hpit hkeyboard h := by
    have hnone : Function.update (Function.update (fun _ => none) 0 (some (pitHandler : Handler σ)))
        1
        (some keyboardHandler) irq = none := by
      rw [Function.update_of_ne hkeyboard, Function.update_of_ne hpit]
    exact absurd (hnone.symm.trans h) (by simp)

/-- An empty screen, no key, and no timer. -/
def quietKernel : Kernel Unit where
  screen := ⟨fun _ => 0, 15, 0, 0, [], []⟩
  keyboard := ⟨Keyboard.initKeyboard .qwerty, ⟨fun _ => 0, 0, 0, false⟩⟩
  sys := {
    timers := ⟨fun _ => ⟨0, 0, none, 0, false, none⟩, none, 0⟩
    ticking := false
    pitHz := 100
    sdActive := false
    sdMode := .poweroff
    sdDeadline := 0
    sdMsg := []
    sdDefaultSecs := 600
    printed := []
    stopped := none }
  rest := ()

/-- The interrupt of a vector, with no line in service at the PICs. -/
def interruptOf (vector : UInt32) (scancode : UInt8) : Interrupt :=
  ⟨⟨vector, 0, 0, 0, 0, 0⟩, 0, 0, Keyboard.ready scancode⟩

/-- A tick of the timer, and a spurious interrupt of line 15. -/
def tickThenSpurious : List (Interrupt × (Kernel Unit → Kernel Unit)) :=
  [(interruptOf 32 0, id), (interruptOf 47 0, id)]

theorem eois_iff_tick :
    AllAcknowledged kernelHandlers (fun _ => none) quietKernel tickThenSpurious := by
  have hreturns : Returns kernelHandlers (fun _ => none) quietKernel tickThenSpurious :=
    ⟨_, _, rfl, _, _, rfl, trivial⟩
  exact (eois_iff kernelHandlers_table hreturns).mpr (by simp [tickThenSpurious, interruptOf])

/-- **A key causes two EOIs**: one of `keyboard_handler` and one of the dispatcher. -/
theorem keyboard_twice (ht : KernelTable handlers) {r : Registers} (hkeyboard : i.regs.intNo = 33)
    (h : interruptDispatch handlers table k i = some (k', r)) : ¬ Acknowledged k i k' := by
  intro hack
  have heois := (dispatch_eois ht h).1
  rw [if_pos hkeyboard, hack.1] at heois
  omega

theorem keyboard_acknowledged_twice : ∃ k' r,
    interruptDispatch kernelHandlers (fun _ => none) quietKernel (interruptOf 33 0x1E) =
      some (k', r) ∧
      ¬ Acknowledged quietKernel (interruptOf 33 0x1E) k' := by
  obtain ⟨k', r, h⟩ : ∃ k' r,
      interruptDispatch kernelHandlers (fun _ => none) quietKernel (interruptOf 33 0x1E) =
        some (k', r) :=
    ⟨_, _, rfl⟩
  exact ⟨k', r, h, keyboard_twice kernelHandlers_table rfl h⟩

end CobraOS.Interrupts
