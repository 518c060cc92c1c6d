import CobraOS.Interrupts.Lines

/-!
# The controllers while the kernel starts

`remap` works while interrupts are off, so the devices can only raise and drop their lines, and it
leaves the chips ready whatever they were before (`remap_meets`).  Masks are changed while
interrupts may come, between the read of the mask and the write too; no interrupt changes a mask, so
none is lost (`clearMask_meets`).

`start_safe` puts this together: whatever the devices do, no interrupt comes before there are an IDT
and handlers, none but the two lines that `kernel` unmasks is ever handled, and at the end nothing
but these is open.
-/

namespace CobraOS.Interrupts

open Base

variable {σ α : Type} {table : SyscallTable} {b b' : Board σ} {mask₁ mask₂ : BitVec 8}

/-! ### Devices -/

theorem PairAt.raise {p : Pic.Pair} {w₁ w₂ : BitVec 8} (h : PairAt p mask₁ mask₂ w₁ w₂) (l : Nat) :
    PairAt (p.raise l) mask₁ mask₂ w₁ w₂ := by
  unfold Pic.Pair.raise
  split
  · exact ⟨⟨h.master.phase, h.master.offset, h.master.mask, h.master.service⟩, h.slave⟩
  · exact ⟨h.master, ⟨h.slave.phase, h.slave.offset, h.slave.mask, h.slave.service⟩⟩

theorem PairAt.drop {p : Pic.Pair} {w₁ w₂ : BitVec 8} (h : PairAt p mask₁ mask₂ w₁ w₂) (l : Nat) :
    PairAt (p.drop l) mask₁ mask₂ w₁ w₂ := by
  unfold Pic.Pair.drop
  split
  · exact ⟨⟨h.master.phase, h.master.offset, h.master.mask, h.master.service⟩, h.slave⟩
  · exact ⟨h.master, ⟨h.slave.phase, h.slave.offset, h.slave.mask, h.slave.service⟩⟩

/-- **One event** keeps the board ready, with the same masks. -/
theorem Board.Ready.step (h : b.Ready mask₁ mask₂) {e : Event} (hstep : b.step table e b') :
    b'.Ready mask₁ mask₂ := by
  cases e with
  | raise l =>
    obtain ⟨-, rfl⟩ := hstep
    exact ⟨h.pic.raise l, h.handlers, h.idt⟩
  | drop l =>
    obtain ⟨-, rfl⟩ := hstep
    exact ⟨h.pic.drop l, h.handlers, h.idt⟩
  | interrupt i => exact (h.interrupted hstep.2).1

/-! ### `remap` -/

/-- The requests apart. -/
def quiet (c : Pic.Chip) : Pic.Chip := { c with requests := 0 }

/-- The board without what the devices change while interrupts are off. -/
def still (b : Board σ) : Board σ := { b with pic := ⟨quiet b.pic.master, quiet b.pic.slave⟩ }

/-- Interrupts are off. -/
def Off (b : Board σ) : Prop := b.accepts = false

theorem quiet_command (c : Pic.Chip) (v : UInt8) :
    quiet (c.command v) = quiet ((quiet c).command v) := by
  unfold Pic.Chip.command quiet
  dsimp only
  split
  · rfl
  split
  · split <;> rfl
  split
  · split <;> rfl
  · rfl

theorem quiet_data (c : Pic.Chip) (v : UInt8) : quiet (c.data v) = quiet ((quiet c).data v) := by
  obtain ⟨phase, single, wantsMode, offset, cascade, mode, mask, requests, service, readsService⟩ :=
    c
  cases phase <;> rfl

theorem still_out (b : Board σ) (port : Nat) (v : UInt8) :
    still (b.out port v) = still ((still b).out port v) := by
  unfold still Board.out Pic.Pair.out
  dsimp only
  split
  · rw [quiet_command]
    rfl
  split
  · rw [quiet_data]
    rfl
  split
  · rw [quiet_command]
    rfl
  split
  · rw [quiet_data]
    rfl
  · rfl

theorem sees_outb (port : Nat) (v : UInt8) : (outb port v : Code σ Unit).Sees still Off := by
  refine ⟨fun b b' h hoff => ⟨rfl, ?_, hoff⟩, fun _ => trivial⟩
  show still (b.out port v) = still (b'.out port v)
  rw [still_out, h, ← still_out]

theorem sees_inb {port : Nat} (h : port = picDataMaster ∨ port = picDataSlave) :
    (inb port : Code σ UInt8).Sees still Off := by
  refine ⟨fun b b' hview hoff => ⟨?_, hview, hoff⟩, fun _ => trivial⟩
  have hmaster : ∀ b : Board σ, b.pic.inp picDataMaster = ⟨(still b).pic.master.mask⟩ :=
    fun _ => rfl
  have hslave : ∀ b : Board σ, b.pic.inp picDataSlave = ⟨(still b).pic.slave.mask⟩ := fun _ => rfl
  show b.pic.inp port = b'.pic.inp port
  rcases h with rfl | rfl
  · rw [hmaster, hmaster, hview]
  · rw [hslave, hslave, hview]

theorem sees_work (f : Kernel σ → Kernel σ) : (work f).Sees still Off := by
  refine ⟨fun b b' hview hoff => ⟨rfl, ?_, hoff⟩, fun _ => trivial⟩
  have hset : ∀ b : Board σ, still { b with kernel := f b.kernel } =
      { still b with kernel := f (still b).kernel } :=
    fun _ => rfl
  show still { b with kernel := f b.kernel } = still { b' with kernel := f b'.kernel }
  rw [hset, hset, hview]

theorem sees_sendIcws (command data : Nat) (offset icw3 : UInt8) :
    (sendIcws command data offset icw3 : Code σ Unit).Sees still Off :=
  (sees_outb _ _).bind fun _ => (sees_outb _ _).bind fun _ => (sees_outb _ _).bind fun _ =>
    (sees_outb _ _).bind fun _ => (sees_outb _ _).bind fun _ => (sees_outb _ _).bind fun _ =>
    (sees_outb _ _).bind fun _ => sees_outb _ _

theorem sees_remap : (remap : Code σ Unit).Sees still Off :=
  (sees_inb (.inl rfl)).bind fun _ => (sees_inb (.inr rfl)).bind fun _ =>
    (sees_sendIcws ..).bind fun _ => (sees_sendIcws ..).bind fun _ =>
    (sees_outb _ _).bind fun _ => (sees_outb _ _).bind fun _ => (sees_outb _ _).bind fun _ =>
    (sees_outb _ _).bind fun _ => (sees_work _).bind fun _ => (sees_work _).bind fun _ =>
    (sees_outb _ _).bind fun _ => (sees_outb _ _).bind fun _ => sees_work _

/-- A chip after its initialization. -/
def initialized (c : Pic.Chip) (offset cascade : UInt8) : Pic.Chip :=
  { c with
    phase := .ready
    single := false
    wantsMode := true
    offset := offset
    cascade := cascade
    mode := icw48086
    mask := 0xFF
    requests := 0
    readsService := false }

theorem remap_alone (b : Board σ) : ∃ k, (remap : Code σ Unit).alone b = ((), { b with
    pic := ⟨initialized b.pic.master picOffsetMaster picMasterIcw3,
      initialized b.pic.slave picOffsetSlave picSlaveIcw3⟩
    kernel := k }) := ⟨_, rfl⟩

/-- **`remap` makes the chips ready**, whatever they were and whatever the devices do meanwhile. -/
theorem remap_meets {I : Board σ → Prop} (hI : ∀ b, b.accepts = false → I b)
    (hoff : b.accepts = false) (hmaster : b.pic.master.service = 0)
    (hslave : b.pic.slave.service = 0) :
    Prog.Meets (devices σ table) I remap (fun _ b' => PairAt b'.pic 0xFF 0xFF 0 0 ∧
      b'.accepts = false ∧
      b'.handlers = b.handlers ∧ b'.idtLoaded = b.idtLoaded) b := by
  have hview : ∀ (b : Board σ) (e : Event) (b' : Board σ), Off (still b) →
      (devices σ table).step b e b' →
      still b' = still b := by
    intro b e b' hs hstep
    cases e with
    | raise l =>
      obtain ⟨-, rfl⟩ := hstep
      unfold Pic.Pair.raise
      split <;> rfl
    | drop l =>
      obtain ⟨-, rfl⟩ := hstep
      unfold Pic.Pair.drop
      split <;> rfl
    | interrupt i =>
      have hon : b.accepts = true := hstep.1
      exact absurd (hon.symm.trans hs) (by decide)
  refine Prog.Meets.alone hview (fun s hs => hI s hs) sees_remap hoff fun b' hb' => ?_
  obtain ⟨k, hk⟩ := remap_alone b
  rw [hk] at hb'
  have hat : PairAt (still b').pic 0xFF 0xFF 0 0 := by
    rw [hb']
    exact ⟨⟨rfl, rfl, rfl, hmaster⟩, ⟨rfl, rfl, rfl, hslave⟩⟩
  refine ⟨⟨⟨hat.master.phase, hat.master.offset, hat.master.mask, hat.master.service⟩,
    ⟨hat.slave.phase, hat.slave.offset, hat.slave.mask, hat.slave.service⟩⟩, ?_, ?_, ?_⟩
  · show (still b').accepts = false
    rw [hb']
    exact hoff
  · show (still b').handlers = b.handlers
    rw [hb']
    rfl
  · show (still b').idtLoaded = b.idtLoaded
    rw [hb']
    rfl

/-! ### Masks -/

/-- Both masks. -/
abbrev Masks := BitVec 8 × BitVec 8

/-- The masks of the chips. -/
def Board.masks (b : Board σ) : Masks := (b.pic.master.mask, b.pic.slave.mask)

/-- The masks with the mask of one port replaced. -/
def setPort (port : Nat) (masks : Masks) (mask : BitVec 8) : Masks :=
  if port = picDataMaster then (mask, masks.2) else (masks.1, mask)

/-- The mask at a port. -/
def atPort (port : Nat) (masks : Masks) : BitVec 8 :=
  if port = picDataMaster then masks.1 else masks.2

/-- Whether a line is masked. -/
def masked (masks : Masks) (line : Nat) : Bool :=
  if line < 8 then masks.1.getLsbD line else masks.2.getLsbD (line - 8)

/-- A time in the start of the kernel: the flag, the handlers, the IDT and the masks; nothing is in
service. -/
structure Stage (accepts : Bool) (handlers : Nat → Option (Handler σ)) (idt : Bool) (masks : Masks)
    (b : Board σ) : Prop where
  accepts : b.accepts = accepts
  handlers : b.handlers = handlers
  idt : b.idtLoaded = idt
  pic : PairAt b.pic masks.1 masks.2 0 0

/-- Interrupts are off, or the kernel is ready for them. -/
def Prepared (accepts : Bool) (handlers : Nat → Option (Handler σ)) (idt : Bool) : Prop :=
  accepts = true → KernelTable handlers ∧ idt = true

variable {accepts idt : Bool} {handlers : Nat → Option (Handler σ)} {masks : Masks}
    {I : Board σ → Prop}

/-- **No event ends a stage.** -/
theorem Stage.stable (hprepared : Prepared accepts handlers idt) :
    Prog.Stable (devices σ table) (Stage accepts handlers idt masks) := by
  intro b e b' h hstep
  cases e with
  | raise l =>
    obtain ⟨-, rfl⟩ := hstep
    exact ⟨h.accepts, h.handlers, h.idt, h.pic.raise l⟩
  | drop l =>
    obtain ⟨-, rfl⟩ := hstep
    exact ⟨h.accepts, h.handlers, h.idt, h.pic.drop l⟩
  | interrupt i =>
    obtain ⟨hon, hi⟩ := hstep
    obtain ⟨ht, hidt⟩ := hprepared (h.accepts.symm.trans hon)
    have hready : b.Ready masks.1 masks.2 := ⟨h.pic, h.handlers ▸ ht, h.idt.trans hidt⟩
    have hpic := (hready.interrupted hi).1.pic
    obtain ⟨-, -, -, k, r, -, rfl⟩ := hi
    exact ⟨h.accepts, h.handlers, h.idt, hpic⟩

theorem update_meets (hprepared : Prepared accepts handlers idt)
    (hI : ∀ b, Stage accepts handlers idt masks b → I b) {accepts' idt' : Bool}
    {handlers' : Nat → Option (Handler σ)} {masks' : Masks}
    (hprepared' : Prepared accepts' handlers' idt')
    (hI' : ∀ b, Stage accepts' handlers' idt' masks' b → I b) {f : Board σ → Board σ}
    (hf : ∀ b, Stage accepts handlers idt masks b → Stage accepts' handlers' idt' masks' (f b))
    (h : Stage accepts handlers idt masks b) :
    Prog.Meets (devices σ table) I (update f) (fun _ => Stage accepts' handlers' idt' masks') b :=
  Prog.Meets.act (Stage.stable hprepared) hI
    (fun b hb => Prog.Meets.done (Stage.stable hprepared') hI' (fun _ h => h) (hf b hb)) h

theorem work_meets (hprepared : Prepared accepts handlers idt)
    (hI : ∀ b, Stage accepts handlers idt masks b → I b) (f : Kernel σ → Kernel σ)
    (h : Stage accepts handlers idt masks b) :
    Prog.Meets (devices σ table) I (work f) (fun _ => Stage accepts handlers idt masks) b :=
  update_meets hprepared hI hprepared hI (fun _ h => ⟨h.accepts, h.handlers, h.idt, h.pic⟩) h

theorem works_meets (hprepared : Prepared accepts handlers idt)
    (hI : ∀ b, Stage accepts handlers idt masks b → I b) (fs : List (Kernel σ → Kernel σ))
    (h : Stage accepts handlers idt masks b) :
    Prog.Meets (devices σ table) I (works fs) (fun _ => Stage accepts handlers idt masks) b := by
  induction fs generalizing b with
  | nil => exact Prog.Meets.done (Stage.stable hprepared) hI (fun _ h => h) h
  | cons f fs ih => exact (work_meets hprepared hI f h).bind fun _ _ => ih

theorem Stage.out {port : Nat} (hport : port = picDataMaster ∨ port = picDataSlave)
    (h : Stage accepts handlers idt masks b) (mask : BitVec 8) :
    Stage accepts handlers idt (setPort port masks mask) (b.out port ⟨mask⟩) := by
  have hdata : ∀ {c : Pic.Chip} {offset : UInt8} {old : BitVec 8}, ChipAt c offset old 0 →
      ChipAt (c.data ⟨mask⟩) offset mask 0 := by
    intro c offset old hc
    unfold Pic.Chip.data
    rw [hc.phase]
    exact ⟨rfl, hc.offset, rfl, hc.service⟩
  rcases hport with rfl | rfl
  · exact ⟨h.accepts, h.handlers, h.idt, hdata h.pic.master, h.pic.slave⟩
  · exact ⟨h.accepts, h.handlers, h.idt, h.pic.master, hdata h.pic.slave⟩

theorem Stage.inp {port : Nat} (hport : port = picDataMaster ∨ port = picDataSlave)
    (h : Stage accepts handlers idt masks b) : b.pic.inp port = ⟨atPort port masks⟩ := by
  rcases hport with rfl | rfl
  · exact congrArg UInt8.ofBitVec h.pic.master.mask
  · exact congrArg UInt8.ofBitVec h.pic.slave.mask

/-- The masks after a line was masked or unmasked. -/
def withLine (masks : Masks) (line : Nat) (f : BitVec 8 → BitVec 8) : Masks :=
  setPort (portOf line).1 masks (f (atPort (portOf line).1 masks))

theorem portOf_data (line : Nat) : (portOf line).1 = picDataMaster ∨
    (portOf line).1 = picDataSlave := by
  unfold portOf
  split
  · exact .inl rfl
  · exact .inr rfl

/-- **A mask is read, changed and written**: what comes in between does not matter. -/
theorem change_meets (table : SyscallTable) (hprepared : Prepared accepts handlers idt) {port : Nat}
    (hport : port = picDataMaster ∨ port = picDataSlave) (g : UInt8 → UInt8)
    (f : BitVec 8 → BitVec 8) (hg : ∀ w, g ⟨w⟩ = ⟨f w⟩)
    (hI : ∀ b, Stage accepts handlers idt masks b → I b)
    (hI' : ∀ b, Stage accepts handlers idt (setPort port masks (f (atPort port masks))) b → I b)
    (h : Stage accepts handlers idt masks b) :
    Prog.Meets (devices σ table) I (Prog.bind (inb port) fun value => outb port (g value))
      (fun _ => Stage accepts handlers idt (setPort port masks (f (atPort port masks)))) b := by
  refine Prog.Meets.act (Stage.stable hprepared) hI (fun b hb => ?_) h
  show Prog.Meets _ _ (outb port (g (b.pic.inp port))) _ b
  rw [Stage.inp hport hb, hg]
  exact update_meets hprepared hI hprepared hI' (fun _ hb => hb.out hport _) hb

theorem or_mk (w w' : BitVec 8) : (⟨w⟩ : UInt8) ||| ⟨w'⟩ = ⟨w ||| w'⟩ :=
  UInt8.toBitVec_inj.mp (UInt8.toBitVec_or ..)

theorem and_not_mk (w w' : BitVec 8) : (⟨w⟩ : UInt8) &&& ~~~⟨w'⟩ = ⟨w &&& ~~~w'⟩ :=
  UInt8.toBitVec_inj.mp (by rw [UInt8.toBitVec_and, UInt8.toBitVec_not])

theorem setMask_eq (line : Nat) :
    (setMask line : Code σ Unit) = Prog.bind (inb (portOf line).1) fun value =>
    outb (portOf line).1 (value ||| ⟨1#8 <<< (portOf line).2⟩) := rfl

theorem clearMask_eq (line : Nat) :
    (clearMask line : Code σ Unit) = Prog.bind (inb (portOf line).1) fun value =>
    outb (portOf line).1 (value &&& ~~~⟨1#8 <<< (portOf line).2⟩) := rfl

theorem setMask_meets (hprepared : Prepared accepts handlers idt)
    (hI : ∀ masks b, Stage accepts handlers idt masks b → I b) (line : Nat)
    (h : Stage accepts handlers idt masks b) :
    Prog.Meets (devices σ table) I (setMask line) (fun _ => Stage accepts handlers idt
      (withLine masks line (Pic.insertLine · (portOf line).2))) b := by
  have hchange := change_meets table hprepared (portOf_data line) (· ||| ⟨1#8 <<< (portOf line).2⟩)
    (Pic.insertLine · (portOf line).2) (fun w => or_mk w _) (hI _) (hI _) h
  rw [setMask_eq]
  exact hchange

theorem clearMask_meets (hprepared : Prepared accepts handlers idt) (line : Nat)
    (hI : ∀ b, Stage accepts handlers idt masks b → I b)
    (hI' : ∀ b, Stage accepts handlers idt
      (withLine masks line (Pic.eraseLine · (portOf line).2)) b → I b)
    (h : Stage accepts handlers idt masks b) :
    Prog.Meets (devices σ table) I (clearMask line) (fun _ => Stage accepts handlers idt
      (withLine masks line (Pic.eraseLine · (portOf line).2))) b := by
  have hchange :=
    change_meets table hprepared (portOf_data line) (· &&& ~~~⟨1#8 <<< (portOf line).2⟩)
    (Pic.eraseLine · (portOf line).2) (fun w => and_not_mk w _) hI hI' h
  rw [clearMask_eq]
  exact hchange

theorem unmaskKb_eq : (unmaskKb : Code σ Unit) = clearMask 1 := rfl

/-! ### Calls of the mask functions -/

inductive MaskCall
  | set (line : Nat)
  | clear (line : Nat)
  | unmaskKb
  | disable

def MaskCall.code : MaskCall → Code σ Unit
  | .set line => setMask line
  | .clear line => clearMask line
  | .unmaskKb => Interrupts.unmaskKb
  | .disable => disablePic

/-- Whether a line is masked after a call, if it was before. -/
def MaskCall.after (c : MaskCall) (line : Nat) (before : Bool) : Bool :=
  match c with
  | .set l => before || decide (line = l)
  | .clear l => before && decide (line ≠ l)
  | .unmaskKb => before && decide (line ≠ 1)
  | .disable => true

/-- Calls one after the other. -/
def calls (cs : List MaskCall) : Code σ Unit :=
  cs.foldr (fun c p => c.code >>= fun _ => p) (pure ())

theorem masked_withLine_insert {line : Nat} (hline : line < 16) {j : Nat} (hj : j < 16) :
    masked (withLine masks line (Pic.insertLine · (portOf line).2)) j =
      (masked masks j || decide (j = line)) := by
  unfold masked withLine setPort atPort portOf
  by_cases h : line < 8
  · simp only [h, if_true]
    by_cases hj8 : j < 8
    · simp only [hj8, if_true, Pic.getLsbD_insertLine h]
    · simp only [hj8, if_false, decide_eq_false (show ¬ j = line by omega), Bool.or_false]
  · have hport : ¬ picDataSlave = picDataMaster := by decide
    simp only [h, if_false, hport]
    by_cases hj8 : j < 8
    · simp only [hj8, if_true, decide_eq_false (show ¬ j = line by omega), Bool.or_false]
    · simp only [hj8, if_false, Pic.getLsbD_insertLine (show line - 8 < 8 by omega)]
      rw [decide_eq_decide.mpr (show j - 8 = line - 8 ↔ j = line by omega)]

theorem masked_withLine_erase {line : Nat} (hline : line < 16) {j : Nat} (hj : j < 16) :
    masked (withLine masks line (Pic.eraseLine · (portOf line).2)) j =
      (masked masks j && decide (j ≠ line)) := by
  unfold masked withLine setPort atPort portOf
  by_cases h : line < 8
  · simp only [h, if_true]
    by_cases hj8 : j < 8
    · simp only [hj8, if_true, Pic.getLsbD_eraseLine h hj8]
    · simp only [hj8, if_false, decide_eq_true (show j ≠ line by omega), Bool.and_true]
  · have hport : ¬ picDataSlave = picDataMaster := by decide
    simp only [h, if_false, hport]
    by_cases hj8 : j < 8
    · simp only [hj8, if_true, decide_eq_true (show j ≠ line by omega), Bool.and_true]
    · simp only [hj8, if_false, Pic.getLsbD_eraseLine (show line - 8 < 8 by omega)
        (show j - 8 < 8 by omega)]
      rw [decide_eq_decide.mpr (show j - 8 ≠ line - 8 ↔ j ≠ line by omega)]

/-- A write to a port that is not a data port of the chips, nor one of their command ports. -/
theorem outb_other_meets (hprepared : Prepared accepts handlers idt)
    (hI : ∀ masks b, Stage accepts handlers idt masks b → I b) {port : Nat} {v : UInt8}
    (hport : onPic ⟨port, v⟩ = false) (h : Stage accepts handlers idt masks b) :
    Prog.Meets (devices σ table) I (outb port v) (fun _ => Stage accepts handlers idt masks) b := by
  refine update_meets hprepared (hI masks) hprepared (hI masks) (fun b h => ?_) h
  refine ⟨h.accepts, h.handlers, h.idt, ?_⟩
  show PairAt (b.pic.out port v) _ _ _ _
  rw [out_other hport]
  exact h.pic

theorem outb_data_meets (hprepared : Prepared accepts handlers idt)
    (hI : ∀ masks b, Stage accepts handlers idt masks b → I b) {port : Nat}
    (hport : port = picDataMaster ∨ port = picDataSlave) (mask : BitVec 8)
    (h : Stage accepts handlers idt masks b) :
    Prog.Meets (devices σ table) I (outb port ⟨mask⟩)
      (fun _ => Stage accepts handlers idt (setPort port masks mask)) b :=
  update_meets hprepared (hI masks) hprepared (hI _) (fun _ hb => hb.out hport mask) h

theorem disablePic_meets (hprepared : Prepared accepts handlers idt)
    (hI : ∀ masks b, Stage accepts handlers idt masks b → I b)
    (h : Stage accepts handlers idt masks b) :
    Prog.Meets (devices σ table) I disablePic
      (fun _ => Stage accepts handlers idt (0xFF, 0xFF)) b := by
  refine (setMask_meets hprepared hI 0 h).bind fun _ _ h => ?_
  refine (outb_data_meets hprepared hI (.inr rfl) 0xFF h).bind fun _ _ h => ?_
  refine (outb_other_meets hprepared hI rfl h).bind fun _ _ h => ?_
  refine (outb_data_meets hprepared hI (.inl rfl) 0xFF h).bind fun _ _ h => ?_
  exact work_meets hprepared (hI _) _ h

theorem Stage.masks_eq (h : Stage accepts handlers idt masks b) : b.masks = masks :=
  Prod.ext h.pic.master.mask h.pic.slave.mask

/-- The line of a call is one of the lines of the chips. -/
def MaskCall.InRange : MaskCall → Prop
  | .set line => line < 16
  | .clear line => line < 16
  | .unmaskKb => True
  | .disable => True

theorem call_meets (hprepared : Prepared accepts handlers idt)
    (hI : ∀ masks b, Stage accepts handlers idt masks b → I b) {c : MaskCall} (hc : c.InRange)
    (h : Stage accepts handlers idt masks b) :
    Prog.Meets (devices σ table) I c.code
      (fun _ b' => ∃ masks', Stage accepts handlers idt masks' b' ∧
      ∀ j < 16, masked masks' j = c.after j (masked masks j)) b := by
  cases c with
  | set line =>
    exact (setMask_meets hprepared hI line h).mono fun _ _ h =>
      ⟨_, h, fun j hj => masked_withLine_insert hc hj⟩
  | clear line =>
    exact (clearMask_meets hprepared line (hI _) (hI _) h).mono fun _ _ h =>
      ⟨_, h, fun j hj => masked_withLine_erase hc hj⟩
  | unmaskKb =>
    show Prog.Meets _ _ unmaskKb _ b
    rw [unmaskKb_eq]
    exact (clearMask_meets hprepared 1 (hI _) (hI _) h).mono fun _ _ h =>
      ⟨_, h, fun j hj => masked_withLine_erase (by decide) hj⟩
  | disable => exact (disablePic_meets hprepared hI h).mono fun _ _ h =>
      ⟨_, h, show ∀ j < 16, masked (0xFF, 0xFF) j = true by decide⟩

theorem calls_meets (hprepared : Prepared accepts handlers idt)
    (hI : ∀ masks b, Stage accepts handlers idt masks b → I b) {cs : List MaskCall}
    (hcs : ∀ c ∈ cs, c.InRange) (h : Stage accepts handlers idt masks b) :
    Prog.Meets (devices σ table) I (calls cs)
      (fun _ b' => ∃ masks', Stage accepts handlers idt masks' b' ∧
      ∀ j < 16, masked masks' j = cs.foldl (fun m c => c.after j m) (masked masks j)) b := by
  induction cs generalizing masks b with
  | nil =>
    exact Prog.Meets.done (Stage.stable hprepared) (hI masks) (fun _ h => ⟨_, h, fun _ _ => rfl⟩) h
  | cons c cs ih =>
    obtain ⟨hc, hcs⟩ := List.forall_mem_cons.mp hcs
    refine (call_meets hprepared hI hc h).bind fun _ b₁ ⟨masks₁, h₁, hmasks₁⟩ => ?_
    refine (ih hcs h₁).mono fun _ b' ⟨masks', h', hmasks'⟩ => ⟨masks', h', fun j hj => ?_⟩
    rw [hmasks' j hj, hmasks₁ j hj]
    rfl

/-- **No change of a mask is lost**: after calls of the mask functions each line is masked or not as
the last call for it says, whatever the devices do and whatever interrupts come between the read of
a mask and its write; and nothing is in service at any time. -/
theorem masks_follow (hprepared : Prepared accepts handlers idt)
    (h : Stage accepts handlers idt masks b) {cs : List MaskCall} (hcs : ∀ c ∈ cs, c.InRange)
    {l : List (Option Event)} {x : Board σ × Code σ Unit}
    (hrun : (Prog.among (devices σ table) (calls cs)).Run (b, calls cs) l x) :
    (x.1.pic.master.service = 0 ∧ x.1.pic.slave.service = 0) ∧
      (x.2 = .done () → ∀ j < 16, masked x.1.masks j = cs.foldl (fun m c => c.after j m)
        (masked masks j)) := by
  have hmeets :
      Prog.Meets (devices σ table) (fun b => b.pic.master.service = 0 ∧ b.pic.slave.service = 0) _ _
        b :=
    calls_meets hprepared (fun masks b h => ⟨h.pic.master.service, h.pic.slave.service⟩) hcs h
  obtain ⟨hservice, hend⟩ := hmeets.run hrun
  refine ⟨hservice, fun hdone j hj => ?_⟩
  obtain ⟨masks', h', hmasks⟩ := hend () hdone
  rw [h'.masks_eq]
  exact hmasks j hj

/-! ### `kernel` -/

/-- When interrupts are on, the kernel is ready for them, and only the lines 0 and 1 may be open. -/
def Safe (b : Board σ) : Prop := b.accepts = true → ∃ masks,
  Stage true kernelHandlers true masks b ∧ ∀ l < 16, 2 ≤ l → masked masks l = true

theorem Stage.safe (h : Stage accepts handlers idt masks b)
    (hprepared : accepts = true → handlers = kernelHandlers ∧
    idt = true ∧ ∀ l < 16, 2 ≤ l → masked masks l = true) : Safe b := by
  intro hon
  obtain rfl := h.accepts.symm.trans hon
  obtain ⟨rfl, rfl, hmasks⟩ := hprepared rfl
  exact ⟨masks, h, hmasks⟩

theorem Stage.safe_off (h : Stage false handlers idt masks b) : Safe b :=
  h.safe fun hf => absurd hf (by decide)

theorem prepared_off : Prepared false handlers idt := fun hf => absurd hf (by decide)

theorem prepared_on : Prepared true (kernelHandlers : Nat → Option (Handler σ)) true :=
  fun _ => ⟨kernelHandlers_table, rfl⟩

/-- No event matters to where the kernel starts. -/
theorem Entry.stable : Prog.Stable (devices σ table) Board.Entry := by
  intro b e b' h hstep
  have hraise : ∀ l, (b.pic.raise l).master.service = 0 ∧ (b.pic.raise l).slave.service = 0 := by
    intro l
    unfold Pic.Pair.raise
    split <;> exact ⟨h.master, h.slave⟩
  have hdrop : ∀ l, (b.pic.drop l).master.service = 0 ∧ (b.pic.drop l).slave.service = 0 := by
    intro l
    unfold Pic.Pair.drop
    split <;> exact ⟨h.master, h.slave⟩
  cases e with
  | raise l =>
    obtain ⟨-, rfl⟩ := hstep
    exact ⟨h.accepts, (hraise l).1, (hraise l).2, h.handlers⟩
  | drop l =>
    obtain ⟨-, rfl⟩ := hstep
    exact ⟨h.accepts, (hdrop l).1, (hdrop l).2, h.handlers⟩
  | interrupt i => exact absurd (hstep.1.symm.trans h.accepts) (by decide)

theorem entry_work (f : Kernel σ → Kernel σ) (h : b.Entry) :
    Prog.Meets (devices σ table) Safe (work f) (fun _ => Board.Entry) b := by
  have hsafe : ∀ b : Board σ, b.Entry → Safe b :=
    fun b hb hon => absurd (hon.symm.trans hb.accepts) (by decide)
  refine Prog.Meets.act Entry.stable hsafe (fun b hb => ?_) h
  exact Prog.Meets.done Entry.stable hsafe (fun _ h => h) ⟨hb.accepts, hb.master, hb.slave,
    hb.handlers⟩

theorem initInts_meets (h : b.Entry) : Prog.Meets (devices σ table) Safe initInts
    (fun _ => Stage false (fun _ => none) true (0xFF, 0xFF)) b := by
  have hviprint : ∀ {b : Board σ} (text : String), b.Entry →
      Prog.Meets (devices σ table) Safe (viprint text) (fun _ => Board.Entry) b :=
        fun _ h => entry_work _ h
  refine (hviprint _ h).bind fun _ b h => ?_
  refine (hviprint _ h).bind fun _ b h => ?_
  have hoff : ∀ b : Board σ, b.accepts = false → Safe b :=
    fun b hb hon => absurd (hon.symm.trans hb) (by decide)
  refine (remap_meets hoff h.accepts h.master h.slave).bind fun _ b' ⟨hpic, haccepts, hhandlers,
    hidt⟩ => ?_
  have hstage : Stage false (fun _ => none) b.idtLoaded (0xFF, 0xFF) b' :=
    ⟨haccepts, hhandlers.trans h.handlers, hidt, hpic⟩
  refine (work_meets prepared_off (fun _ => Stage.safe_off) _ hstage).bind fun _ b' h => ?_
  have hload : ∀ b₁ : Board σ, Stage false (fun _ => none) b.idtLoaded (0xFF, 0xFF) b₁ →
      Stage false (fun _ => none) true (0xFF, 0xFF) { b₁ with idtLoaded := true } :=
    fun _ h => ⟨h.accepts, h.handlers, rfl, h.pic⟩
  refine (update_meets prepared_off (fun _ => Stage.safe_off) prepared_off (fun _ => Stage.safe_off)
    hload h).bind fun _ b' h => ?_
  exact work_meets prepared_off (fun _ => Stage.safe_off) _ h

theorem register_meets (irq : Nat) (handler : Handler σ) (h : Stage false handlers idt masks b) :
    Prog.Meets (devices σ table) Safe (registerHandler irq handler)
      (fun _ => Stage false (irqRegisterHandler handlers irq handler).2 idt masks) b :=
  update_meets prepared_off (fun _ => Stage.safe_off) prepared_off (fun _ => Stage.safe_off)
    (fun b h => ⟨h.accepts, by rw [← h.handlers], h.idt, h.pic⟩) h

/-- **The start of the kernel.** -/
theorem start_meets (pitInit : Kernel σ → Kernel σ) (before after : List (Kernel σ → Kernel σ))
    (h : b.Entry) :
    Prog.Meets (devices σ table) Safe (start pitInit before after)
      (fun _ => Stage true kernelHandlers true (0xFC, 0xFF)) b := by
  refine (initInts_meets h).bind fun _ b h => ?_
  refine (work_meets prepared_off (fun _ => Stage.safe_off) pitInit h).bind fun _ b h => ?_
  refine (register_meets 0 pitHandler h).bind fun _ b h => ?_
  refine (register_meets 1 keyboardHandler h).bind fun _ b h => ?_
  have hsafe : ∀ masks : Masks, (∀ l < 16, 2 ≤ l → masked masks l = true) → ∀ b : Board σ,
      Stage true kernelHandlers true masks b → Safe b :=
        fun _ hm _ h => h.safe fun _ => ⟨rfl, rfl, hm⟩
  have hnone := hsafe (0xFF, 0xFF) (by decide)
  have hkeyboard := hsafe (0xFD, 0xFF) (by decide)
  have hboth := hsafe (0xFC, 0xFF) (by decide)
  have hon : ∀ b : Board σ, Stage false kernelHandlers true (0xFF, 0xFF) b →
      Stage true kernelHandlers true (0xFF, 0xFF) { b with accepts := true } :=
    fun _ h => ⟨rfl, h.handlers, h.idt, h.pic⟩
  have hints :
      Prog.Meets (devices σ table) Safe asmIntsOn
        (fun _ => Stage true kernelHandlers true (0xFF, 0xFF)) b := by
    refine (update_meets prepared_off (fun _ => Stage.safe_off) prepared_on hnone hon h).bind
      fun _ b h => ?_
    exact work_meets prepared_on hnone _ h
  refine hints.bind fun _ b h => (works_meets prepared_on hnone before h).bind fun _ b h => ?_
  refine (clearMask_meets prepared_on 1 hnone hkeyboard h).bind fun _ b h => ?_
  refine (clearMask_meets prepared_on 0 hkeyboard hboth h).bind fun _ b h => ?_
  exact works_meets prepared_on hboth after h

theorem Cause.unmasked {i : Interrupt} (h : Cause b i b') (hb : PairAt b.pic masks.1 masks.2 0 0)
    {irq : Nat} (hirq : irqOf i = some irq) (hgenuine : spurious i irq = false) :
    masked masks irq = false := by
  cases h with
  | line irq' hirq' hasked =>
    obtain rfl := Option.some.inj (hirq.symm.trans hirq')
    obtain ⟨-, -, -, hmasked⟩ := Pic.Pair.asked_some hasked
    unfold Pic.Pair.masked at hmasked
    rw [hb.master.mask, hb.slave.mask] at hmasked
    exact hmasked
  | nothing hirq' _ hspurious =>
    obtain rfl := Option.some.inj (hirq.symm.trans hirq')
    rw [hspurious] at hgenuine
    cases hgenuine

/-- An interrupt of the kernel: a tick, a key, or a spurious one. -/
def Known (b : Board σ) (i : Interrupt) (b' : Board σ) : Prop :=
  (∃ irq < 2, irqOf i = some irq ∧ ∃ handler, kernelHandlers irq = some handler ∧
    ∃ k, handler b.kernel i = some k ∧ b'.kernel = picSendEoi k irq) ∨
  (irqOf i = some 7 ∧ b'.kernel = (picReadIsr b.kernel i).1)

theorem Cause.known {i : Interrupt} (h : Cause b i b')
    (hb : Stage accepts kernelHandlers idt masks b)
    (hmasks : ∀ l < 16, 2 ≤ l → masked masks l = true) : Known b i b' := by
  obtain ⟨irq, hirq, hasked, hgenuine, hdispatch⟩ | ⟨hirq, -, -, hkernel⟩ := h
  · have hopen := Cause.unmasked (.line irq hirq hasked hgenuine hdispatch) hb.pic hirq hgenuine
    obtain ⟨hlt, hmod, -⟩ := irqOf_some hirq
    have htwo : irq < 2 := by
      by_contra hge
      rw [hmasks irq hlt (by omega)] at hopen
      cases hopen
    rw [hb.handlers] at hdispatch
    unfold irqDispatch at hdispatch
    rw [hmod] at hdispatch
    dsimp only at hdispatch
    rw [if_neg (by unfold irqCount; omega), if_neg (by omega)] at hdispatch
    obtain ⟨k, hk, he⟩ := Option.map_eq_some_iff.mp hdispatch
    refine .inl ⟨irq, htwo, hirq, ?_⟩
    obtain rfl | rfl : irq = 0 ∨ irq = 1 := by omega
    · exact ⟨pitHandler, rfl, k, hk, he.symm⟩
    · exact ⟨keyboardHandler, rfl, k, hk, he.symm⟩
  · exact .inr ⟨hirq, hkernel⟩

/-- **The start is safe**, whatever the chips were before and whatever the devices do: when
interrupts are on, there is an IDT, and an interrupt is a tick, a key, or spurious; at the end just
the two lines are open and nothing is in service. -/
theorem start_safe {pitInit : Kernel σ → Kernel σ} {before after : List (Kernel σ → Kernel σ)}
    {l : List (Option Event)} {x : Board σ × Code σ Unit} (h : b.Entry)
    (hrun : (Prog.among (devices σ table) (start pitInit before after)).Run
      (b, start pitInit before after) l x) :
    (x.1.accepts = true → x.1.idtLoaded = true) ∧
      (∀ i b', x.1.step table (.interrupt i) b' → Known x.1 i b') ∧
      (x.2 = .done () → Stage true kernelHandlers true (0xFC, 0xFF) x.1) := by
  have hmeets : Prog.Meets (devices σ table) Safe _ _ b := start_meets pitInit before after h
  obtain ⟨hsafe, hend⟩ := hmeets.run hrun
  refine ⟨fun hon => ?_, fun i b' hi => ?_, fun hdone => hend () hdone⟩
  · obtain ⟨masks, hstage, -⟩ := hsafe hon
    exact hstage.idt
  · obtain ⟨hon, hi⟩ := hi
    obtain ⟨masks, hstage, hmasks⟩ := hsafe hon
    have hready : x.1.Ready masks.1 masks.2 :=
      ⟨hstage.pic, hstage.handlers ▸ kernelHandlers_table, hstage.idt⟩
    exact (hready.interrupted hi).2.known hstage hmasks

/-- Chips of which nothing is known but that nothing is in service. -/
def entryBoard : Board Unit where
  pic := ⟨⟨.cascade, true, false, 8, 0, 0, 0x55, 0, 0, true⟩,
    ⟨.ready, true, false, 0x70, 0, 0, 0, 0x11, 0, true⟩⟩
  accepts := false
  idtLoaded := false
  handlers := fun _ => none
  kernel := quietKernel

theorem entryBoard_entry : entryBoard.Entry := ⟨rfl, rfl, rfl, rfl⟩

/-- The board after the start when no device does anything. -/
def startedBoard : Board Unit := ((start id [] []).alone entryBoard).2

theorem start_safe_alone : (startedBoard.accepts = true → startedBoard.idtLoaded = true) ∧
    (∀ i b', startedBoard.step (fun _ => none) (.interrupt i) b' → Known startedBoard i b') ∧
    ((.done () : Code Unit Unit) = .done () →
      Stage true kernelHandlers true (0xFC, 0xFF) startedBoard) := by
  obtain ⟨l, hl⟩ :=
    Prog.alone_run (devices Unit fun _ => none) (start id [] []) (start id [] []) entryBoard
  exact start_safe entryBoard_entry hl

/-- Line 4 is opened and line 0 is masked. -/
def openAndMask : List MaskCall := [.clear 4, .set 0]

/-- The board after these calls when no device does anything. -/
def changedBoard : Board Unit := ((calls openAndMask).alone startedBoard).2

theorem startedBoard_stage : Stage true kernelHandlers true (0xFC, 0xFF) startedBoard := by
  obtain ⟨l, hl⟩ :=
    Prog.alone_run (devices Unit fun _ => none) (start id [] []) (start id [] []) entryBoard
  exact ((start_meets id [] [] entryBoard_entry).run hl).2 () rfl

theorem masks_follow_openAndMask :
    (changedBoard.pic.master.service = 0 ∧ changedBoard.pic.slave.service = 0) ∧
      ((.done () : Code Unit Unit) = .done () → ∀ j < 16, masked changedBoard.masks j =
        openAndMask.foldl (fun m c => c.after j m) (masked (0xFC, 0xFF) j)) := by
  have hrange : ∀ c ∈ openAndMask, c.InRange := by simp [openAndMask, MaskCall.InRange]
  obtain ⟨l, hl⟩ :=
    Prog.alone_run (devices Unit fun _ => none) (calls openAndMask) (calls openAndMask) startedBoard
  exact masks_follow prepared_on startedBoard_stage hrange hl

end CobraOS.Interrupts
