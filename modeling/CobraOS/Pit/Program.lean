import CobraOS.Pit.Model

/-!
# The reload value of the timer

The timer takes the reload value from the last two bytes that were sent to its port, the low one
first (`reload`), and the kernel keeps the word it computed.  The two agree while that word fits
into 16 bits.

`pitInit` has no guard at all, `pitCalibrateWithRtc` one against small quotients.
`pit_consistent_iff` is about whole runs: the first frequency and every calibration have to fit.
-/

namespace CobraOS.Pit

/-- The last two bytes that were sent to the port of channel 0, as a number. -/
def reload (log : List Outb) : Option Nat :=
  match ((log.filter (fun o => o.port = 0x40)).map (fun o => o.value.toNat)).reverse with
  | high :: low :: _ => some (low + 256 * high)
  | _ => none

/-- **The timer counts what the kernel believes.** -/
structure Consistent (s : State) (log : List Outb) : Prop where
  reload : reload log = some s.currentDivisor.toNat
  pos : 1 ≤ s.currentDivisor.toNat
  le : s.currentDivisor.toNat ≤ 65535

/-- The arguments of a calibration, and the ticks that pass in it. -/
structure Calibration where
  desiredHz : Word
  passed : Nat

/-- The ticks that the calibration counts. -/
def Calibration.measured (c : Calibration) : Nat := c.passed % 4294967296

/-- `measured_ticks * current_divisor` is less than `2 ^ 32` if it is computed. -/
def NoWrap (s : State) (c : Calibration) : Prop :=
  c.desiredHz ≠ 0 → c.measured * s.currentDivisor.toNat < 4294967296

/-- **A run of calibrations is sound**: no product wraps, and the timer is consistent after each. -/
def Sound : State → List Outb → List Calibration → Prop
  | s, log, [] => Consistent s log
  | s, log, c :: cs =>
    let r := pitCalibrateWithRtc s c.desiredHz c.passed
    Consistent s log ∧ NoWrap s c ∧ Sound r.1 (log ++ r.2) cs

/-- A calibration that returns at once, or whose quotient fits into 16 bits and whose product into
32. -/
def Fits (s : State) (c : Calibration) : Prop :=
  c.desiredHz = 0 ∨ c.measured * s.currentDivisor.toNat < 4294967296 ∧
    c.measured * s.currentDivisor.toNat < 65536 * c.desiredHz.toNat

/-- Every calibration of a run fits in the state that it starts from. -/
def AllFit : State → List Calibration → Prop
  | _, [] => True
  | s, c :: cs => Fits s c ∧ AllFit (pitCalibrateWithRtc s c.desiredHz c.passed).1 cs

theorem Sound.consistent {s : State} {log : List Outb} {cs : List Calibration}
    (h : Sound s log cs) :
    Consistent s log := by
  cases cs with
  | nil => exact h
  | cons c cs => exact h.1

/-! ### The bytes that are sent -/

section

variable {s : State} {log : List Outb} {c : Calibration}

/-- **What is programmed** is the divisor cut to 16 bits. -/
theorem reload_program (log : List Outb) (divisor : Word) :
    reload (log ++ program divisor) = some (divisor.toNat % 65536) := by
  have hlow : ((divisor &&& 0xFF).setWidth 8).toNat = divisor.toNat % 256 := by
    rw [BitVec.toNat_setWidth, BitVec.toNat_and]
    have hand : divisor.toNat &&& 255 = divisor.toNat % 256 := Nat.and_two_pow_sub_one_eq_mod _ 8
    rw [show (0xFF : Word).toNat = 255 from rfl, hand]
    omega
  have hhigh : (((divisor >>> 8) &&& 0xFF).setWidth 8).toNat = divisor.toNat / 256 % 256 := by
    rw [BitVec.toNat_setWidth, BitVec.toNat_and, BitVec.toNat_ushiftRight]
    have hand : (divisor.toNat >>> 8) &&& 255 = (divisor.toNat >>> 8) % 256 :=
      Nat.and_two_pow_sub_one_eq_mod _ 8
    rw [show (0xFF : Word).toNat = 255 from rfl, hand, Nat.shiftRight_eq_div_pow]
    omega
  unfold reload program
  simp only [List.filter_append, List.map_append, List.reverse_append]
  show some (((divisor &&& 0xFF).setWidth 8).toNat + 256 *
    (((divisor >>> 8) &&& 0xFF).setWidth 8).toNat) = _
  rw [hlow, hhigh]
  congr 1
  omega

theorem consistent_program (log : List Outb) (tickCount pitHz divisor : Word) :
    Consistent ⟨tickCount, pitHz, divisor⟩ (log ++ program divisor) ↔
      1 ≤ divisor.toNat ∧ divisor.toNat ≤ 65535 := by
  constructor
  · exact fun h => ⟨h.pos, h.le⟩
  · rintro ⟨hpos, hle⟩
    exact ⟨by rw [reload_program, Nat.mod_eq_of_lt (by omega)], hpos, hle⟩

/-- The ticks that the code counts, from one read of the counter to the other. -/
theorem measured_eq (tickCount : Word) (passed : Nat) :
    tickCount + BitVec.ofNat 32 passed - tickCount = BitVec.ofNat 32 passed := by
  bv_omega

theorem measured_eq_zero : BitVec.ofNat 32 c.passed = 0 ↔ c.measured = 0 := by
  rw [← BitVec.toNat_inj, BitVec.toNat_ofNat]
  exact Iff.rfl

/-- A calibration that counts ticks: the quotient that it programs is two at least. -/
theorem calibrate_counted (hdesired : c.desiredHz ≠ 0) (hdivisor : s.currentDivisor ≠ 0)
    (hcount : c.measured ≠ 0) :
    ∃ tickCount newDivisor, pitCalibrateWithRtc s c.desiredHz c.passed =
        (⟨tickCount, c.desiredHz, newDivisor⟩, program newDivisor) ∧
      newDivisor.toNat =
        max 2 (c.measured * s.currentDivisor.toNat % 4294967296 / c.desiredHz.toNat) := by
  have hmeasured : ¬ BitVec.ofNat 32 c.passed = 0 := fun hzero => hcount (measured_eq_zero.mp hzero)
  unfold pitCalibrateWithRtc
  rw [if_neg (not_or.mpr ⟨hdesired, hdivisor⟩)]
  simp only [measured_eq, if_neg hmeasured]
  have hquotient : (BitVec.ofNat 32 c.passed * s.currentDivisor / c.desiredHz).toNat =
      c.measured * s.currentDivisor.toNat % 4294967296 / c.desiredHz.toNat := by
    rw [BitVec.toNat_udiv, BitVec.toNat_mul, BitVec.toNat_ofNat]
    rfl
  refine ⟨_, _, rfl, ?_⟩
  rw [← hquotient]
  generalize BitVec.ofNat 32 c.passed * s.currentDivisor / c.desiredHz = quotient
  by_cases hsmall : quotient < 2
  · have hlt : quotient.toNat < 2 := hsmall
    rw [if_pos hsmall]
    show 2 = max 2 quotient.toNat
    omega
  · have hge : ¬ quotient.toNat < 2 := hsmall
    rw [if_neg hsmall]
    omega

theorem calibrate_none (hdesired : c.desiredHz ≠ 0) (hdivisor : s.currentDivisor ≠ 0)
    (hcount : c.measured = 0) :
    ∃ tickCount, pitCalibrateWithRtc s c.desiredHz c.passed =
      ({ s with tickCount := tickCount }, []) := by
  unfold pitCalibrateWithRtc
  rw [if_neg (not_or.mpr ⟨hdesired, hdivisor⟩)]
  simp only [measured_eq, if_pos (measured_eq_zero.mpr hcount)]
  exact ⟨_, rfl⟩

/-- **One calibration** of a consistent timer. -/
theorem calibrate_iff (h : Consistent s log) :
    NoWrap s c ∧ Consistent (pitCalibrateWithRtc s c.desiredHz c.passed).1
      (log ++ (pitCalibrateWithRtc s c.desiredHz c.passed).2) ↔ Fits s c := by
  have hdivisor : s.currentDivisor ≠ 0 := fun hzero => by
    have hpos := h.pos
    rw [hzero] at hpos
    exact absurd hpos (by decide)
  unfold NoWrap Fits
  by_cases hdesired : c.desiredHz = 0
  · have hreturn : pitCalibrateWithRtc s c.desiredHz c.passed = (s, []) := if_pos (Or.inl hdesired)
    rw [hreturn, List.append_nil]
    exact ⟨fun _ => Or.inl hdesired, fun _ => ⟨fun hne => absurd hdesired hne, h⟩⟩
  have hpos : 0 < c.desiredHz.toNat :=
    Nat.pos_of_ne_zero fun hzero => hdesired (BitVec.eq_of_toNat_eq hzero)
  by_cases hcount : c.measured = 0
  · obtain ⟨tickCount, heq⟩ := calibrate_none hdesired hdivisor hcount
    rw [heq, List.append_nil, hcount, Nat.zero_mul]
    exact ⟨fun _ => Or.inr ⟨by decide, by omega⟩,
      fun _ => ⟨fun _ => by decide, ⟨h.reload, h.pos, h.le⟩⟩⟩
  · obtain ⟨tickCount, newDivisor, heq, hquotient⟩ := calibrate_counted hdesired hdivisor hcount
    rw [heq]
    dsimp only
    rw [consistent_program, hquotient]
    generalize c.measured * s.currentDivisor.toNat = product
    have hfit : product / c.desiredHz.toNat ≤ 65535 ↔ product < 65536 * c.desiredHz.toNat := by
      rw [← Nat.div_lt_iff_lt_mul hpos, Nat.lt_succ_iff]
    constructor
    · rintro ⟨hwrap, -, hle⟩
      have hlt := hwrap hdesired
      rw [Nat.mod_eq_of_lt hlt] at hle
      exact Or.inr ⟨hlt, hfit.mp (by omega)⟩
    · rintro (hzero | ⟨hlt, hsmall⟩)
      · exact absurd hzero hdesired
      · have hle := hfit.mpr hsmall
        rw [Nat.mod_eq_of_lt hlt]
        exact ⟨fun _ => hlt, by omega, by omega⟩

/-- **A run of calibrations.** -/
theorem sound_iff (h : Consistent s log) (cs : List Calibration) : Sound s log cs ↔
    AllFit s cs := by
  induction cs generalizing s log with
  | nil => exact ⟨fun _ => trivial, fun _ => h⟩
  | cons c cs ih =>
    rw [Sound, AllFit, ← calibrate_iff h]
    constructor
    · rintro ⟨-, hwrap, hrest⟩
      have hnext : Consistent _ _ := hrest.consistent
      exact ⟨⟨hwrap, hnext⟩, (ih hnext).mp hrest⟩
    · rintro ⟨⟨hwrap, hnext⟩, hrest⟩
      exact ⟨h, hwrap, (ih hnext).mpr hrest⟩

theorem pitInit_eq (s : State) {frequency : Word} (h : frequency ≠ 0) :
    ∃ s', s'.currentDivisor.toNat = 1193182 / frequency.toNat ∧
      pitInit s frequency = some (s', program s'.currentDivisor) := by
  refine ⟨{ s with pitHz := frequency, currentDivisor := 1193182 / frequency }, ?_, if_neg h⟩
  exact BitVec.toNat_udiv

theorem divisor_iff {frequency : Nat} (h : 0 < frequency) :
    1 ≤ 1193182 / frequency ∧ 1193182 / frequency ≤ 65535 ↔ 19 ≤ frequency ∧
      frequency ≤ 1193182 := by
  have hle : 1193182 / frequency ≤ 65535 ↔ 1193182 < 65536 * frequency := by
    rw [← Nat.div_lt_iff_lt_mul h, Nat.lt_succ_iff]
  rw [Nat.le_div_iff_mul_le h, hle]
  omega

/-- **Programming the timer is consistent** in exactly the runs whose frequency and calibrations
fit: no division by zero, no product that wraps, and what the kernel keeps is what the timer
counts. -/
theorem pit_consistent_iff (s : State) (frequency : Word) (cs : List Calibration) :
    (∃ s' log, pitInit s frequency = some (s', log) ∧ Sound s' log cs) ↔
      (19 ≤ frequency.toNat ∧ frequency.toNat ≤ 1193182) ∧
        ∀ s' log, pitInit s frequency = some (s', log) → AllFit s' cs := by
  by_cases hzero : frequency = 0
  · have hnone : pitInit s frequency = none := if_pos hzero
    constructor
    · rintro ⟨s', log, heq, -⟩
      rw [hnone] at heq
      cases heq
    · rintro ⟨⟨hlow, -⟩, -⟩
      rw [hzero] at hlow
      exact absurd hlow (by decide)
  have hpos : 0 < frequency.toNat := Nat.pos_of_ne_zero fun h => hzero (BitVec.eq_of_toNat_eq h)
  obtain ⟨s', hdivisor, heq⟩ := pitInit_eq s hzero
  have hstart : Consistent s' (program s'.currentDivisor) ↔
      19 ≤ frequency.toNat ∧ frequency.toNat ≤ 1193182 := by
    rw [← divisor_iff hpos, ← hdivisor]
    exact consistent_program [] s'.tickCount s'.pitHz s'.currentDivisor
  constructor
  · rintro ⟨t, log, ht, hsound⟩
    rw [heq] at ht
    cases ht
    refine ⟨hstart.mp hsound.consistent, fun t log ht => ?_⟩
    rw [heq] at ht
    cases ht
    exact (sound_iff hsound.consistent cs).mp hsound
  · rintro ⟨hrange, hall⟩
    exact ⟨s', _, heq, (sound_iff (hstart.mpr hrange) cs).mpr (hall s' _ heq)⟩

/-- A hundred ticks a second, and a calibration that counts as many. -/
theorem pit_consistent_hundred :
    ∃ s' log, pitInit booted 100 = some (s', log) ∧ Sound s' log [⟨100, 100⟩] := by
  refine (pit_consistent_iff booted 100 [⟨100, 100⟩]).mpr ⟨by decide, fun s' log heq => ?_⟩
  cases heq
  exact ⟨Or.inr (by decide), trivial⟩

/-- **Eighteen ticks a second**: the kernel keeps 66287, and the timer counts 751.  With no ticks at
all there is a division by zero, and a calibration may count so many that the product wraps. -/
theorem pit_eighteen : (∃ s' log, pitInit booted 18 = some (s', log) ∧ s'.currentDivisor = 66287 ∧
      reload log = some 751 ∧ ¬ Consistent s' log) ∧
    pitInit booted 0 = none ∧
    ∃ s' log, pitInit booted 100 = some (s', log) ∧ ¬ NoWrap s' ⟨100, 360000⟩ := by
  refine ⟨⟨_, _, rfl, by decide, by decide, fun h => ?_⟩, rfl, _, _, rfl, fun h => ?_⟩
  · exact absurd h.le (by decide)
  · exact absurd (h (by decide)) (by decide)

end

end CobraOS.Pit
