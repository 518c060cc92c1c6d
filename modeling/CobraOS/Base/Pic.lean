import CobraOS.Base.BitArray

/-!
# The interrupt controller 8259A and a pair of them

A chip has eight lines, of which line `0` comes first.  A line that was raised is asked for until it
is acknowledged or dropped, when it is not masked and no line before it is in service.
Acknowledging puts it in service, and an end of interrupt (EOI) ends the service of the first line
there.  When no line is asked for any more, a chip acknowledges its last line, which is not put in
service: the interrupt is spurious.

A chip is told what to do through two ports.  A word with bit 4 at the first starts the
initialization, which goes on with words at the second: the vector of line `0`, where the other chip
is, and the mode.

In a pair the second chip is line 2 of the first.  Edge triggered lines, nested priorities and an
EOI without a line are what is here; the commands for other modes do nothing.
-/

namespace Base.Pic

/-- What the second port waits for. -/
inductive Phase
  | ready
  | offset
  | cascade
  | mode
  deriving DecidableEq

structure Chip where
  phase : Phase
  single : Bool
  wantsMode : Bool
  offset : UInt8
  cascade : UInt8
  mode : UInt8
  mask : BitVec 8
  requests : BitVec 8
  service : BitVec 8
  readsService : Bool

/-- The first line of a set. -/
def first (w : BitVec 8) : Option Nat := (List.range 8).find? fun l => w.getLsbD l

def insertLine (w : BitVec 8) (l : Nat) : BitVec 8 := w ||| (1#8 <<< l)

def eraseLine (w : BitVec 8) (l : Nat) : BitVec 8 := w &&& ~~~(1#8 <<< l)

namespace Chip

variable (c : Chip)

/-- A write to the first port. -/
def command (v : UInt8) : Chip :=
  if v.toBitVec.getLsbD 4 then
    { c with
      phase := .offset
      wantsMode := v.toBitVec.getLsbD 0
      single := v.toBitVec.getLsbD 1
      mask := 0
      requests := 0
      readsService := false }
  else if v.toBitVec.getLsbD 3 then
    if v.toBitVec.getLsbD 1 then { c with readsService := v.toBitVec.getLsbD 0 } else c
  else if v >>> 5 = 1 then
    match first c.service with
    | some l => { c with service := eraseLine c.service l }
    | none => c
  else c

/-- A write to the second port. -/
def data (v : UInt8) : Chip :=
  match c.phase with
  | .ready => { c with mask := v.toBitVec }
  | .offset =>
    { c with
      offset := v &&& 0xF8
      phase := if c.single then (if c.wantsMode then .mode else .ready) else .cascade }
  | .cascade => { c with cascade := v, phase := if c.wantsMode then .mode else .ready }
  | .mode => { c with mode := v, phase := .ready }

/-- A read from the first port. -/
def status : UInt8 := ⟨if c.readsService then c.service else c.requests⟩

/-- The line that is asked for. -/
def asks : Option Nat :=
  match first (c.requests &&& ~~~c.mask) with
  | none => none
  | some l =>
    match first c.service with
    | none => some l
    | some l' => if l' ≤ l then none else some l

/-- The line that is acknowledged. -/
def acknowledge : Nat × Chip :=
  match c.asks with
  | some l => (l, { c with requests := eraseLine c.requests l, service := insertLine c.service l })
  | none => (7, c)

def raise (l : Nat) : Chip := { c with requests := insertLine c.requests l }

def drop (l : Nat) : Chip := { c with requests := eraseLine c.requests l }

end Chip

/-! ### Lines -/

section

variable {w : BitVec 8} {l l' : Nat}

theorem getLsbD_insertLine (hl : l < 8) (i : Nat) :
    (insertLine w l).getLsbD i = (w.getLsbD i || decide (i = l)) := by
  unfold insertLine
  rw [BitVec.getLsbD_or, mask_getLsbD hl]

theorem getLsbD_eraseLine (hl : l < 8) {i : Nat} (hi : i < 8) :
    (eraseLine w l).getLsbD i = (w.getLsbD i && decide (i ≠ l)) := by
  unfold eraseLine
  rw [BitVec.getLsbD_and, BitVec.getLsbD_not, mask_getLsbD hl, decide_eq_true hi,
    Bool.true_and, ← decide_not]

theorem first_some (h : first w = some l) : l < 8 ∧ w.getLsbD l = true ∧
    ∀ i < l, w.getLsbD i = false := by
  unfold first at h
  rw [List.find?_range_eq_some] at h
  obtain ⟨hl, hmem, hbefore⟩ := h
  refine ⟨List.mem_range.mp hmem, hl, fun i hi => ?_⟩
  simpa using hbefore i hi

theorem first_none : first w = none ↔ w = 0 := by
  unfold first
  rw [List.find?_eq_none]
  constructor
  · intro h
    refine BitVec.eq_of_getLsbD_eq fun i hi => ?_
    simpa using h i (List.mem_range.mpr hi)
  · rintro rfl l -
    simp

theorem first_eq (hl : l < 8) (hw : w.getLsbD l = true) (hbefore : ∀ i < l, w.getLsbD i = false) :
    first w = some l := by
  unfold first
  rw [List.find?_range_eq_some]
  refine ⟨hw, List.mem_range.mpr hl, fun i hi => ?_⟩
  simpa using hbefore i hi

theorem erase_insert_zero (hl : l < 8) : eraseLine (insertLine 0 l) l = 0 := by
  refine BitVec.eq_of_getLsbD_eq fun i hi => ?_
  rw [getLsbD_eraseLine hl hi, getLsbD_insertLine hl]
  by_cases h : i = l <;> simp [h]

theorem first_insert_zero (hl : l < 8) : first (insertLine 0 l) = some l := by
  refine first_eq hl ?_ fun i hi => ?_
  · rw [getLsbD_insertLine hl]
    simp
  · rw [getLsbD_insertLine hl]
    simp [hi.ne]

/-! ### The end of a service -/

theorem Chip.command_end {c : Chip} (h : first c.service = some l) :
    c.command 0x20 = { c with service := eraseLine c.service l } := by
  unfold Chip.command
  rw [if_neg (by decide), if_neg (by decide), if_pos (by decide), h]

theorem Chip.command_end_none {c : Chip} (h : first c.service = none) : c.command 0x20 = c := by
  unfold Chip.command
  rw [if_neg (by decide), if_neg (by decide), if_pos (by decide), h]

theorem Chip.command_end_requests (c : Chip) : (c.command 0x20).requests = c.requests := by
  cases h : first c.service with
  | none => rw [command_end_none h]
  | some l => rw [command_end h]

end

/-! ### The pair -/

structure Pair where
  master : Chip
  slave : Chip

namespace Pair

variable (p : Pair)

/-- The first chip with its line 2, which follows the second chip. -/
def cascaded : Chip :=
  { p.master with
    requests := if p.slave.asks.isSome then insertLine p.master.requests 2 else eraseLine
      p.master.requests 2 }

/-- A write to a port. -/
def out (port : Nat) (v : UInt8) : Pair :=
  if port = 0x20 then { p with master := p.master.command v }
  else if port = 0x21 then { p with master := p.master.data v }
  else if port = 0xA0 then { p with slave := p.slave.command v }
  else if port = 0xA1 then { p with slave := p.slave.data v }
  else p

/-- A read from a port. -/
def inp (port : Nat) : UInt8 :=
  if port = 0x20 then p.master.status
  else if port = 0x21 then ⟨p.master.mask⟩
  else if port = 0xA0 then p.slave.status
  else if port = 0xA1 then ⟨p.slave.mask⟩
  else 0xFF

/-- The vector that the processor gets, from the second chip when line 2 is acknowledged. -/
def acknowledge : UInt8 × Pair :=
  match p.cascaded.asks with
  | some 2 =>
    let (l, slave) := p.slave.acknowledge
    (slave.offset + UInt8.ofNat l, ⟨p.cascaded.acknowledge.2, slave⟩)
  | some l => (p.master.offset + UInt8.ofNat l, { p with master := p.cascaded.acknowledge.2 })
  | none => (p.master.offset + 7, p)

/-- A line of the pair, from `0` to `15`. -/
def raise (l : Nat) : Pair :=
  if l < 8 then { p with master := p.master.raise l } else { p with slave := p.slave.raise (l - 8) }

def drop (l : Nat) : Pair :=
  if l < 8 then { p with master := p.master.drop l } else { p with slave := p.slave.drop (l - 8) }

/-- The line whose vector the processor gets. -/
def asked : Option Nat :=
  match p.cascaded.asks with
  | some 2 => p.slave.asks.map (8 + ·)
  | some l => some l
  | none => none

/-- Whether a line is requested. -/
def requested (l : Nat) : Bool :=
  if l < 8 then p.master.requests.getLsbD l else p.slave.requests.getLsbD (l - 8)

/-- Whether a line is masked. -/
def masked (l : Nat) : Bool :=
  if l < 8 then p.master.mask.getLsbD l else p.slave.mask.getLsbD (l - 8)

/-- Whether an unmasked line can interrupt: a line of the second chip needs line 2. -/
def opens (l : Nat) : Bool := !p.masked l && (decide (l < 8) || !p.masked 2)

variable {p} {l j : Nat}

theorem requested_raise (hl : l < 16) (j : Nat) :
    (p.raise l).requested j = (p.requested j || decide (j = l)) := by
  unfold requested raise
  by_cases hl8 : l < 8 <;> by_cases hj8 : j < 8 <;> simp only [hl8, hj8, if_true, if_false]
  · exact getLsbD_insertLine hl8 j
  · rw [decide_eq_false (show ¬ j = l by omega), Bool.or_false]
  · rw [decide_eq_false (show ¬ j = l by omega), Bool.or_false]
  · show (insertLine _ _).getLsbD _ = _
    rw [getLsbD_insertLine (show l - 8 < 8 by omega),
      decide_eq_decide.mpr (show j - 8 = l - 8 ↔ j = l by omega)]

theorem requested_drop (hl : l < 16) (hj : j < 16) :
    (p.drop l).requested j = (p.requested j && decide (j ≠ l)) := by
  unfold requested drop
  by_cases hl8 : l < 8 <;> by_cases hj8 : j < 8 <;> simp only [hl8, hj8, if_true, if_false]
  · exact getLsbD_eraseLine hl8 hj8
  · rw [decide_eq_true (show j ≠ l by omega), Bool.and_true]
  · rw [decide_eq_true (show j ≠ l by omega), Bool.and_true]
  · show (eraseLine _ _).getLsbD _ = _
    rw [getLsbD_eraseLine (show l - 8 < 8 by omega) (show j - 8 < 8 by omega),
      decide_eq_decide.mpr (show j - 8 ≠ l - 8 ↔ j ≠ l by omega)]

end Pair

/-! ### What is asked for -/

section

variable {c : Chip} {p : Pair} {l j : Nat}

/-- A line is asked for when it is requested and not masked, and none before it is. -/
theorem Chip.asks_some (h : c.asks = some l) : l < 8 ∧ c.requests.getLsbD l = true ∧
    c.mask.getLsbD l = false ∧
    ∀ i < l, c.requests.getLsbD i = true → c.mask.getLsbD i = true := by
  unfold Chip.asks at h
  cases hfirst : first (c.requests &&& ~~~c.mask) with
  | none =>
    rw [hfirst] at h
    cases h
  | some i =>
    have hi : i = l := by
      rw [hfirst] at h
      cases hservice : first c.service with
      | none =>
        rw [hservice] at h
        exact Option.some.inj h
      | some i' =>
        rw [hservice] at h
        dsimp only at h
        split at h
        · cases h
        · exact Option.some.inj h
    subst hi
    obtain ⟨hlt, hbit, hbefore⟩ := first_some hfirst
    rw [BitVec.getLsbD_and, BitVec.getLsbD_not, decide_eq_true hlt, Bool.true_and, Bool.and_eq_true,
      Bool.not_eq_true'] at hbit
    refine ⟨hlt, hbit.1, hbit.2, fun k hk hrequest => ?_⟩
    have hno := hbefore k hk
    rw [BitVec.getLsbD_and, BitVec.getLsbD_not, decide_eq_true (show k < 8 by omega),
      Bool.true_and, hrequest,
      Bool.true_and] at hno
    simpa using hno

/-- With nothing in service a line that is requested and not masked is not kept waiting. -/
theorem Chip.asks_isSome (hservice : c.service = 0) (hl : l < 8)
    (hrequest : c.requests.getLsbD l = true) (hmask : c.mask.getLsbD l = false) :
    ∃ i ≤ l, c.asks = some i := by
  unfold Chip.asks
  rw [hservice, first_none.mpr rfl]
  cases hfirst : first (c.requests &&& ~~~c.mask) with
  | none =>
    have hzero := first_none.mp hfirst
    have hbit : (c.requests &&& ~~~c.mask).getLsbD l = true := by
      rw [BitVec.getLsbD_and, BitVec.getLsbD_not, decide_eq_true hl, hrequest, hmask]
      rfl
    rw [hzero] at hbit
    simp at hbit
  | some i =>
    obtain ⟨-, -, hbefore⟩ := first_some hfirst
    refine ⟨i, ?_, rfl⟩
    by_contra hlt
    have hno := hbefore l (by omega)
    rw [BitVec.getLsbD_and, BitVec.getLsbD_not, decide_eq_true hl, hrequest, hmask] at hno
    cases hno

theorem Pair.getLsbD_cascaded (hj : j < 8) (htwo : j ≠ 2) :
    p.cascaded.requests.getLsbD j = p.master.requests.getLsbD j := by
  unfold Pair.cascaded
  dsimp only
  split
  · rw [getLsbD_insertLine (by decide), decide_eq_false htwo, Bool.or_false]
  · rw [getLsbD_eraseLine (by decide) hj, decide_eq_true htwo, Bool.and_true]

theorem Pair.acknowledge_two (h : p.cascaded.asks = some 2) :
    p.acknowledge = (p.slave.acknowledge.2.offset + UInt8.ofNat p.slave.acknowledge.1,
      ⟨p.cascaded.acknowledge.2, p.slave.acknowledge.2⟩) ∧ p.asked = p.slave.asks.map (8 + ·) := by
  unfold Pair.acknowledge Pair.asked
  rw [h]
  exact ⟨rfl, rfl⟩

theorem Pair.acknowledge_line (h : p.cascaded.asks = some l) (htwo : l ≠ 2) :
    p.acknowledge =
      (p.master.offset + UInt8.ofNat l, { p with master := p.cascaded.acknowledge.2 }) ∧
      p.asked = some l := by
  unfold Pair.acknowledge Pair.asked
  rw [h]
  split
  · next heq => exact absurd (Option.some.inj heq) htwo
  · next heq => cases heq; exact ⟨rfl, rfl⟩
  · next heq => cases heq

theorem Pair.acknowledge_none (h : p.cascaded.asks = none) :
    p.acknowledge = (p.master.offset + 7, p) ∧ p.asked = none := by
  unfold Pair.acknowledge Pair.asked
  rw [h]
  exact ⟨rfl, rfl⟩

theorem Pair.slave_asks (h : p.cascaded.asks = some 2) : ∃ k, p.slave.asks = some k := by
  refine Option.isSome_iff_exists.mp ?_
  by_contra hno
  obtain ⟨-, hrequest, -, -⟩ := Chip.asks_some h
  unfold Pair.cascaded at hrequest
  dsimp only at hrequest
  rw [if_neg hno, getLsbD_eraseLine (by decide) (by decide)] at hrequest
  simp at hrequest

/-- The vector is of a line that was requested, and that is not masked. -/
theorem Pair.asked_some (h : p.asked = some l) :
    l < 16 ∧ l ≠ 2 ∧ p.requested l = true ∧ p.masked l = false := by
  unfold Pair.requested Pair.masked
  cases hasks : p.cascaded.asks with
  | none =>
    rw [(Pair.acknowledge_none hasks).2] at h
    cases h
  | some i =>
    obtain ⟨hi, hrequest, hmask, -⟩ := Chip.asks_some hasks
    by_cases htwo : i = 2
    · subst htwo
      rw [(Pair.acknowledge_two hasks).2] at h
      obtain ⟨k, hk, rfl⟩ := Option.map_eq_some_iff.mp h
      obtain ⟨hlt, hrequest, hmask, -⟩ := Chip.asks_some hk
      refine ⟨by omega, by omega, ?_⟩
      rw [if_neg (by omega), if_neg (by omega), Nat.add_sub_cancel_left]
      exact ⟨hrequest, hmask⟩
    · rw [(Pair.acknowledge_line hasks htwo).2] at h
      cases h
      rw [Pair.getLsbD_cascaded hi htwo] at hrequest
      rw [if_pos hi, if_pos hi]
      exact ⟨by omega, htwo, hrequest, hmask⟩

/-- The order in which lines are asked for: those of the second chip come where line 2 is. -/
def rank (l : Nat) : Nat := if l < 2 then l else if l < 8 then l + 8 else l - 6

/-- **No line waits for one that comes after it**, when nothing is in service. -/
theorem Pair.asked_rank (hmaster : p.master.service = 0) (hslave : p.slave.service = 0)
    (hj : j < 16) (htwo : j ≠ 2) (hrequest : p.requested j = true) (hopens : p.opens j = true) :
    ∃ l, p.asked = some l ∧ rank l ≤ rank j := by
  unfold Pair.opens at hopens
  rw [Bool.and_eq_true, Bool.not_eq_true'] at hopens
  obtain ⟨hmask, htwoOpen⟩ := hopens
  unfold Pair.requested at hrequest
  unfold Pair.masked at hmask
  have hline : ∀ i, p.cascaded.asks = some i → i ≠ 2 → rank i ≤ rank j → ∃ l, p.asked = some l ∧
      rank l ≤ rank j :=
    fun i hi hne hle => ⟨i, (Pair.acknowledge_line hi hne).2, hle⟩
  have htwice : ∀ k, p.cascaded.asks = some 2 → p.slave.asks = some k → rank (8 + k) ≤ rank j →
      ∃ l, p.asked = some l ∧ rank l ≤ rank j := by
    intro k hasks hk hle
    refine ⟨8 + k, ?_, hle⟩
    rw [(Pair.acknowledge_two hasks).2, hk]
    rfl
  have hservice : p.cascaded.service = 0 := hmaster
  by_cases hj8 : j < 8
  · rw [if_pos hj8] at hrequest hmask
    obtain ⟨i, hi, hasks⟩ :=
      Chip.asks_isSome hservice hj8 ((Pair.getLsbD_cascaded hj8 htwo).trans hrequest) hmask
    by_cases hitwo : i = 2
    · subst hitwo
      obtain ⟨k, hk⟩ := Pair.slave_asks hasks
      have := (Chip.asks_some hk).1
      refine htwice k hasks hk ?_
      unfold rank
      split_ifs <;> omega
    · refine hline i hasks hitwo ?_
      unfold rank
      split_ifs <;> omega
  · rw [if_neg hj8] at hrequest hmask
    obtain ⟨k, hkj, hk⟩ := Chip.asks_isSome hslave (by omega) hrequest hmask
    have hcascade : p.cascaded.requests.getLsbD 2 = true := by
      unfold Pair.cascaded
      dsimp only
      rw [hk, Option.isSome_some, if_pos rfl, getLsbD_insertLine (by decide)]
      simp
    have hopen : p.cascaded.mask.getLsbD 2 = false := by
      rw [decide_eq_false hj8, Bool.false_or, Bool.not_eq_true'] at htwoOpen
      exact htwoOpen
    obtain ⟨i, hi, hasks⟩ := Chip.asks_isSome hservice (by decide) hcascade hopen
    by_cases hitwo : i = 2
    · subst hitwo
      refine htwice k hasks hk ?_
      unfold rank
      split_ifs <;> omega
    · refine hline i hasks hitwo ?_
      unfold rank
      split_ifs <;> omega

theorem Chip.requests_acknowledge (hj : j < 8) :
    c.acknowledge.2.requests.getLsbD j = (c.requests.getLsbD j && decide (c.asks ≠ some j)) := by
  unfold Chip.acknowledge
  cases hasks : c.asks with
  | none => simp
  | some i =>
    show (eraseLine _ _).getLsbD _ = _
    rw [getLsbD_eraseLine (Chip.asks_some hasks).1 hj]
    congr 1
    exact decide_eq_decide.mpr ⟨fun h he => h (Option.some.inj he).symm, fun h he => h (he ▸ rfl)⟩

/-- **Acknowledging** takes back one request, that of the line. -/
theorem Pair.requested_acknowledge (hj : j < 16) (htwo : j ≠ 2) :
    p.acknowledge.2.requested j = (p.requested j && decide (p.asked ≠ some j)) := by
  have hmaster : j < 8 → p.cascaded.acknowledge.2.requests.getLsbD j =
      (p.master.requests.getLsbD j && decide (p.cascaded.asks ≠ some j)) := fun hj8 => by
    rw [Chip.requests_acknowledge hj8, Pair.getLsbD_cascaded hj8 htwo]
  cases hasks : p.cascaded.asks with
  | none =>
    obtain ⟨hack, hasked⟩ := Pair.acknowledge_none hasks
    simp [hack, hasked]
  | some i =>
    by_cases hitwo : i = 2
    · subst hitwo
      obtain ⟨hack, hasked⟩ := Pair.acknowledge_two hasks
      rw [hack, hasked]
      unfold Pair.requested
      dsimp only
      by_cases hj8 : j < 8
      · rw [if_pos hj8, if_pos hj8, hmaster hj8, hasks]
        congr 1
        refine decide_eq_decide.mpr ⟨fun _ h => ?_, fun _ h => htwo (Option.some.inj h).symm⟩
        obtain ⟨k, -, hk⟩ := Option.map_eq_some_iff.mp h
        omega
      · rw [if_neg hj8, if_neg hj8, Chip.requests_acknowledge (by omega)]
        congr 1
        refine decide_eq_decide.mpr (not_congr ⟨fun h => ?_, fun h => ?_⟩)
        · rw [h, Option.map_some, Nat.add_sub_cancel' (by omega)]
        · obtain ⟨k, hk, rfl⟩ := Option.map_eq_some_iff.mp h
          rw [hk, Nat.add_sub_cancel_left]
    · obtain ⟨hack, hasked⟩ := Pair.acknowledge_line hasks hitwo
      rw [hack, hasked]
      unfold Pair.requested
      dsimp only
      by_cases hj8 : j < 8
      · rw [if_pos hj8, if_pos hj8, hmaster hj8, hasks]
      · have hi := (Chip.asks_some hasks).1
        have hne : some i ≠ some j := fun h => by
          have := Option.some.inj h
          omega
        rw [if_neg hj8, if_neg hj8, decide_eq_true hne, Bool.and_true]

end

end Base.Pic
