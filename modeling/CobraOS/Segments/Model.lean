import CobraOS.Base.Segment

/-!
# The descriptor tables of the kernel

`setup_gdt_and_tss` fills the GDT, the LDT and the task state segment (TSS), loads their registers,
and then loads the segment registers from the new table.  Where the three arrays are is a parameter.
-/

namespace CobraOS.Segments

open Base Base.X86

/-- The arrays `gdt`, `ldt` and `tss`, which are apart. -/
structure Tables where
  gdt : Word
  ldt : Word
  tss : Word
  gdtLdt : Disjoint (range gdt 56) (range ldt 16)
  gdtTss : Disjoint (range gdt 56) (range tss 104)
  ldtTss : Disjoint (range ldt 16) (range tss 104)

def codeSegment : Selector := 0x08
def dataSegment : Selector := 0x10
def tssSegment : Selector := 0x28
def ldtSegment : Selector := 0x30

/-- `struct gdt_entry` and `struct ldt_entry`. -/
structure GdtEntry where
  limitLow : BitVec 16
  baseLow : BitVec 16
  baseMiddle : BitVec 8
  access : BitVec 8
  granularity : BitVec 8
  baseHigh : BitVec 8

/-- The structure is packed. -/
def GdtEntry.words (e : GdtEntry) : Word × Word :=
  (e.baseLow ++ e.limitLow, e.baseHigh ++ e.granularity ++ e.access ++ e.baseMiddle)

/-- What `gdt_set_gate` and `gdt_set_gate_ldt` write into the fields of an entry. -/
def gateFields (base limit : Word) (access granularity : BitVec 8) : GdtEntry where
  baseLow := (base &&& 0xFFFF).setWidth 16
  baseMiddle := ((base >>> 16) &&& 0xFF).setWidth 8
  baseHigh := ((base >>> 24) &&& 0xFF).setWidth 8
  limitLow := (limit &&& 0xFFFF).setWidth 16
  granularity := (((limit >>> 16) &&& 0x0F) ||| (granularity.setWidth 32 &&& 0xF0)).setWidth 8
  access := access

def gdtSetGateLdt (mem : Bytes32) (a base limit : Word) (access granularity : BitVec 8) : Bytes32 :=
  let e := gateFields base limit access granularity
  store (store mem a e.words.1) (a + 4) e.words.2

def gdtSetGate (t : Tables) (mem : Bytes32) (index : Nat) (base limit : Word)
    (access granularity : BitVec 8) :
    Bytes32 :=
  gdtSetGateLdt mem (entry t.gdt index) base limit access granularity

def initGdt (t : Tables) (mem : Bytes32) : Bytes32 :=
  let mem := gdtSetGate t mem 0 0 0 0 0
  let mem := gdtSetGate t mem 1 0 0xFFFFFFFF 0x9A 0xCF
  let mem := gdtSetGate t mem 2 0 0xFFFFFFFF 0x92 0xCF
  let mem := gdtSetGate t mem 3 0 0xFFFFFFFF 0xFA 0xCF
  let mem := gdtSetGate t mem 4 0 0xFFFFFFFF 0xF2 0xCF
  let mem := gdtSetGate t mem 5 t.tss 103 0x89 0x00
  gdtSetGate t mem 6 t.ldt 15 0x82 0x00

def loadGdt (t : Tables) (m : Segmented) : Segmented := { m with gdtr := ⟨t.gdt, 55⟩ }

def initLdt (t : Tables) (mem : Bytes32) : Bytes32 :=
  let mem := fill mem t.ldt 0 16
  let mem := gdtSetGateLdt mem (entry t.ldt 0) 0 0xFFFFFFFF 0x9A 0xCF
  gdtSetGateLdt mem (entry t.ldt 1) 0 0xFFFFFFFF 0x92 0xCF

def loadLdt (m : Segmented) : Except Stop Segmented := m.lldt ldtSegment

/-- A half word is written. -/
def store16 (mem : Bytes32) (a : Word) (w : BitVec 16) : Bytes32 := fun x =>
  if (x - a).toNat < 2 then w.extractLsb' (8 * (x - a).toNat) 8 else mem x

/-- The fields `ss0`, `esp0`, `ldt` and `iomap_base` are at 8, 4, 96 and 102. -/
def initTss (t : Tables) (mem : Bytes32) : Bytes32 :=
  let mem := fill mem t.tss 0 104
  let mem := store mem (t.tss + 8) (dataSegment.setWidth 32)
  let mem := store mem (t.tss + 4) 0x9000
  let mem := store mem (t.tss + 96) (ldtSegment.setWidth 32)
  store16 mem (t.tss + 102) 104

def loadTss (m : Segmented) : Except Stop Segmented := m.ltr tssSegment

/-- `next` is the address behind the jump. -/
def reloadSegmentRegisters (next : Word) (m : Segmented) : Except Stop Segmented := do
  let m ← m.jump codeSegment next
  let m ← m.movData dataSegment .ds
  let m ← m.movData dataSegment .es
  let m ← m.movData dataSegment .fs
  let m ← m.movData dataSegment .gs
  m.movStack dataSegment

def setupGdtAndTss (t : Tables) (next : Word) (m : Segmented) : Except Stop Segmented := do
  let m := { m with mem := initGdt t m.mem }
  let m := loadGdt t m
  let m := { m with mem := initLdt t m.mem }
  let m ← loadLdt m
  let m := { m with mem := initTss t m.mem }
  let m ← loadTss m
  reloadSegmentRegisters next m

/-! ### The entries -/

theorem low_half (w : Word) : (w &&& 0xFFFF).setWidth 16 = w.extractLsb' 0 16 := by
  have hlow : ∀ i < 16, (0xFFFF : Word).getLsbD i = true := by decide
  refine BitVec.eq_of_getLsbD_eq fun i hi => ?_
  rw [BitVec.getLsbD_setWidth, BitVec.getLsbD_and, hlow i hi, BitVec.getLsbD_extractLsb']
  simp

theorem shifted_byte (w : Word) (k : Nat) :
    ((w >>> k) &&& 0xFF).setWidth 8 = w.extractLsb' k 8 := by
  have hbyte : ∀ i < 8, (0xFF : Word).getLsbD i = true := by decide
  refine BitVec.eq_of_getLsbD_eq fun i hi => ?_
  rw [BitVec.getLsbD_setWidth, BitVec.getLsbD_and, hbyte i hi, BitVec.getLsbD_extractLsb',
    BitVec.getLsbD_ushiftRight]
  simp

theorem granularity_eq (limit : Word) (granularity : BitVec 8) :
    (((limit >>> 16) &&& 0x0F) ||| (granularity.setWidth 32 &&& 0xF0)).setWidth 8 =
      granularity.extractLsb' 4 4 ++ limit.extractLsb' 16 4 := by
  have hlimit : ∀ i < 8, (0x0F : Word).getLsbD i = decide (i < 4) := by decide
  have hflags : ∀ i < 8, (0xF0 : Word).getLsbD i = decide (4 ≤ i) := by decide
  refine BitVec.eq_of_getLsbD_eq fun i hi => ?_
  rw [BitVec.getLsbD_setWidth, BitVec.getLsbD_or, BitVec.getLsbD_and, BitVec.getLsbD_and,
    hlimit i hi,
    hflags i hi, BitVec.getLsbD_ushiftRight, BitVec.getLsbD_setWidth, BitVec.getLsbD_append,
    BitVec.getLsbD_extractLsb', BitVec.getLsbD_extractLsb']
  by_cases h : i < 4
  · simp [h, hi]
  · have hi4 : 4 + (i - 4) = i := by omega
    have hbounds : i < 32 ∧ 4 ≤ i ∧ i - 4 < 4 := by omega
    simp [h, hi, hi4, hbounds]

/-- **What the processor reads in an entry** is what it was set to. -/
theorem gdtSetGateLdt_eq (mem : Bytes32) (a base limit : Word) (access granularity : BitVec 8) :
    gdtSetGateLdt mem a base limit access granularity =
      writeDescriptor mem a ⟨base, limit.extractLsb' 0 20, access,
        granularity.extractLsb' 4 4⟩ := by
  have hlimit : (limit.extractLsb' 0 20).extractLsb' 0 16 = limit.extractLsb' 0 16 ∧
      (limit.extractLsb' 0 20).extractLsb' 16 4 = limit.extractLsb' 16 4 := by
    constructor
    all_goals
      refine BitVec.eq_of_getLsbD_eq fun i hi => ?_
      simp only [BitVec.getLsbD_extractLsb']
      grind
  have hassoc : ∀ (a : BitVec 8) (b c : BitVec 4) (d e : BitVec 8),
      (a ++ (b ++ c) ++ d ++ e : Word) = a ++ b ++ c ++ d ++ e := by
    intro a b c d e
    refine BitVec.eq_of_getLsbD_eq fun i hi => ?_
    simp only [BitVec.getLsbD_append]
    grind
  unfold gdtSetGateLdt gateFields writeDescriptor GdtEntry.words Descriptor.words
  rw [low_half, low_half, shifted_byte, shifted_byte, granularity_eq, hlimit.1, hlimit.2]
  exact congrArg (store _ (a + 4)) (hassoc (base.extractLsb' 24 8) _ _ access _)

end CobraOS.Segments
