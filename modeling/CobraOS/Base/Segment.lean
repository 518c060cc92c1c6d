import CobraOS.Base.Gate
import CobraOS.Base.System

/-!
# Segments of the 32-bit x86 processor

A segment register has a hidden descriptor, which the processor reads from the global or the local
descriptor table (GDT, LDT) when a selector is loaded.  An offset is checked against the limit of
the descriptor and added to its base.

The instructions that load a selector check what they read, and write back that a segment was
accessed or that a task is busy.  `Guarded` says that every segment that a selector can name has a
property, and every segment in a register; it holds after every run that leaves the entries of the
tables alone (`guarded_run`).
-/

namespace Base.X86

/-! ### Descriptors -/

structure Descriptor where
  base : Word
  limit : BitVec 20
  access : BitVec 8
  flags : BitVec 4

namespace Descriptor

/-- The two words of an entry. -/
def words (d : Descriptor) : Word × Word :=
  (d.base.extractLsb' 0 16 ++ d.limit.extractLsb' 0 16,
    d.base.extractLsb' 24 8 ++ d.flags ++ d.limit.extractLsb' 16 4 ++ d.access ++
      d.base.extractLsb' 16 8)

def ofWords (low high : Word) : Descriptor where
  base := high.extractLsb' 24 8 ++ high.extractLsb' 0 8 ++ low.extractLsb' 16 16
  limit := high.extractLsb' 16 4 ++ low.extractLsb' 0 16
  access := high.extractLsb' 8 8
  flags := high.extractLsb' 20 4

/-- **A descriptor is read back from its words.** -/
theorem ofWords_words (d : Descriptor) : ofWords d.words.1 d.words.2 = d := by
  obtain ⟨base, limit, access, flags⟩ := d
  unfold ofWords words
  simp only [Descriptor.mk.injEq]
  refine ⟨?_, ?_, ?_, ?_⟩
  all_goals
    refine BitVec.eq_of_getLsbD_eq fun i hi => ?_
    simp only [BitVec.getLsbD_append, BitVec.getLsbD_extractLsb']
    grind

variable (d : Descriptor)

def present : Bool := d.access.getLsbD 7

def dpl : BitVec 2 := d.access.extractLsb' 5 2

/-- What is described: the type, and above it whether it is a segment of memory. -/
def kind : BitVec 5 := d.access.extractLsb' 0 5

def isSegment : Bool := d.kind.getLsbD 4

def isCode : Bool := d.isSegment && d.kind.getLsbD 3

def isData : Bool := d.isSegment && !d.kind.getLsbD 3

def conforming : Bool := d.isCode && d.kind.getLsbD 2

def expandDown : Bool := d.isData && d.kind.getLsbD 2

def readable : Bool := d.isData || d.isCode && d.kind.getLsbD 1

def writable : Bool := d.isData && d.kind.getLsbD 1

def isLdt : Bool := d.kind == 2

/-- A task that can be started, with 16 or with 32 bits. -/
def isFreeTask : Bool := d.kind == 1 || d.kind == 9

def accessed : Descriptor := { d with access := d.access ||| 1 }

def busy : Descriptor := { d with access := d.access ||| 2 }

/-- The limit in bytes. -/
def span : Nat := if d.flags.getLsbD 3 then 4096 * d.limit.toNat + 4095 else d.limit.toNat

/-- The `n` bytes from an offset on are in the segment. -/
def Holds (offset : Word) (n : Nat) : Prop :=
  if d.expandDown then
    d.span < offset.toNat ∧ offset.toNat + n ≤ if d.flags.getLsbD 2 then 4294967296 else 65536
  else offset.toNat + n ≤ d.span + 1

instance (offset : Word) (n : Nat) : Decidable (d.Holds offset n) := by
  unfold Holds
  infer_instance

def linear (offset : Word) : Word := d.base + offset

/-- A segment of the whole memory. -/
structure Flat : Prop where
  base : d.base = 0
  span : d.span = 4294967295
  up : d.expandDown = false

variable {d}

theorem Flat.holds_iff (h : d.Flat) {offset : Word} {n : Nat} :
    d.Holds offset n ↔ offset.toNat + n ≤ 4294967296 := by
  unfold Holds
  rw [h.up, if_neg Bool.false_ne_true, h.span]

theorem Flat.linear_eq (h : d.Flat) (offset : Word) : d.linear offset = offset := by
  unfold linear
  rw [h.base]
  exact BitVec.zero_add offset

theorem kind_accessed : d.accessed.kind = d.kind ||| 1 := by
  unfold kind accessed
  rw [BitVec.extractLsb'_or]
  rfl

theorem kind_busy : d.busy.kind = d.kind ||| 2 := by
  unfold kind busy
  rw [BitVec.extractLsb'_or]
  rfl

theorem Flat.accessed (h : d.Flat) : d.accessed.Flat := by
  have hall : ∀ k : BitVec 5, (k ||| 1).getLsbD 4 = k.getLsbD 4 ∧
      (k ||| 1).getLsbD 3 = k.getLsbD 3 ∧
      (k ||| 1).getLsbD 2 = k.getLsbD 2 := by decide
  refine ⟨h.base, h.span, ?_⟩
  have hup := h.up
  unfold expandDown isData isSegment at hup ⊢
  rw [kind_accessed, (hall _).1, (hall _).2.1, (hall _).2.2, hup]

theorem isLdt_accessed (h : d.isSegment = true) : d.accessed.isLdt = false := by
  have hall : ∀ k : BitVec 5, k.getLsbD 4 = true → (k ||| 1 == 2) = false := by decide
  unfold isLdt
  rw [kind_accessed, hall _ h]

theorem busy_system (h : d.isFreeTask = true) : d.busy.isSegment = false ∧
    d.busy.isLdt = false := by
  have hall : ∀ k : BitVec 5, (k == 1 || k == 9) = true → (k ||| 2).getLsbD 4 = false ∧
      (k ||| 2 == 2) = false := by
    decide
  unfold isSegment isLdt
  rw [kind_busy]
  exact hall _ h

end Descriptor

/-! ### Tables -/

def descriptorAt (mem : Bytes32) (a : Word) : Descriptor := .ofWords (load mem a) (load mem (a + 4))

def writeDescriptor (mem : Bytes32) (a : Word) (d : Descriptor) : Bytes32 :=
  store (store mem a d.words.1) (a + 4) d.words.2

section

variable {mem mem' : Bytes32} {a b : Word} {d : Descriptor}

theorem range_parts (a : Word) : range a 4 ⊆ range a 8 ∧ range (a + 4) 4 ⊆ range a 8 :=
  ⟨range_mono (by decide), range_add_subset (i := 4) (by decide) (by decide)⟩

theorem descriptorAt_congr (h : ∀ x ∈ range a 8, mem' x = mem x) :
    descriptorAt mem' a = descriptorAt mem a := by
  obtain ⟨hlow, hhigh⟩ := range_parts a
  unfold descriptorAt
  rw [load_congr fun x hx => h x (hlow hx), load_congr fun x hx => h x (hhigh hx)]

theorem writeDescriptor_out {x : Word} (hx : x ∉ range a 8) :
    writeDescriptor mem a d x = mem x := by
  obtain ⟨hlow, hhigh⟩ := range_parts a
  unfold writeDescriptor
  rw [store_out _ fun h => hx (hhigh h), store_out _ fun h => hx (hlow h)]

theorem descriptorAt_write : descriptorAt (writeDescriptor mem a d) a = d := by
  have hparts : Disjoint (range a 4) (range (a + 4) 4) := by
    have hw := words_disjoint (i := 0) (j := 4) (by decide) (by decide) a
    rwa [show a + BitVec.ofNat 32 0 = a by simp] at hw
  unfold descriptorAt writeDescriptor
  rw [load_store, load_store_of_disjoint _ hparts, load_store, Descriptor.ofWords_words]

theorem descriptorAt_write_ne (h : Disjoint (range b 8) (range a 8)) :
    descriptorAt (writeDescriptor mem a d) b = descriptorAt mem b :=
  descriptorAt_congr fun _ hx => writeDescriptor_out (Set.disjoint_left.mp h hx)

/-- The entries of a table are the descriptors `f`. -/
def Reads (mem : Bytes32) (base : Word) (n : Nat) (f : Nat → Descriptor) : Prop :=
  ∀ i < n, descriptorAt mem (entry base i) = f i

variable {base : Word} {i j n : Nat} {f : Nat → Descriptor}

theorem entry_subset (hi : i < n) (hn : n ≤ 8192) : range (entry base i) 8 ⊆ range base (8 * n) :=
  range_add_subset (by omega) (by omega)

theorem entry_disjoint (hi : i < 8192) (hj : j < 8192) (hne : i ≠ j) :
    Disjoint (range (entry base i) 8) (range (entry base j) 8) := by
  rcases Nat.lt_or_gt_of_ne hne with h | h
  · exact range_add_disjoint (by omega) (by omega)
  · exact (range_add_disjoint (by omega) (by omega)).symm

theorem Reads.congr (h : Reads mem base n f) (hn : n ≤ 8192)
    (hkeep : ∀ x ∈ range base (8 * n), mem' x = mem x) :
    Reads mem' base n f := by
  intro i hi
  rw [descriptorAt_congr fun x hx => hkeep x (entry_subset hi hn hx)]
  exact h i hi

theorem Reads.write (h : Reads mem base n f) (hj : j < n) (hn : n ≤ 8192) (d : Descriptor) :
    Reads (writeDescriptor mem (entry base j) d) base n (Function.update f j d) := by
  intro i hi
  by_cases hij : i = j
  · rw [hij, descriptorAt_write, Function.update_self]
  · rw [descriptorAt_write_ne (entry_disjoint (by omega) (by omega) hij), Function.update_of_ne hij]
    exact h i hi

end

/-! ### Loading selectors -/

inductive DataReg
  | ds | es | fs | gs
  deriving DecidableEq

inductive SegReg
  | cs | ss
  | data (r : DataReg)
  deriving DecidableEq

abbrev Selector := BitVec 16

namespace Selector

variable (s : Selector)

def index : Nat := (s >>> 3).toNat

def inLdt : Bool := s.getLsbD 2

def rpl : BitVec 2 := s.extractLsb' 0 2

def isNull : Bool := s.extractLsb' 2 14 == 0

end Selector

/-- The register of the GDT. -/
structure Gdtr where
  base : Word
  limit : BitVec 16

/-- Memory, the tables, and the hidden parts of the registers. -/
structure Segmented where
  mem : Bytes32
  gdtr : Gdtr
  ldt : Option Descriptor
  task : Option Descriptor
  seg : SegReg → Option Descriptor
  cpl : BitVec 2

/-- Why an instruction does not complete; `transfer` is a jump through a gate or to a task, which is
not modelled. -/
inductive Stop
  | gp | np | ss | transfer
  deriving DecidableEq

inductive SegInstr
  | movData (r : DataReg) (s : Selector)
  | movStack (s : Selector)
  | jump (s : Selector) (offset : Word)
  | lldt (s : Selector)
  | ltr (s : Selector)

namespace Segmented

variable (m : Segmented) (s : Selector)

/-- Where the descriptor of a selector is. -/
def place : Option Word :=
  if s.inLdt then
    match m.ldt with
    | none => none
    | some d => if 8 * s.index + 7 ≤ d.span then some (entry d.base s.index) else none
  else if 8 * s.index + 7 ≤ m.gdtr.limit.toNat then some (entry m.gdtr.base s.index)
  else none

def fetch : Except Stop (Word × Descriptor) :=
  match m.place s with
  | none => .error .gp
  | some a => .ok (a, descriptorAt m.mem a)

/-- The descriptor goes into the register. -/
def install (r : SegReg) (a : Word) (d : Descriptor) : Segmented :=
  { m with
    mem := writeDescriptor m.mem a d.accessed,
    seg := Function.update m.seg r (some d.accessed) }

def movData (r : DataReg) : Except Stop Segmented :=
  if s.isNull then .ok { m with seg := Function.update m.seg (.data r) none }
  else do
    let (a, d) ← m.fetch s
    if d.readable = false ∨ d.conforming = false ∧ (d.dpl < m.cpl ∨ d.dpl < s.rpl) then .error .gp
    else if d.present = false then .error .np
    else .ok (m.install (.data r) a d)

def movStack : Except Stop Segmented :=
  if s.isNull then .error .gp
  else do
    let (a, d) ← m.fetch s
    if d.writable = false ∨ s.rpl ≠ m.cpl ∨ d.dpl ≠ m.cpl then .error .gp
    else if d.present = false then .error .ss
    else .ok (m.install .ss a d)

def jump (offset : Word) : Except Stop Segmented :=
  if s.isNull then .error .gp
  else do
    let (a, d) ← m.fetch s
    if d.isSegment = false then .error .transfer
    else if d.isCode = false ∨
      (if d.conforming then m.cpl < d.dpl else m.cpl < s.rpl ∨ d.dpl ≠ m.cpl) then .error .gp
    else if d.present = false then .error .np
    else if ¬d.Holds offset 1 then .error .gp
    else .ok (m.install .cs a d)

def lldt : Except Stop Segmented :=
  if m.cpl ≠ 0 then .error .gp
  else if s.isNull then .ok { m with ldt := none }
  else if s.inLdt then .error .gp
  else do
    let (_, d) ← m.fetch s
    if d.isLdt = false then .error .gp
    else if d.present = false then .error .np
    else .ok { m with ldt := some d }

def ltr : Except Stop Segmented :=
  if m.cpl ≠ 0 ∨ s.isNull = true ∨ s.inLdt = true then .error .gp
  else do
    let (a, d) ← m.fetch s
    if d.isFreeTask = false then .error .gp
    else if d.present = false then .error .np
    else .ok { m with mem := writeDescriptor m.mem a d.busy, task := some d.busy }

def exec : SegInstr → Except Stop Segmented
  | .movData r s => m.movData s r
  | .movStack s => m.movStack s
  | .jump s offset => m.jump s offset
  | .lldt s => m.lldt s
  | .ltr s => m.ltr s

end Segmented

/-! ### What an instruction can do -/

section

variable {m m' : Segmented} {s : Selector} {a : Word} {d : Descriptor} {α : Type}

theorem Segmented.fetch_bind {f : Word × Descriptor → Except Stop α} {x : α}
    (h : (m.fetch s >>= f) = .ok x) :
    ∃ a, m.place s = some a ∧ f (a, descriptorAt m.mem a) = .ok x := by
  unfold fetch at h
  cases hplace : m.place s with
  | none =>
    rw [hplace] at h
    cases h
  | some a =>
    rw [hplace] at h
    exact ⟨a, rfl, h⟩

theorem Segmented.movData_ok {r : DataReg} (hnull : s.isNull = false)
    (hfetch : m.fetch s = .ok (a, d)) (hread : d.readable = true)
    (hdpl : ¬(d.dpl < m.cpl ∨ d.dpl < s.rpl)) (hp : d.present = true) :
    m.movData s r = .ok (m.install (.data r) a d) := by
  unfold movData
  rw [hnull, if_neg Bool.false_ne_true, hfetch]
  show (if _ then _ else _) = _
  rw [if_neg fun h => h.elim (fun hno => Bool.eq_false_iff.mp hno hread) fun hc => hdpl hc.2,
    if_neg fun hno => Bool.eq_false_iff.mp hno hp]

theorem Segmented.movStack_ok (hnull : s.isNull = false) (hfetch : m.fetch s = .ok (a, d))
    (hwrite : d.writable = true) (hrpl : s.rpl = m.cpl) (hdpl : d.dpl = m.cpl)
    (hp : d.present = true) :
    m.movStack s = .ok (m.install .ss a d) := by
  unfold movStack
  rw [hnull, if_neg Bool.false_ne_true, hfetch]
  show (if _ then _ else _) = _
  rw [if_neg, if_neg fun hno => Bool.eq_false_iff.mp hno hp]
  rintro (hno | hne | hne)
  · exact Bool.eq_false_iff.mp hno hwrite
  · exact hne hrpl
  · exact hne hdpl

theorem Segmented.jump_ok {offset : Word} (hnull : s.isNull = false)
    (hfetch : m.fetch s = .ok (a, d)) (hcode : d.isCode = true) (hplain : d.conforming = false)
    (hrpl : ¬m.cpl < s.rpl) (hdpl : d.dpl = m.cpl) (hp : d.present = true)
    (hin : d.Holds offset 1) : m.jump s offset = .ok (m.install .cs a d) := by
  have hsegment : d.isSegment = true := by
    unfold Descriptor.isCode at hcode
    exact (Bool.and_eq_true_iff.mp hcode).1
  unfold jump
  rw [hnull, if_neg Bool.false_ne_true, hfetch]
  show (if _ then _ else _) = _
  rw [if_neg fun hno => Bool.eq_false_iff.mp hno hsegment, if_neg,
    if_neg fun hno => Bool.eq_false_iff.mp hno hp, if_neg fun hno => hno hin]
  rw [hplain, if_neg Bool.false_ne_true]
  rintro (hno | hlt | hne)
  · exact Bool.eq_false_iff.mp hno hcode
  · exact hrpl hlt
  · exact hne hdpl

theorem Segmented.lldt_ok (hcpl : m.cpl = 0) (hnull : s.isNull = false) (hti : s.inLdt = false)
    (hfetch : m.fetch s = .ok (a, d)) (hldt : d.isLdt = true) (hp : d.present = true) :
    m.lldt s = .ok { m with ldt := some d } := by
  unfold lldt
  rw [if_neg fun h => h hcpl, hnull, if_neg Bool.false_ne_true, hti,
    if_neg Bool.false_ne_true, hfetch]
  show (if _ then _ else _) = _
  rw [if_neg fun hno => Bool.eq_false_iff.mp hno hldt,
    if_neg fun hno => Bool.eq_false_iff.mp hno hp]

theorem Segmented.ltr_ok (hcpl : m.cpl = 0) (hnull : s.isNull = false) (hti : s.inLdt = false)
    (hfetch : m.fetch s = .ok (a, d)) (htask : d.isFreeTask = true) (hp : d.present = true) :
    m.ltr s = .ok { m with mem := writeDescriptor m.mem a d.busy, task := some d.busy } := by
  unfold ltr
  rw [if_neg, hfetch]
  · show (if _ then _ else _) = _
    rw [if_neg fun hno => Bool.eq_false_iff.mp hno htask,
      if_neg fun hno => Bool.eq_false_iff.mp hno hp]
  · rintro (hne | hno | hno)
    · exact hne hcpl
    · exact Bool.eq_false_iff.mp hnull hno
    · exact Bool.eq_false_iff.mp hti hno

theorem Segmented.fetch_gdt {f : Nat → Descriptor} {n : Nat} (hti : s.inLdt = false)
    (hlimit : m.gdtr.limit.toNat + 1 = 8 * n) (hi : s.index < n) (h : Reads m.mem m.gdtr.base n f) :
    m.fetch s = .ok (entry m.gdtr.base s.index, f s.index) := by
  have hplace : m.place s = some (entry m.gdtr.base s.index) := by
    unfold place
    rw [hti, if_neg Bool.false_ne_true, if_pos (by omega)]
  unfold fetch
  rw [hplace, ← h _ hi]

theorem Descriptor.isSegment_of_readable (h : d.readable = true) : d.isSegment = true := by
  unfold readable isData isCode at h
  cases hs : d.isSegment with
  | true => rfl
  | false => simp [hs] at h

theorem Descriptor.isSegment_of_writable (h : d.writable = true) : d.isSegment = true := by
  unfold writable isData at h
  cases hs : d.isSegment with
  | true => rfl
  | false => simp [hs] at h

/-- **What an instruction does** when it completes. -/
theorem Segmented.exec_cases {i : SegInstr} (h : m.exec i = .ok m') :
    (∃ r, m' = { m with seg := Function.update m.seg r none }) ∨
    (∃ r s a, m.place s = some a ∧ (descriptorAt m.mem a).isSegment = true ∧
      m' = m.install r a (descriptorAt m.mem a)) ∨
    m' = { m with ldt := none } ∨
    (∃ s a, m.place s = some a ∧ (descriptorAt m.mem a).isLdt = true ∧
      m' = { m with ldt := some (descriptorAt m.mem a) }) ∨
    ∃ s a, m.place s = some a ∧ (descriptorAt m.mem a).isFreeTask = true ∧
      m' = { m with
        mem := writeDescriptor m.mem a (descriptorAt m.mem a).busy
        task := some (descriptorAt m.mem a).busy } := by
  cases i with
  | movData r s =>
    change m.movData s r = .ok m' at h
    unfold movData at h
    split_ifs at h with hnull
    · cases h
      exact .inl ⟨_, rfl⟩
    · obtain ⟨a, hplace, h⟩ := fetch_bind h
      dsimp only at h
      split_ifs at h with hcheck hpresent
      cases h
      have hread := Bool.of_not_eq_false fun hr => hcheck (.inl hr)
      exact .inr (.inl ⟨_, s, a, hplace, Descriptor.isSegment_of_readable hread, rfl⟩)
  | movStack s =>
    change m.movStack s = .ok m' at h
    unfold movStack at h
    split_ifs at h with hnull
    obtain ⟨a, hplace, h⟩ := fetch_bind h
    dsimp only at h
    split_ifs at h with hcheck hpresent
    cases h
    have hwrite := Bool.of_not_eq_false fun hw => hcheck (.inl hw)
    exact .inr (.inl ⟨_, s, a, hplace, Descriptor.isSegment_of_writable hwrite, rfl⟩)
  | jump s offset =>
    change m.jump s offset = .ok m' at h
    unfold jump at h
    split_ifs at h with hnull
    obtain ⟨a, hplace, h⟩ := fetch_bind h
    dsimp only at h
    split_ifs at h with hsegment hcheck hpresent hin <;> cases h
    all_goals exact .inr (.inl ⟨_, s, a, hplace, Bool.of_not_eq_false hsegment, rfl⟩)
  | lldt s =>
    change m.lldt s = .ok m' at h
    unfold lldt at h
    split_ifs at h with hcpl hnull hti
    · cases h
      exact .inr (.inr (.inl rfl))
    · obtain ⟨a, hplace, h⟩ := fetch_bind h
      dsimp only at h
      split_ifs at h with hldt hpresent
      cases h
      exact .inr (.inr (.inr (.inl ⟨s, a, hplace, Bool.of_not_eq_false hldt, rfl⟩)))
  | ltr s =>
    change m.ltr s = .ok m' at h
    unfold ltr at h
    split_ifs at h with hcpl
    obtain ⟨a, hplace, h⟩ := fetch_bind h
    dsimp only at h
    split_ifs at h with htask hpresent
    cases h
    exact .inr (.inr (.inr (.inr ⟨s, a, hplace, Bool.of_not_eq_false htask, rfl⟩)))

end

/-! ### Runs -/

/-- A segment instruction, other writes to memory, or a change of the privilege level. -/
inductive SegOp
  | instr (i : SegInstr)
  | write (mem : Bytes32)
  | privilege (cpl : BitVec 2)

/-- Runs that do not write to the entries at `S`, except by loading their selectors. -/
def segments (S : Set Word) : System Segmented SegOp where
  init _ := True
  step m op m' :=
    match op with
    | .instr i => m.exec i = .ok m'
    | .write mem => (∀ a ∈ S, ∀ x ∈ range a 8, mem x = m.mem x) ∧ m' = { m with mem }
    | .privilege cpl => m' = { m with cpl }

/-- The table names only entries at `S`. -/
def Names (S : Set Word) (base : Word) (limit : Nat) : Prop := ∀ i, 8 * i + 7 ≤ limit →
    entry base i ∈ S

structure Allowed (S : Set Word) (P : Descriptor → Prop) (d : Descriptor) : Prop where
  segment : d.isSegment = true → P d
  table : d.isLdt = true → Names S d.base d.span

/-- **Every segment that can be named or is in a register** has the property. -/
structure Guarded (S : Set Word) (P : Descriptor → Prop) (m : Segmented) : Prop where
  gdt : Names S m.gdtr.base m.gdtr.limit.toNat
  ldt : ∀ d, m.ldt = some d → Names S d.base d.span
  entries : ∀ a ∈ S, Allowed S P (descriptorAt m.mem a)
  loaded : ∀ r d, m.seg r = some d → P d

section

variable {S : Set Word} {P : Descriptor → Prop} {m m' : Segmented} {s : Selector} {a : Word}
    {d : Descriptor} {mem : Bytes32}

theorem Guarded.place_mem (h : Guarded S P m) (hplace : m.place s = some a) : a ∈ S := by
  unfold Segmented.place at hplace
  split_ifs at hplace with hti hin
  · cases hldt : m.ldt with
    | none =>
      rw [hldt] at hplace
      cases hplace
    | some d =>
      rw [hldt] at hplace
      dsimp only at hplace
      split_ifs at hplace with hin
      cases hplace
      exact h.ldt d hldt _ hin
  · cases hplace
    exact h.gdt _ hin

theorem entries_write (hS : S.PairwiseDisjoint fun a => range a 8) (ha : a ∈ S) (hd : Allowed S P d)
    (h : ∀ b ∈ S, Allowed S P (descriptorAt mem b)) :
    ∀ b ∈ S, Allowed S P (descriptorAt (writeDescriptor mem a d) b) := by
  intro b hb
  by_cases hba : b = a
  · rw [hba, descriptorAt_write]
    exact hd
  · rw [descriptorAt_write_ne (hS hb ha hba)]
    exact h b hb

theorem loaded_update {seg : SegReg → Option Descriptor} (h : ∀ r d, seg r = some d → P d)
    {r : SegReg} {o : Option Descriptor} (ho : ∀ d, o = some d → P d) :
    ∀ r' d, Function.update seg r o r' = some d → P d := by
  intro r' d hd
  by_cases hr : r' = r
  · subst hr
    rw [Function.update_self] at hd
    exact ho d hd
  · rw [Function.update_of_ne hr] at hd
    exact h r' d hd

variable (hS : S.PairwiseDisjoint fun a => range a 8) (hP : ∀ d, P d → P d.accessed)

include hS hP

theorem Guarded.exec (h : Guarded S P m) {i : SegInstr} (hexec : m.exec i = .ok m') :
    Guarded S P m' := by
  rcases Segmented.exec_cases hexec with ⟨r, rfl⟩ | ⟨r, s, a, hplace, hsegment, rfl⟩ | rfl |
    ⟨s, a, hplace, hldt, rfl⟩ | ⟨s, a, hplace, htask, rfl⟩
  · exact ⟨h.gdt, h.ldt, h.entries, loaded_update h.loaded fun d hd => nomatch hd⟩
  · have ha := h.place_mem hplace
    have hnew : P (descriptorAt m.mem a).accessed := hP _ ((h.entries a ha).segment hsegment)
    have hallowed : Allowed S P (descriptorAt m.mem a).accessed :=
      ⟨fun _ => hnew,
        fun hldt => absurd hldt (Bool.eq_false_iff.mp (Descriptor.isLdt_accessed hsegment))⟩
    refine ⟨h.gdt, h.ldt, entries_write hS ha hallowed h.entries,
      loaded_update h.loaded fun d hd => ?_⟩
    cases hd
    exact hnew
  · exact ⟨h.gdt, fun _ => nofun, h.entries, h.loaded⟩
  · have ha := h.place_mem hplace
    refine ⟨h.gdt, fun d hd => ?_, h.entries, h.loaded⟩
    cases hd
    exact (h.entries a ha).table hldt
  · have ha := h.place_mem hplace
    obtain ⟨hnoSegment, hnoTable⟩ := Descriptor.busy_system htask
    have hallowed : Allowed S P (descriptorAt m.mem a).busy :=
      ⟨fun hs => absurd hs (Bool.eq_false_iff.mp hnoSegment),
        fun hl => absurd hl (Bool.eq_false_iff.mp hnoTable)⟩
    exact ⟨h.gdt, h.ldt, entries_write hS ha hallowed h.entries, h.loaded⟩

/-- **It holds after every run.** -/
theorem guarded_run {ops : List SegOp} (h : Guarded S P m) (hrun : (segments S).Run m ops m') :
    Guarded S P m' := by
  refine hrun.induct (P := Guarded S P) (fun m op m' h hstep => ?_) h
  cases op with
  | instr i => exact h.exec hS hP hstep
  | write mem =>
    obtain ⟨hkeep, rfl⟩ := hstep
    exact ⟨h.gdt, h.ldt,
      fun a ha => by rw [descriptorAt_congr (hkeep a ha)]; exact h.entries a ha, h.loaded⟩
  | privilege cpl =>
    obtain rfl : m' = { m with cpl } := hstep
    exact ⟨h.gdt, h.ldt, h.entries, h.loaded⟩

end

end Base.X86
