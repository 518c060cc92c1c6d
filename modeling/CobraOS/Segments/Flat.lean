import CobraOS.Segments.Model

/-!
# Every address is the flat one

The kernel is compiled for a flat memory.  After `setup_gdt_and_tss` every segment register holds a
segment of the whole memory (`setup_spec`), and no load of a selector changes that, at any privilege
level, as long as nothing writes to the two tables (`segments_flat`).
-/

namespace CobraOS.Segments

open Base Base.X86

variable {t : Tables} {mem : Bytes32} {m m' : Segmented} {x : Word}

/-! ### The tables -/

/-- A segment of the whole memory. -/
def whole (access : BitVec 8) : Descriptor := ⟨0, 0xFFFFF, access, 0xC⟩

/-- The segments for code and data, before and after they are accessed. -/
def code₀ : Descriptor := whole 0x9A
def data₀ : Descriptor := whole 0x92
def code : Descriptor := code₀.accessed
def data : Descriptor := data₀.accessed

def taskDescriptor (t : Tables) : Descriptor := ⟨t.tss, 103, 0x89, 0⟩
def tableDescriptor (t : Tables) : Descriptor := ⟨t.ldt, 15, 0x82, 0⟩

def gdtDescriptor (t : Tables) : Nat → Descriptor
  | 1 => code₀
  | 2 => data₀
  | 3 => whole 0xFA
  | 4 => whole 0xF2
  | 5 => taskDescriptor t
  | 6 => tableDescriptor t
  | _ => ⟨0, 0, 0, 0⟩

def ldtDescriptor : Nat → Descriptor
  | 0 => code₀
  | _ => data₀

theorem whole_flat {access : BitVec 8} (hup : (whole access).expandDown = false) :
    (whole access).Flat := by
  refine ⟨rfl, ?_, hup⟩
  show (if (0xC : BitVec 4).getLsbD 3 = true then 4096 * (0xFFFFF : BitVec 20).toNat + 4095
    else (0xFFFFF : BitVec 20).toNat) = 4294967295
  decide

theorem tableDescriptor_kind (t : Tables) : (tableDescriptor t).isLdt = true ∧
    (tableDescriptor t).present = true ∧
    (tableDescriptor t).isSegment = false :=
  ⟨(by decide : ((0x82 : BitVec 8).extractLsb' 0 5 == 2) = true),
    (by decide : (0x82 : BitVec 8).getLsbD 7 = true),
    (by decide : ((0x82 : BitVec 8).extractLsb' 0 5).getLsbD 4 = false)⟩

theorem tableDescriptor_span (t : Tables) : (tableDescriptor t).span = 15 :=
  (by decide : (if (0 : BitVec 4).getLsbD 3 = true then 4096 * (15 : BitVec 20).toNat + 4095
    else (15 : BitVec 20).toNat) = 15)

theorem taskDescriptor_kind (t : Tables) :
    (taskDescriptor t).isFreeTask = true ∧ (taskDescriptor t).present = true :=
  ⟨(by decide : ((0x89 : BitVec 8).extractLsb' 0 5 == 1 || (0x89 : BitVec 8).extractLsb' 0 5 ==
    9) = true), (by decide : (0x89 : BitVec 8).getLsbD 7 = true)⟩

/-! ### Filling them -/

theorem gate_out {base limit : Word} {access granularity : BitVec 8} {a : Word} {i : Nat} (n : Nat)
    (hi : i < n) (hn : n ≤ 8192) (hx : x ∉ range a (8 * n)) :
    gdtSetGateLdt mem (entry a i) base limit access granularity x = mem x := by
  rw [gdtSetGateLdt_eq, writeDescriptor_out fun h => hx (entry_subset hi hn h)]

theorem gate_reads {base limit a : Word} {access granularity : BitVec 8} {i n : Nat}
    {f : Nat → Descriptor} (h : Reads mem a n f) (hi : i < n) (hn : n ≤ 8192) :
    Reads (gdtSetGateLdt mem (entry a i) base limit access granularity) a n
      (Function.update f i ⟨base, limit.extractLsb' 0 20, access,
        granularity.extractLsb' 4 4⟩) := by
  rw [gdtSetGateLdt_eq]
  exact h.write hi hn _

theorem initGdt_reads (t : Tables) (mem : Bytes32) :
    Reads (initGdt t mem) t.gdt 7 (gdtDescriptor t) := by
  have hstart : Reads mem t.gdt 7 fun i => descriptorAt mem (entry t.gdt i) := fun _ _ => rfl
  have hall : Reads (initGdt t mem) t.gdt 7 _ :=
    gate_reads (gate_reads
      (gate_reads (gate_reads (gate_reads (gate_reads (gate_reads hstart (by decide)
      (by decide)) (by decide) (by decide)) (by decide) (by decide)) (by decide) (by decide))
        (by decide)
      (by decide)) (by decide) (by decide)) (by decide) (by decide)
  intro i hi
  rw [hall i hi]
  interval_cases i <;> rfl

theorem initGdt_out (hx : x ∉ range t.gdt 56) : initGdt t mem x = mem x := by
  unfold initGdt gdtSetGate
  rw [gate_out 7 (by decide) (by decide) hx, gate_out 7 (by decide) (by decide) hx,
    gate_out 7 (by decide) (by decide) hx, gate_out 7 (by decide) (by decide) hx,
    gate_out 7 (by decide) (by decide) hx, gate_out 7 (by decide) (by decide) hx,
    gate_out 7 (by decide) (by decide) hx]

theorem initLdt_reads (t : Tables) (mem : Bytes32) :
    Reads (initLdt t mem) t.ldt 2 ldtDescriptor := by
  have hstart :
      Reads (fill mem t.ldt 0 16) t.ldt 2 fun i => descriptorAt (fill mem t.ldt 0 16)
        (entry t.ldt i) :=
    fun _ _ => rfl
  have hall : Reads (initLdt t mem) t.ldt 2 _ :=
    gate_reads (gate_reads hstart (by decide) (by decide)) (by decide) (by decide)
  intro i hi
  rw [hall i hi]
  interval_cases i <;> rfl

theorem initLdt_out (hx : x ∉ range t.ldt 16) : initLdt t mem x = mem x := by
  unfold initLdt
  rw [gate_out 2 (by decide) (by decide) hx, gate_out 2 (by decide) (by decide) hx]
  exact if_neg hx

theorem store16_out {a : Word} (w : BitVec 16) (hx : x ∉ range a 2) : store16 mem a w x = mem x :=
  if_neg hx

theorem initTss_eq (t : Tables) (mem : Bytes32) : initTss t mem =
    store16 (store
      (store (store (fill mem t.tss 0 104) (t.tss + BitVec.ofNat 32 8) (dataSegment.setWidth 32))
      (t.tss + BitVec.ofNat 32 4) 0x9000) (t.tss + BitVec.ofNat 32 96) (ldtSegment.setWidth 32))
      (t.tss + BitVec.ofNat 32 102) 104 := rfl

theorem initTss_out (hx : x ∉ range t.tss 104) : initTss t mem x = mem x := by
  have hfield : ∀ i n : Nat, i + n ≤ 104 → x ∉ range (t.tss + BitVec.ofNat 32 i) n :=
    fun i n hi h => hx (range_add_subset hi (by decide) h)
  rw [initTss_eq, store16_out _ (hfield 102 2 (by decide)), store_out _ (hfield 96 4 (by decide)),
    store_out _ (hfield 4 4 (by decide)), store_out _ (hfield 8 4 (by decide))]
  exact if_neg hx

theorem initTss_stack (t : Tables) (mem : Bytes32) :
    load (initTss t mem) (t.tss + BitVec.ofNat 32 8) = dataSegment.setWidth 32 ∧
      load (initTss t mem) (t.tss + BitVec.ofNat 32 4) = 0x9000 := by
  have hlast : ∀ (mem : Bytes32) (i : Nat), i + 4 ≤ 102 →
      load (store16 mem (t.tss + BitVec.ofNat 32 102) 104)
      (t.tss + BitVec.ofNat 32 i) = load mem (t.tss + BitVec.ofNat 32 i) := by
    intro mem i hi
    refine load_congr fun x hx => store16_out _ fun hx' => ?_
    exact Set.disjoint_left.mp
      (range_add_disjoint (a := t.tss) (n := 4) (j := 102) (k := 2) hi (by decide)) hx hx'
  have happart : ∀ i j : Nat, i + 4 ≤ j → j + 4 ≤ 104 →
      Disjoint (range (t.tss + BitVec.ofNat 32 i) 4) (range (t.tss + BitVec.ofNat 32 j) 4) :=
    fun i j hij hj => range_add_disjoint hij (by omega)
  rw [initTss_eq]
  constructor
  · rw [hlast _ 8 (by decide), load_store_of_disjoint _ (happart 8 96 (by decide) (by decide)),
      load_store_of_disjoint _ (happart 4 8 (by decide) (by decide)).symm, load_store]
  · rw [hlast _ 4 (by decide), load_store_of_disjoint _ (happart 4 96 (by decide) (by decide)),
      load_store]

/-! ### The set-up -/

/-- The GDT is loaded and its entries are `f`; the rest of memory is that of `mem`. -/
structure SetUp (t : Tables) (mem : Bytes32) (f : Nat → Descriptor) (m : Segmented) : Prop where
  gdtr : m.gdtr = ⟨t.gdt, 55⟩
  cpl : m.cpl = 0
  gdt : Reads m.mem t.gdt 7 f
  rest : ∀ x ∉ range t.gdt 56, m.mem x = mem x

section

variable {f : Nat → Descriptor} {s : Selector} {i : Nat}

theorem SetUp.fetch (h : SetUp t mem f m) (hti : s.inLdt = false) (hs : s.index = i) (hi : i < 7) :
    m.fetch s = .ok (entry t.gdt i, f i) := by
  subst hs
  have hreads := h.gdt
  have hbase : m.gdtr.base = t.gdt := by rw [h.gdtr]
  rw [← hbase] at hreads ⊢
  exact Segmented.fetch_gdt hti (by rw [h.gdtr]; rfl) hi hreads

theorem SetUp.written (h : SetUp t mem f m) (hi : i < 7) (d : Descriptor) :
    Reads (writeDescriptor m.mem (entry t.gdt i) d) t.gdt 7 (Function.update f i d) ∧
      ∀ x ∉ range t.gdt 56, writeDescriptor m.mem (entry t.gdt i) d x = mem x :=
  ⟨h.gdt.write hi (by decide) d, fun x hx => by
    rw [writeDescriptor_out fun hin => hx (entry_subset hi (by decide) hin), h.rest x hx]⟩

theorem SetUp.install (h : SetUp t mem f m) (hi : i < 7) (r : SegReg) (d : Descriptor) :
    SetUp t mem (Function.update f i d.accessed) (m.install r (entry t.gdt i) d) :=
  ⟨h.gdtr, h.cpl, (h.written hi _).1, (h.written hi _).2⟩

theorem SetUp.again (h : SetUp t mem f m) (hi : i < 7) (r : SegReg) {d : Descriptor} (hd : f i = d)
    (haccessed : d.accessed = d) : SetUp t mem f (m.install r (entry t.gdt i) d) := by
  subst hd
  have hnew := h.install hi r (f i)
  rwa [haccessed, Function.update_eq_self] at hnew

theorem SetUp.movData (h : SetUp t mem f m) (r : DataReg) {d : Descriptor} (hd : f 2 = d)
    (hread : d.readable = true) (hdpl : d.dpl = 0) (hp : d.present = true) :
    m.movData dataSegment r = .ok (m.install (.data r) (entry t.gdt 2) d) := by
  have hfetch := h.fetch (s := dataSegment) (by decide) (by decide) (show 2 < 7 by decide)
  rw [hd] at hfetch
  refine Segmented.movData_ok (by decide) hfetch hread ?_ hp
  rw [h.cpl, hdpl]
  decide

end

/-- **The segment registers are loaded.** -/
theorem reload_spec {f : Nat → Descriptor} (h : SetUp t mem f m) (hcode : f 1 = code₀)
    (hdata : f 2 = data₀) (next : Word) :
    ∃ m', reloadSegmentRegisters next m = .ok m' ∧
      SetUp t mem (Function.update (Function.update f 1 code) 2 data) m' ∧ m'.ldt = m.ldt ∧
        m'.task = m.task ∧
      m'.seg .cs = some code ∧ ∀ r, r ≠ .cs → m'.seg r = some data := by
  have hfetch := h.fetch (s := codeSegment) (by decide) (by decide) (show 1 < 7 by decide)
  rw [hcode] at hfetch
  have hin : code₀.Holds next 1 := (whole_flat (by decide)).holds_iff.mpr next.isLt
  have hjump := Segmented.jump_ok (by decide) hfetch (by decide) (by decide) (by rw [h.cpl]; decide)
    (by rw [h.cpl]; decide) (by decide) hin
  have h₁ := h.install (show 1 < 7 by decide) .cs code₀
  have hfirst : Function.update f 1 code₀.accessed 2 = data₀ := by
    rw [Function.update_of_ne (by decide), hdata]
  have hds := h₁.movData .ds hfirst (by decide) (by decide) (by decide)
  have h₂ := h₁.install (show 2 < 7 by decide) (.data .ds) data₀
  have hagain : Function.update (Function.update f 1 code₀.accessed) 2 data₀.accessed 2 = data :=
    Function.update_self ..
  have hes := h₂.movData .es hagain (by decide) (by decide) (by decide)
  have h₃ := h₂.again (show 2 < 7 by decide) (.data .es) hagain rfl
  have hfs := h₃.movData .fs hagain (by decide) (by decide) (by decide)
  have h₄ := h₃.again (show 2 < 7 by decide) (.data .fs) hagain rfl
  have hgs := h₄.movData .gs hagain (by decide) (by decide) (by decide)
  have h₅ := h₄.again (show 2 < 7 by decide) (.data .gs) hagain rfl
  have hstack := h₅.fetch (s := dataSegment) (by decide) (by decide) (show 2 < 7 by decide)
  rw [hagain] at hstack
  have hss := Segmented.movStack_ok (by decide) hstack (by decide) (by rw [h₅.cpl]; decide)
    (by rw [h₅.cpl]; decide)
    (by decide)
  refine ⟨_, ?_, h₅.again (show 2 < 7 by decide) .ss hagain rfl, rfl, rfl, rfl, fun r hr => ?_⟩
  · unfold reloadSegmentRegisters
    rw [hjump]
    show (Segmented.movData _ _ _ >>= _) = _
    rw [hds]
    show (Segmented.movData _ _ _ >>= _) = _
    rw [hes]
    show (Segmented.movData _ _ _ >>= _) = _
    rw [hfs]
    show (Segmented.movData _ _ _ >>= _) = _
    rw [hgs]
    exact hss
  · cases r with
    | cs => exact absurd rfl hr
    | ss => rfl
    | data r => cases r <;> rfl

/-- The GDT when the tables are loaded, and then the segments. -/
def loadedGdt (t : Tables) : Nat → Descriptor :=
  Function.update (Function.update (Function.update (gdtDescriptor t) 5 (taskDescriptor t).busy) 1
    code) 2 data

/-- Memory with the three arrays. -/
def arrays (t : Tables) (mem : Bytes32) : Bytes32 := initTss t (initLdt t (initGdt t mem))

/-- **What the set-up does.** -/
theorem setup_spec (t : Tables) (next : Word) (hcpl : m.cpl = 0) :
    ∃ m', setupGdtAndTss t next m = .ok m' ∧
    SetUp t (arrays t m.mem) (loadedGdt t) m' ∧ m'.ldt = some (tableDescriptor t) ∧
    m'.task = some (taskDescriptor t).busy ∧ m'.seg .cs = some code ∧ ∀ r, r ≠ .cs →
      m'.seg r = some data := by
  have hgdt : Reads (initLdt t (initGdt t m.mem)) t.gdt 7 (gdtDescriptor t) :=
    (initGdt_reads t m.mem).congr (by decide) fun x hx =>
      initLdt_out (Set.disjoint_left.mp t.gdtLdt hx)
  have h₁ : SetUp t _ (gdtDescriptor t)
      { m with mem := initLdt t (initGdt t m.mem), gdtr := ⟨t.gdt, 55⟩ } :=
        ⟨rfl, hcpl, hgdt, fun _ _ => rfl⟩
  have htable := h₁.fetch (s := ldtSegment) (by decide) (by decide) (show 6 < 7 by decide)
  have hlldt := Segmented.lldt_ok h₁.cpl (by decide) (by decide) htable (tableDescriptor_kind t).1
    (tableDescriptor_kind t).2.1
  have h₂ : SetUp t (arrays t m.mem) (gdtDescriptor t)
      { m with
        mem := arrays t m.mem
        gdtr := ⟨t.gdt, 55⟩
        ldt := some (tableDescriptor t) } :=
    ⟨rfl, hcpl, hgdt.congr (by decide) fun x hx => initTss_out (Set.disjoint_left.mp t.gdtTss hx),
      fun _ _ => rfl⟩
  have htask := h₂.fetch (s := tssSegment) (by decide) (by decide) (show 5 < 7 by decide)
  have hltr :=
    Segmented.ltr_ok h₂.cpl (by decide) (by decide) htask (taskDescriptor_kind t).1
      (taskDescriptor_kind t).2
  have h₃ : SetUp t (arrays t m.mem) (Function.update (gdtDescriptor t) 5 (taskDescriptor t).busy)
      { m with
        mem := writeDescriptor (arrays t m.mem) (entry t.gdt 5) (taskDescriptor t).busy
        gdtr := ⟨t.gdt, 55⟩
        ldt := some (tableDescriptor t)
        task := some (taskDescriptor t).busy } :=
    ⟨rfl, hcpl, (h₂.written (by decide) _).1, (h₂.written (by decide) _).2⟩
  obtain ⟨m', hreload, hsetup, hldt, htr, hcs, hothers⟩ := reload_spec h₃ rfl rfl next
  refine ⟨m', ?_, hsetup, hldt, htr, hcs, hothers⟩
  unfold setupGdtAndTss
  show (loadLdt _ >>= _) = _
  unfold loadLdt loadGdt
  rw [hlldt]
  exact (congrArg (· >>= reloadSegmentRegisters next) hltr).trans hreload

/-! ### Runs -/

/-- Where the descriptors are. -/
def places (t : Tables) : Set Word :=
  {a | (∃ i < 7, a = entry t.gdt i) ∨ ∃ i < 2, a = entry t.ldt i}

theorem places_disjoint (t : Tables) : (places t).PairwiseDisjoint fun a => range a 8 := by
  have hcross : ∀ i j, i < 7 → j < 2 →
      Disjoint (range (entry t.gdt i) 8) (range (entry t.ldt j) 8) :=
    fun i j hi hj => t.gdtLdt.mono (entry_subset hi (by decide)) (entry_subset hj (by decide))
  rintro a ha b hb hne
  rcases ha with ⟨i, hi, rfl⟩ | ⟨i, hi, rfl⟩ <;> rcases hb with ⟨j, hj, rfl⟩ | ⟨j, hj, rfl⟩
  · exact entry_disjoint (by omega) (by omega) fun hij => hne (by rw [hij])
  · exact hcross i j hi hj
  · exact (hcross j i hj hi).symm
  · exact entry_disjoint (by omega) (by omega) fun hij => hne (by rw [hij])

theorem allowed_flat {S : Set Word} {d : Descriptor} (hflat : d.Flat) (hldt : d.isLdt = false) :
    Allowed S Descriptor.Flat d := ⟨fun _ => hflat, fun h => absurd h (Bool.eq_false_iff.mp hldt)⟩

theorem allowed_gdt (t : Tables) {i : Nat} (hi : i < 7) :
    Allowed (places t) Descriptor.Flat (loadedGdt t i) := by
  interval_cases i
  · have hnull : loadedGdt t 0 = ⟨0, 0, 0, 0⟩ := rfl
    rw [hnull]
    exact ⟨fun h => absurd h (by decide), fun h => absurd h (by decide)⟩
  · exact allowed_flat (whole_flat (by decide)) (by decide : code.isLdt = false)
  · exact allowed_flat (whole_flat (by decide)) (by decide : data.isLdt = false)
  · exact allowed_flat (whole_flat (by decide)) (by decide : (whole 0xFA).isLdt = false)
  · exact allowed_flat (whole_flat (by decide)) (by decide : (whole 0xF2).isLdt = false)
  · obtain ⟨hsegment, hldt⟩ := Descriptor.busy_system (taskDescriptor_kind t).1
    exact ⟨fun h => absurd h (Bool.eq_false_iff.mp hsegment),
      fun h => absurd h (Bool.eq_false_iff.mp hldt)⟩
  · refine ⟨fun h => absurd h (Bool.eq_false_iff.mp (tableDescriptor_kind t).2.2), fun _ j hj => ?_⟩
    have hspan : (loadedGdt t 6).span = 15 := tableDescriptor_span t
    exact .inr ⟨j, by omega, rfl⟩

theorem allowed_ldt (t : Tables) {i : Nat} (hi : i < 2) :
    Allowed (places t) Descriptor.Flat (ldtDescriptor i) := by
  interval_cases i
  · exact allowed_flat (whole_flat (by decide)) (by decide)
  · exact allowed_flat (whole_flat (by decide)) (by decide)

/-- **After the set-up** every segment that can be named is flat. -/
theorem setup_guarded (h : SetUp t (arrays t mem) (loadedGdt t) m)
    (hldt : m.ldt = some (tableDescriptor t)) (hcs : m.seg .cs = some code)
    (hothers : ∀ r, r ≠ .cs → m.seg r = some data) :
    Guarded (places t) Descriptor.Flat m := by
  have hreads : Reads m.mem t.ldt 2 ldtDescriptor := by
    refine (initLdt_reads t (initGdt t mem)).congr (by decide) fun x hx => ?_
    rw [h.rest x (Set.disjoint_right.mp t.gdtLdt hx)]
    exact initTss_out (Set.disjoint_left.mp t.ldtTss hx)
  refine ⟨?_, ?_, ?_, ?_⟩
  · rw [h.gdtr]
    intro i (hi : 8 * i + 7 ≤ 55)
    exact .inl ⟨i, by omega, rfl⟩
  · rw [hldt]
    rintro d ⟨⟩ i hi
    have hspan := tableDescriptor_span t
    exact .inr ⟨i, by omega, rfl⟩
  · rintro a (⟨i, hi, rfl⟩ | ⟨i, hi, rfl⟩)
    · rw [h.gdt i hi]
      exact allowed_gdt t hi
    · rw [hreads i hi]
      exact allowed_ldt t hi
  · intro r d hd
    by_cases hr : r = .cs
    · rw [hr, hcs] at hd
      cases hd
      exact whole_flat (by decide)
    · rw [hothers r hr] at hd
      cases hd
      exact whole_flat (by decide)

/-- **Every address is the flat one.**  The set-up completes; every segment register is loaded, the
TSS gives the stack for privilege level 0, and memory outside of the three arrays is unchanged.
Whatever selectors are loaded then, at any privilege level, an offset in a segment is the linear
address, and all of memory is in the segment. -/
theorem segments_flat (t : Tables) (next : Word) (hcpl : m.cpl = 0) :
    ∃ m', setupGdtAndTss t next m = .ok m' ∧
    (∀ r, (m'.seg r).isSome) ∧ load m'.mem (t.tss + BitVec.ofNat 32 8) = dataSegment.setWidth 32 ∧
    load m'.mem (t.tss + BitVec.ofNat 32 4) = 0x9000 ∧
    (∀ x, x ∉ range t.gdt 56 → x ∉ range t.ldt 16 → x ∉ range t.tss 104 → m'.mem x = m.mem x) ∧
    ∀ ops m'', (segments (places t)).Run m' ops m'' → ∀ r d, m''.seg r = some d → ∀ offset n,
      d.linear offset = offset ∧ (d.Holds offset n ↔ offset.toNat + n ≤ 4294967296) := by
  obtain ⟨m', hrun, hsetup, hldt, -, hcs, hothers⟩ := setup_spec t next hcpl
  have htss : ∀ i, i + 4 ≤ 104 → load m'.mem (t.tss + BitVec.ofNat 32 i) =
      load (arrays t m.mem) (t.tss + BitVec.ofNat 32 i) := fun i hi =>
    load_congr fun x hx => hsetup.rest x
      (Set.disjoint_right.mp t.gdtTss (range_add_subset hi (by decide) hx))
  obtain ⟨hss, hesp⟩ := initTss_stack t (initLdt t (initGdt t m.mem))
  refine ⟨m', hrun, fun r => ?_, (htss 8 (by decide)).trans hss,
    (htss 4 (by decide)).trans hesp, ?_, ?_⟩
  · by_cases hr : r = .cs
    · rw [hr, hcs]
      rfl
    · rw [hothers r hr]
      rfl
  · intro x hgdt hldt' htss'
    rw [hsetup.rest x hgdt, arrays, initTss_out htss', initLdt_out hldt', initGdt_out hgdt]
  · intro ops m'' hops r d hd offset n
    have hguarded := guarded_run (places_disjoint t) (fun _ h => h.accessed)
      (setup_guarded hsetup hldt hcs hothers) hops
    have hflat := hguarded.loaded r d hd
    exact ⟨hflat.linear_eq offset, hflat.holds_iff⟩

/-- The arrays at 2 MiB. -/
def twoMiB : Tables where
  gdt := 0x200000
  ldt := 0x201000
  tss := 0x202000
  gdtLdt := range_disjoint (by decide) (by decide)
  gdtTss := range_disjoint (by decide) (by decide)
  ldtTss := range_disjoint (by decide) (by decide)

/-- Memory is empty before the set-up. -/
def blank : Segmented := ⟨fun _ => 0, ⟨0, 0⟩, none, none, fun _ => none, 0⟩

theorem segments_flat_twoMiB : ∃ m', setupGdtAndTss twoMiB 0x100000 blank = .ok m' ∧
    load m'.mem (twoMiB.tss + BitVec.ofNat 32 4) = 0x9000 := by
  obtain ⟨m', hrun, -, -, hesp, -⟩ := segments_flat (m := blank) twoMiB 0x100000 rfl
  exact ⟨m', hrun, hesp⟩

end CobraOS.Segments
