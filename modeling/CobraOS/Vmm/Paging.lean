import CobraOS.Vmm.Mapping

/-!
# The first page tables, `arch/x86/cpu/paging.c`

`paging_init` fills sixteen tables and a directory of its own, and turns paging on: the first 64 MiB
are mapped to themselves.  The tables are what as many calls of `map_page` would have made
(`pagingInit_maps`).

From then on `map_page` itself runs behind these tables (`Machine.mapPage`), and it works on the
directory that `vmm_init` has been given.  The kernel calls neither; where `vmm_init` is given the
directory of `paging_init`, and the calls keep the first 64 MiB as they are and get their tables
from there, every access goes where it would without paging (`Paged.mapPage_eq`), and the invariant
of `Vmm.Mapping` goes on from the first tables (`paging_law`).
-/

namespace CobraOS.Vmm

open Base

/-- The words of an array, one after the other. -/
def State.storeAll (s : State) (a : Nat) (w : Nat → Word) (n : Nat) : State :=
  (List.range n).foldl (fun s i => s.store (a + 4 * i) (w i)) s

/-- `FILL_PT` -/
def fillPt (s : State) (pt : Word) (baseMb : Nat) : State :=
  s.storeAll pt.toNat (fun i => BitVec.ofNat 32 (baseMb * 0x100000 + i * 4096) ||| 3) 1024

/-- The first `n` tables. -/
def fillPts (s : State) (pts : Nat → Word) (n : Nat) : State :=
  (List.range n).foldl (fun s k => fillPt s (pts k) (4 * k)) s

/-- The bit of `cr0` that turns paging on. -/
def pagingBit : Word := 0x80000000

/-- The memory with what `vmm.c` has in it, and the registers. -/
structure Machine where
  memory : State
  cr3 : Nat
  cr0 : Word

/-- `paging_init`; `dir` is the address of its `page_directory`, and `pts` are those of `pt0` to
`pt15`. -/
def pagingInit (m : Machine) (dir : Nat) (pts : Nat → Word) : Machine :=
  let s := fillPts m.memory pts 16
  let s := s.zeroPage dir
  { memory := s.storeAll dir (fun k => pts k ||| 3) 16, cr3 := dir, cr0 := m.cr0 ||| pagingBit }

def Machine.setMemory (m : Machine) (s : State) : Machine := { m with memory := s }

/-- `vmm_init` -/
def vmmInit (m : Machine) (dir : Nat) : Machine :=
  m.setMemory { m.memory with pageDirectory := dir }

/-- The memory with the directory that the processor walks. -/
def Machine.walked (m : Machine) : State := { m.memory with pageDirectory := m.cr3 }

/-! ### Behind the tables -/

/-- Where an access of the kernel goes; `none` is a page fault. -/
def Machine.translate (m : Machine) (a : Nat) : Option Nat :=
  if m.cr0 &&& pagingBit = 0 then some a
  else (walk m.walked (BitVec.ofNat 32 a)).map fun page => page.1.toNat + a % pageSize

def Machine.load (m : Machine) (a : Nat) : Option Word := (m.translate a).map m.memory.word

def Machine.store (m : Machine) (a : Nat) (w : Word) : Option Machine :=
  (m.translate a).map fun x => m.setMemory (m.memory.store x w)

/-- `memset(page, 0, PAGE_SIZE)`; a page is translated as a whole. -/
def Machine.zeroPage (m : Machine) (page : Nat) : Option Machine :=
  (m.translate page).map fun x => m.setMemory (m.memory.zeroPage x)

/-- The end of `map_page`: the entry of the table. -/
def Machine.setEntry (m : Machine) (c : Call) : Option (Bool × Machine) := do
  let entry ← m.load (m.memory.pageDirectory + 4 * pdIndex c.virt)
  let m ← m.store (tableOf entry + 4 * ptIndex c.virt) (c.phys ||| c.flags ||| 1)
  return (true, m)

/-- `map_page`, with its accesses as the processor makes them. -/
def Machine.mapPage (m : Machine) (c : Call) : Option (Bool × Machine) := do
  let slot := m.memory.pageDirectory + 4 * pdIndex c.virt
  let entry ← m.load slot
  if entry &&& 1 = 0 then
    if c.newPt = 0 then return (false, m)
    else
      let m ← m.zeroPage c.newPt.toNat
      let m ← m.store slot (c.newPt ||| (c.flags &&& flagsMask) ||| 1)
      m.setEntry c
  else m.setEntry c

/-- The 64 MiB. -/
def lowEnd : Nat := 0x4000000

/-- The call leaves the first 64 MiB mapped to themselves, and its table lies there. -/
structure Call.Low (c : Call) : Prop where
  phys : c.virt.toNat < lowEnd → c.phys = c.virt &&& ~~~flagsMask
  table : c.newPt.toNat < lowEnd

/-- What a call of `map_page` relies on. -/
structure Machine.Takes (m : Machine) (c : Call) : Prop where
  fresh : Fresh m.memory c.newPt
  phys : c.phys &&& flagsMask = 0
  flags : c.flags &&& ~~~flagsMask = 0
  low : c.Low

/-- Paging is off, and the arrays are pages of the first 64 MiB, and different ones. -/
structure Arrays (m : Machine) (dir : Nat) (pts : Nat → Word) : Prop where
  off : m.cr0 &&& pagingBit = 0
  directory : dir % pageSize = 0
  directory_low : dir < lowEnd
  aligned : ∀ k < 16, pts k &&& flagsMask = 0
  apart : ∀ k < 16, (pts k).toNat ≠ dir
  distinct : ∀ j k, j < 16 → k < 16 → j ≠ k → (pts j).toNat ≠ (pts k).toNat
  low : ∀ k < 16, (pts k).toNat < lowEnd

/-- Every sequence of calls that come back, after `paging_init` and `vmm_init` with its
directory. -/
def behind : System Machine Event where
  init m := ∃ m₀ dir pts, Arrays m₀ dir pts ∧ m = vmmInit (pagingInit m₀ dir pts) dir
  step m e m' := m.Takes e.call ∧ m.mapPage e.call = some (e.ok, m')

/-- The call of `map_page` for a page of the first 64 MiB. -/
def identityCall (pts : Nat → Word) (n : Nat) : Call :=
  ⟨BitVec.ofNat 32 (4096 * n), BitVec.ofNat 32 (4096 * n), 3, pts (n / 1024)⟩

def identityCalls (pts : Nat → Word) : List Call := (List.range 16384).map (identityCall pts)

variable {s : State} {m m' : Machine} {c : Call} {l : List Call} {dir : Nat} {pts : Nat → Word}
    {virt : Word} {a i k n x : Nat} {w : Nat → Word}

/-! ### What is written -/

theorem storeAll_succ (s : State) (a : Nat) (w : Nat → Word) (n : Nat) :
    s.storeAll a w (n + 1) = (s.storeAll a w n).store (a + 4 * n) (w n) := by
  unfold State.storeAll
  rw [List.range_succ, List.foldl_append]
  rfl

theorem storeAll_directory (s : State) (a : Nat) (w : Nat → Word) (n : Nat) :
    (s.storeAll a w n).pageDirectory = s.pageDirectory := by
  induction n with
  | zero => rfl
  | succ n ih =>
    rw [storeAll_succ]
    exact ih

theorem storeAll_word (hi : i < n) : (s.storeAll a w n).word (a + 4 * i) = w i := by
  induction n with
  | zero => omega
  | succ n ih =>
    rw [storeAll_succ]
    by_cases h : i = n
    · subst h
      exact Function.update_self ..
    · exact (Function.update_of_ne (by omega) _ _).trans (ih (by omega))

theorem storeAll_out (hx : ¬ (a ≤ x ∧ x < a + 4 * n)) : (s.storeAll a w n).word x = s.word x := by
  induction n with
  | zero => rfl
  | succ n ih =>
    rw [storeAll_succ]
    exact (Function.update_of_ne (by omega) _ _).trans (ih (by omega))

theorem fillPts_succ (s : State) (pts : Nat → Word) (n : Nat) :
    fillPts s pts (n + 1) = fillPt (fillPts s pts n) (pts n) (4 * n) := by
  unfold fillPts
  rw [List.range_succ, List.foldl_append, List.foldl_cons, List.foldl_nil]

theorem fillPts_directory (s : State) (pts : Nat → Word) (n : Nat) :
    (fillPts s pts n).pageDirectory = s.pageDirectory := by
  induction n with
  | zero => rfl
  | succ n ih =>
    rw [fillPts_succ, fillPt, storeAll_directory, ih]

theorem Arrays.table_aligned (h : Arrays m dir pts) (hk : k < 16) : (pts k).toNat % 4096 = 0 :=
  aligned_of_mask (h.aligned k hk)

theorem fillPts_word (h : Arrays m dir pts) (s : State) (hn : n ≤ 16) (hk : k < n) (hi : i < 1024) :
    (fillPts s pts n).word ((pts k).toNat + 4 * i) =
      BitVec.ofNat 32 (4 * k * 0x100000 + i * 4096) ||| 3 := by
  induction n with
  | zero => omega
  | succ n ih =>
    rw [fillPts_succ, fillPt]
    by_cases heq : k = n
    · subst heq
      rw [storeAll_word hi]
    · have hne := h.distinct k n (by omega) (by omega) heq
      have hak := h.table_aligned (k := k) (by omega)
      have han := h.table_aligned (k := n) (by omega)
      rw [storeAll_out (by omega), ih (by omega) (by omega)]

theorem fillPts_out (hx : ∀ k < n, ¬ ((pts k).toNat ≤ x ∧ x < (pts k).toNat + pageSize)) :
    (fillPts s pts n).word x = s.word x := by
  induction n with
  | zero => rfl
  | succ n ih =>
    rw [fillPts_succ, fillPt, storeAll_out (hx n (by omega)), ih fun k hk => hx k (by omega)]

theorem zeroPage_out {p : Nat} (hx : ¬ (p ≤ x ∧ x < p + pageSize)) :
    (s.zeroPage p).word x = s.word x := if_neg hx

theorem zeroPage_in {p : Nat} (hx : p ≤ x ∧ x < p + pageSize) : (s.zeroPage p).word x = 0 :=
  if_pos hx

theorem zeroPage_directory (s : State) (p : Nat) : (s.zeroPage p).pageDirectory = s.pageDirectory :=
  rfl

theorem pagingInit_memory (m : Machine) (dir : Nat) (pts : Nat → Word) :
    (pagingInit m dir pts).memory =
    ((fillPts m.memory pts 16).zeroPage dir).storeAll dir (fun k => pts k ||| 3) 16 := by
  unfold pagingInit
  dsimp only

theorem Machine.walked_word (m : Machine) : m.walked.word = m.memory.word := rfl

theorem Machine.walked_directory (m : Machine) : m.walked.pageDirectory = m.cr3 := rfl

theorem pagingInit_cr3 (m : Machine) (dir : Nat) (pts : Nat → Word) :
    (pagingInit m dir pts).cr3 = dir := by
  unfold pagingInit
  dsimp only

theorem pagingInit_on (m : Machine) (dir : Nat) (pts : Nat → Word) :
    (pagingInit m dir pts).cr0 &&& pagingBit = pagingBit := by
  show (m.cr0 ||| pagingBit) &&& pagingBit = pagingBit
  refine BitVec.eq_of_getLsbD_eq fun i hi => ?_
  rw [BitVec.getLsbD_and, BitVec.getLsbD_or]
  cases m.cr0.getLsbD i <;> cases pagingBit.getLsbD i <;> rfl

theorem pagingInit_directory (m : Machine) (dir : Nat) (pts : Nat → Word) :
    (pagingInit m dir pts).memory.pageDirectory = m.memory.pageDirectory := by
  rw [pagingInit_memory, storeAll_directory, zeroPage_directory, fillPts_directory]

theorem pagingInit_dirEntry (m : Machine) (dir : Nat) (pts : Nat → Word) (hi : i < 1024) :
    (pagingInit m dir pts).walked.dirEntry i = if i < 16 then pts i ||| 3 else 0 := by
  unfold State.dirEntry
  rw [Machine.walked_directory, pagingInit_cr3, Machine.walked_word, pagingInit_memory]
  by_cases h : i < 16
  · rw [if_pos h, storeAll_word h]
  · rw [if_neg h, storeAll_out (by omega), zeroPage_in ⟨by omega, by unfold pageSize; omega⟩]

theorem pagingInit_word (h : Arrays m dir pts) (hk : k < 16) (hi : i < 1024) :
    (pagingInit m dir pts).walked.word ((pts k).toNat + 4 * i) =
      BitVec.ofNat 32 (4 * k * 0x100000 + i * 4096) ||| 3 := by
  have hal := h.table_aligned hk
  have hdir : dir % 4096 = 0 := h.directory
  have hne := h.apart k hk
  have hout : ¬ (dir ≤ (pts k).toNat + 4 * i ∧ (pts k).toNat + 4 * i < dir + pageSize) :=
    entry_outside hal hdir hi hne
  rw [Machine.walked_word, pagingInit_memory, storeAll_out (by unfold pageSize at hout; omega),
    zeroPage_out hout, fillPts_word h m.memory (Nat.le_refl 16) hk hi]

theorem pagingInit_out (hdir : ¬ (dir ≤ x ∧ x < dir + pageSize))
    (hx : ∀ k < 16, ¬ ((pts k).toNat ≤ x ∧ x < (pts k).toNat + pageSize)) :
    (pagingInit m dir pts).memory.word x = m.memory.word x := by
  rw [pagingInit_memory, storeAll_out (by unfold pageSize at hdir; omega), zeroPage_out hdir,
    fillPts_out hx]

/-! ### The calls that would have done the same -/

theorem identityCall_virt (hn : n < 16384) : (identityCall pts n).virt.toNat = 4096 * n := by
  show (BitVec.ofNat 32 (4096 * n)).toNat = _
  rw [BitVec.toNat_ofNat]
  omega

theorem identityCall_pdIndex (hn : n < 16384) : pdIndex (identityCall pts n).virt = n / 1024 := by
  unfold pdIndex
  rw [BitVec.toNat_ushiftRight, Nat.shiftRight_eq_div_pow, identityCall_virt hn]
  omega

theorem identityCall_page (hn : n < 16384) :
    (identityCall pts n).virt >>> 12 = virt >>> 12 ↔ n = virt.toNat / 4096 := by
  rw [← BitVec.toNat_inj, BitVec.toNat_ushiftRight, BitVec.toNat_ushiftRight,
    Nat.shiftRight_eq_div_pow, Nat.shiftRight_eq_div_pow, identityCall_virt hn]
  omega

theorem firstIn_identity (pts : Nat → Word) (i : Nat) :
    firstIn (identityCalls pts) i = if i < 16 then some (identityCall pts (1024 * i))
      else none := by
  unfold firstIn identityCalls
  rw [List.find?_map]
  by_cases hi : i < 16
  · rw [if_pos hi]
    have hfind :
      (List.range 16384).find? ((fun c : Call => decide (pdIndex c.virt = i)) ∘ identityCall pts) =
        some (1024 * i) := by
      rw [List.find?_range_eq_some]
      refine ⟨?_, List.mem_range.mpr (by omega), fun j hj => ?_⟩
      · rw [Function.comp_apply, identityCall_pdIndex (by omega), decide_eq_true_iff]
        omega
      · rw [Function.comp_apply, identityCall_pdIndex (by omega), Bool.not_eq_true',
          decide_eq_false_iff_not]
        omega
    rw [hfind]
    rfl
  · rw [if_neg hi, List.find?_eq_none.mpr fun n hn => ?_]
    · rfl
    · have hn := List.mem_range.mp hn
      rw [Function.comp_apply, identityCall_pdIndex hn, decide_eq_true_iff]
      omega

theorem lastFor_identity (pts : Nat → Word) (virt : Word) : lastFor (identityCalls pts) virt =
    if virt.toNat < 0x4000000 then some (identityCall pts (virt.toNat / 4096)) else none := by
  cases hlast : lastFor (identityCalls pts) virt with
  | none =>
    by_cases hlt : virt.toNat < 0x4000000
    · have hmem : identityCall pts (virt.toNat / 4096) ∈ identityCalls pts :=
        List.mem_map.mpr ⟨_, List.mem_range.mpr (by omega), rfl⟩
      have hsome := lastFor_isSome_iff.mpr ⟨_, hmem, (identityCall_page (by omega)).mpr rfl⟩
      rw [hlast] at hsome
      cases hsome
    · rw [if_neg hlt]
  | some c =>
    obtain ⟨hmem, hpage⟩ := lastFor_spec hlast
    obtain ⟨n, hn, rfl⟩ := List.mem_map.mp hmem
    have hn := List.mem_range.mp hn
    have heq := (identityCall_page hn).mp hpage
    rw [if_pos (by omega), heq]

/-- **`paging_init` does what calls of `map_page` would do.** -/
theorem pagingInit_maps (h : Arrays m dir pts) :
    Maps (pagingInit m dir pts).walked (identityCalls pts) := by
  have hfirst : ∀ {i : Nat} {d : Call}, firstIn (identityCalls pts) i = some d → i < 16 ∧
      d = identityCall pts (1024 * i) := by
    intro i d hd
    rw [firstIn_identity] at hd
    split at hd
    · next hi => exact ⟨hi, (Option.some.inj hd).symm⟩
    · cases hd
  have hnew : ∀ i, (identityCall pts (1024 * i)).newPt = pts i := fun i => by
    show pts (1024 * i / 1024) = pts i
    rw [Nat.mul_div_cancel_left i (by decide)]
  refine ⟨?_, ?_, fun i hi hnone => ?_, fun i d hd => ?_, fun i d hd => ?_,
    fun i j d e hd he hij => ?_, fun virt d hd => ?_⟩
  · exact h.directory
  · intro c hc
    obtain ⟨n, hn, rfl⟩ := List.mem_map.mp hc
    have hn := List.mem_range.mp hn
    refine ⟨?_, (by decide : (3 : Word) &&& ~~~flagsMask = 0)⟩
    refine BitVec.toNat_inj.mp ((Nat.and_two_pow_sub_one_eq_mod _ 12).trans ?_)
    show (BitVec.ofNat 32 (4096 * n)).toNat % 2 ^ 12 = 0
    rw [BitVec.toNat_ofNat]
    omega
  · rw [firstIn_identity] at hnone
    rw [pagingInit_dirEntry m dir pts hi]
    split at hnone
    · cases hnone
    · next hge =>
      rw [if_neg hge]
      rfl
  · obtain ⟨hi, rfl⟩ := hfirst hd
    rw [pagingInit_dirEntry m dir pts (by omega), if_pos hi]
    unfold dirWord
    rw [hnew, BitVec.or_assoc]
    have hflags : (3 : Word) = (3 &&& flagsMask) ||| 1 := by decide
    exact congrArg (pts i ||| ·) hflags
  · obtain ⟨hi, rfl⟩ := hfirst hd
    rw [hnew]
    exact ⟨h.aligned i hi, h.apart i hi⟩
  · obtain ⟨hi, rfl⟩ := hfirst hd
    obtain ⟨hj, rfl⟩ := hfirst he
    rw [hnew, hnew]
    exact h.distinct i j hi hj hij
  · obtain ⟨hi, rfl⟩ := hfirst hd
    have hslot : pdIndex virt = virt.toNat / 4194304 := by
      unfold pdIndex
      rw [BitVec.toNat_ushiftRight, Nat.shiftRight_eq_div_pow]
    have hlt : virt.toNat < 0x4000000 := by omega
    rw [hnew, pagingInit_word h hi (ptIndex_lt virt), lastFor_identity, if_pos hlt,
      ptIndex_eq, hslot]
    have hpage : 4 * (virt.toNat / 4194304) * 0x100000 + virt.toNat / 4096 % 1024 * 4096 =
        4096 * (virt.toNat / 4096) := by omega
    have hflags : (3 : Word) = 3 ||| 1 := by decide
    have hword : entryWord (some (identityCall pts (virt.toNat / 4096))) =
        BitVec.ofNat 32 (4096 * (virt.toNat / 4096)) ||| (3 ||| 1) := BitVec.or_assoc ..
    rw [hword, hpage, ← hflags]

/-! ### Translations -/

theorem lastFor_after (l l' : List Call) (virt : Word) :
    lastFor (l ++ l') virt = (lastFor l' virt).or (lastFor l virt) := by
  unfold lastFor
  rw [List.reverse_append, List.find?_append]

theorem page_base (virt : Word) :
    BitVec.ofNat 32 (4096 * (virt.toNat / 4096)) = virt &&& ~~~flagsMask := by
  have hshift : BitVec.ofNat 32 (4096 * (virt.toNat / 4096)) = (virt >>> 12) <<< 12 := by
    have hlt := virt.isLt
    rw [← BitVec.toNat_inj, BitVec.toNat_shiftLeft, BitVec.toNat_ushiftRight,
      Nat.shiftRight_eq_div_pow, Nat.shiftLeft_eq, BitVec.toNat_ofNat, Nat.mul_comm]
  have hmask : ∀ i, flagsMask.getLsbD i = (decide (i < 32) && decide (i < 12)) := fun i => by
    show (BitVec.ofNat 32 (2 ^ 12 - 1)).getLsbD i = _
    rw [BitVec.getLsbD_ofNat, Nat.testBit_two_pow_sub_one]
  rw [hshift]
  refine BitVec.eq_of_getLsbD_eq fun i hi => ?_
  rw [BitVec.getLsbD_shiftLeft, BitVec.getLsbD_ushiftRight, BitVec.getLsbD_and, BitVec.getLsbD_not,
    hmask, decide_eq_true hi]
  by_cases h : i < 12
  · simp [h]
  · simp [h, show 12 + (i - 12) = i by omega]

/-! ### `map_page` behind the tables -/

/-- **The invariant**: these calls have made the tables that are walked, they map the first 64 MiB
to themselves, and the directory and the tables lie there. -/
structure Paged (m : Machine) (l : List Call) : Prop where
  maps : Maps m.memory l
  directory : m.cr3 = m.memory.pageDirectory
  on : m.cr0 &&& pagingBit ≠ 0
  below : m.memory.pageDirectory < lowEnd
  low : ∀ c ∈ l, c.Low
  covers : ∀ virt : Word, virt.toNat < lowEnd → (lastFor l virt).isSome = true

theorem Paged.walked (h : Paged m l) : m.walked = m.memory := by
  unfold Machine.walked
  rw [h.directory]

/-- A memory in which the first 64 MiB have the same entries. -/
structure SameLow (s s' : State) : Prop where
  directory : s'.pageDirectory = s.pageDirectory
  walk : ∀ virt : Word, virt.toNat < lowEnd → walk s' virt = walk s virt

theorem SameLow.refl (s : State) : SameLow s s := ⟨rfl, fun _ _ => rfl⟩

/-- **The accesses below 64 MiB go where they would without paging.** -/
theorem Paged.translate_low (h : Paged m l) {s : State} (hs : SameLow m.memory s) {a : Nat}
    (ha : a < lowEnd) :
    (m.setMemory s).translate a = some a := by
  have hnat : (BitVec.ofNat 32 a).toNat = a := by
    rw [BitVec.toNat_ofNat]
    unfold lowEnd at ha
    omega
  have hlt : (BitVec.ofNat 32 a).toNat < lowEnd := by rwa [hnat]
  have hwalked : (m.setMemory s).walked = s := by
    unfold Machine.walked Machine.setMemory
    rw [h.directory, ← hs.directory]
  obtain ⟨c, hc⟩ := Option.isSome_iff_exists.mp (h.covers _ hlt)
  obtain ⟨hmem, hpage⟩ := lastFor_spec hc
  have hsame : c.virt.toNat / 4096 = a / 4096 := by
    have hdiv := congrArg BitVec.toNat hpage
    rwa [BitVec.toNat_ushiftRight, BitVec.toNat_ushiftRight, Nat.shiftRight_eq_div_pow,
      Nat.shiftRight_eq_div_pow, hnat] at hdiv
  have hphys : c.phys.toNat = 4096 * (a / 4096) := by
    have hvirt : c.virt.toNat < lowEnd := by
      unfold lowEnd at ha ⊢
      omega
    rw [(h.low c hmem).phys hvirt, ← page_base, hsame, BitVec.toNat_ofNat]
    unfold lowEnd at ha
    omega
  have hon : (m.setMemory s).cr0 &&& pagingBit ≠ 0 := h.on
  unfold Machine.translate
  rw [if_neg hon, hwalked, hs.walk _ hlt, h.maps.walk_eq, hc]
  show some (c.phys.toNat + a % pageSize) = some a
  rw [hphys]
  unfold pageSize
  exact congrArg some (Nat.div_add_mod a 4096)

theorem Paged.load_low (h : Paged m l) {s : State} (hs : SameLow m.memory s) {a : Nat}
    (ha : a < lowEnd) :
    (m.setMemory s).load a = some (s.word a) := by
  unfold Machine.load
  rw [h.translate_low hs ha]
  rfl

theorem Paged.store_low (h : Paged m l) {s : State} (hs : SameLow m.memory s) {a : Nat}
    (ha : a < lowEnd) (w : Word) :
    (m.setMemory s).store a w = some (m.setMemory (s.store a w)) := by
  unfold Machine.store
  rw [h.translate_low hs ha]
  rfl

theorem Paged.zeroPage_low (h : Paged m l) {p : Nat} (hp : p < lowEnd) :
    m.zeroPage p = some (m.setMemory (m.memory.zeroPage p)) := by
  have htranslate : m.translate p = some p := h.translate_low (.refl _) hp
  unfold Machine.zeroPage
  rw [htranslate]
  rfl

theorem walk_congr {s s' : State} (hdir : s'.dirEntry (pdIndex virt) = s.dirEntry (pdIndex virt))
    (hentry : s'.tableEntry virt = s.tableEntry virt) : walk s' virt = walk s virt := by
  unfold walk isMapped
  rw [hdir, hentry]

theorem Paged.first_low (h : Paged m l) (hvirt : virt.toNat < lowEnd) :
    ∃ d, firstIn l (pdIndex virt) = some d := by
  obtain ⟨c, hc⟩ := Option.isSome_iff_exists.mp (h.covers virt hvirt)
  exact firstIn_of_lastFor hc

/-- **A new table** is cleared and entered without a change to the first 64 MiB. -/
theorem Paged.sameLow (h : Paged m l) (hmask : c.newPt &&& flagsMask = 0)
    (hdir : c.newPt.toNat ≠ m.memory.pageDirectory)
    (hfresh : ∀ i < 1024, m.memory.dirEntry i &&& 1 ≠ 0 →
      tableOf (m.memory.dirEntry i) ≠ c.newPt.toNat)
    (hnone : firstIn l (pdIndex c.virt) = none) :
    SameLow m.memory (m.memory.zeroPage c.newPt.toNat) ∧
      SameLow m.memory (withTable m.memory c) := by
  have hal := aligned_of_mask hmask
  have hwords : ∀ virt : Word, virt.toNat < lowEnd →
      (∀ x, x = m.memory.pageDirectory + 4 * pdIndex virt ∨
          x = tableOf (m.memory.dirEntry (pdIndex virt)) + 4 * ptIndex virt →
        ¬ (c.newPt.toNat ≤ x ∧ x < c.newPt.toNat + pageSize) ∧
          x ≠ m.memory.pageDirectory + 4 * pdIndex c.virt) := by
    intro virt hvirt x hx
    obtain ⟨d, hd⟩ := h.first_low hvirt
    have hother : pdIndex virt ≠ pdIndex c.virt := fun heq => by
      rw [heq, hnone] at hd
      cases hd
    have htable : tableOf (m.memory.dirEntry (pdIndex virt)) = d.newPt.toNat := by
      rw [h.maps.dir _ d hd, tableOf_dirWord (h.maps.frame _ d hd).1]
    rw [htable] at hx
    rcases hx with rfl | rfl
    · exact ⟨entry_outside h.maps.aligned hal (pdIndex_lt _) hdir.symm,
        entry_ne h.maps.aligned h.maps.aligned (pdIndex_lt _) (pdIndex_lt _) (.inr hother)⟩
    · exact ⟨entry_outside (h.maps.frame_aligned hd) hal (ptIndex_lt _) (h.maps.frame_ne hfresh hd),
        entry_ne (h.maps.frame_aligned hd) h.maps.aligned (ptIndex_lt _) (pdIndex_lt _)
          (.inl (h.maps.frame _ d hd).2)⟩
  have hsame : ∀ s' : State, s'.pageDirectory = m.memory.pageDirectory →
      (∀ x, ¬ (c.newPt.toNat ≤ x ∧ x < c.newPt.toNat + pageSize) →
        x ≠ m.memory.pageDirectory + 4 * pdIndex c.virt → s'.word x = m.memory.word x) →
          SameLow m.memory s' := by
    intro s' hpd hword
    refine ⟨hpd, fun virt hvirt => ?_⟩
    obtain ⟨hout, hne⟩ := hwords virt hvirt _ (.inl rfl)
    obtain ⟨hout', hne'⟩ := hwords virt hvirt _ (.inr rfl)
    have hentry : s'.dirEntry (pdIndex virt) = m.memory.dirEntry (pdIndex virt) := by
      unfold State.dirEntry
      rw [hpd, hword _ hout hne]
    refine walk_congr hentry ?_
    unfold State.tableEntry
    rw [hentry, hword _ hout' hne']
  refine ⟨hsame _ rfl fun x hout _ => if_neg hout, hsame _ rfl fun x hout hne => ?_⟩
  exact (Function.update_of_ne hne _ _).trans (if_neg hout)

theorem entry_low {a : Nat} (ha : a < lowEnd) (hal : a % 4096 = 0) (hi : i < 1024) :
    a + 4 * i < lowEnd := by
  unfold lowEnd at ha ⊢
  omega

/-- **`map_page` behind the tables** does what it does without paging. -/
theorem Paged.mapPage_eq (h : Paged m l) (hc : m.Takes c) :
    m.mapPage c = some ((mapPage m.memory c).1, m.setMemory (mapPage m.memory c).2) := by
  have hslot : m.memory.pageDirectory + 4 * pdIndex c.virt < lowEnd :=
    entry_low h.below h.maps.aligned (pdIndex_lt c.virt)
  have hload : m.load (m.memory.pageDirectory + 4 * pdIndex c.virt) =
      some (m.memory.dirEntry (pdIndex c.virt)) :=
    h.load_low (.refl _) hslot
  -- The entry of the table, in a memory whose directory has the table.
  have hset : ∀ s : State, SameLow m.memory s →
      ∀ d : Call, s.dirEntry (pdIndex c.virt) = dirWord d →
      d.newPt &&& flagsMask = 0 → d.newPt.toNat < lowEnd → (m.setMemory s).setEntry c =
        some (true, m.setMemory
          (s.store (tableOf (s.dirEntry (pdIndex c.virt)) + 4 * ptIndex c.virt)
            (tableWord c))) := by
    intro s hs d hentry hmask hlow
    have hstore : tableOf (s.dirEntry (pdIndex c.virt)) + 4 * ptIndex c.virt < lowEnd := by
      rw [hentry, tableOf_dirWord hmask]
      exact entry_low hlow (aligned_of_mask hmask) (ptIndex_lt c.virt)
    have hloads : (m.setMemory s).load (s.pageDirectory + 4 * pdIndex c.virt) =
        some (s.dirEntry (pdIndex c.virt)) := h.load_low hs (hs.directory ▸ hslot)
    have hmemory : (m.setMemory s).memory = s := rfl
    unfold Machine.setEntry
    rw [hmemory, hloads, Option.bind_eq_bind, Option.bind_some, h.store_low hs hstore]
    rfl
  unfold Machine.mapPage mapPage ensureTable
  dsimp only
  rw [hload, Option.bind_eq_bind, Option.bind_some]
  cases hfirst : firstIn l (pdIndex c.virt) with
  | none =>
    rw [if_pos (h.maps.absent _ (pdIndex_lt _) hfirst),
      if_pos (h.maps.absent _ (pdIndex_lt _) hfirst)]
    by_cases hnull : c.newPt = 0
    · rw [if_pos hnull, if_pos hnull]
      rfl
    · obtain ⟨hmask, hdir, hfresh⟩ := hc.fresh.resolve_left hnull
      obtain ⟨hzero, htable⟩ := h.sameLow hmask hdir hfresh hfirst
      rw [if_neg hnull, if_neg hnull, h.zeroPage_low hc.low.table, Option.bind_eq_bind,
        Option.bind_some, h.store_low hzero hslot, Option.bind_some]
      exact hset (withTable m.memory c) htable c (Function.update_self _ _ _) hmask hc.low.table
  | some d =>
    have hentry := h.maps.dir _ d hfirst
    have hpresent : ¬ m.memory.dirEntry (pdIndex c.virt) &&& 1 = 0 := by
      rw [hentry]
      exact dirWord_present d
    rw [if_neg hpresent, if_neg hpresent]
    exact hset m.memory (.refl _) d hentry (h.maps.frame _ d hfirst).1
      (h.low d (firstIn_spec hfirst).1).table

/-! ### Runs -/

/-- **A call** fails and changes nothing, or keeps the invariant. -/
theorem Paged.step (h : Paged m l) {e : Event} (hc : m.Takes e.call)
    (hcall : m.mapPage e.call = some (e.ok, m')) :
    (e.ok = false ∧ m' = m) ∨ (e.ok = true ∧ Paged m' (l ++ [e.call])) := by
  rw [h.mapPage_eq hc] at hcall
  obtain ⟨hok, hm⟩ := Prod.mk.inj (Option.some.inj hcall)
  have hstep : system.step m.memory e (mapPage m.memory e.call).2 :=
    ⟨hc.fresh, hc.phys, hc.flags, Prod.ext hok rfl⟩
  rw [← hm]
  obtain ⟨hok, hsame, -⟩ | ⟨hok, hmaps⟩ := h.maps.step hstep
  · rw [hsame]
    exact .inl ⟨hok, rfl⟩
  · have hdir : (mapPage m.memory e.call).2.pageDirectory = m.memory.pageDirectory := by
      unfold mapPage ensureTable
      split_ifs <;> rfl
    refine .inr ⟨hok, hmaps, h.directory.trans hdir.symm, h.on, ?_, fun b hb => ?_,
      fun virt hvirt => ?_⟩
    · show (mapPage m.memory e.call).2.pageDirectory < lowEnd
      rw [hdir]
      exact h.below
    · rcases List.mem_append.mp hb with hb | hb
      · exact h.low b hb
      · exact List.mem_singleton.mp hb ▸ hc.low
    · obtain ⟨b, hb, hpage⟩ := lastFor_isSome_iff.mp (h.covers virt hvirt)
      exact lastFor_isSome_iff.mpr ⟨b, List.mem_append_left _ hb, hpage⟩

/-- **After every run** the tables hold the successful calls. -/
theorem Paged.run {es : List Event} (hrun : behind.Run m es m') {l : List Call}
    (h : Paged m l) : Paged m' (l ++ successes es) := by
  induction hrun generalizing l with
  | nil _ => rwa [show successes [] = [] from rfl, List.append_nil]
  | @cons _ _ _ e es hstep _ ih =>
    rw [successes_cons]
    obtain ⟨hok, hm⟩ | ⟨hok, hpaged⟩ := h.step hstep.1 hstep.2
    · rw [hok, if_neg (by decide)]
      exact ih (hm ▸ h)
    · have hrest := ih hpaged
      rw [List.append_assoc, List.singleton_append] at hrest
      rwa [hok, if_pos rfl]

theorem identityCall_low (h : Arrays m dir pts) (hn : n < 16384) : (identityCall pts n).Low := by
  refine ⟨fun _ => ?_, h.low _ (by omega)⟩
  rw [← page_base, identityCall_virt hn, Nat.mul_div_cancel_left _ (by decide)]
  rfl

theorem pagingInit_paged (h : Arrays m dir pts) :
    Paged (vmmInit (pagingInit m dir pts) dir) (identityCalls pts) := by
  have hcr3 := pagingInit_cr3 m dir pts
  have hmemory : (vmmInit (pagingInit m dir pts) dir).memory = (pagingInit m dir pts).walked := by
    unfold vmmInit Machine.walked
    rw [hcr3]
    rfl
  have hdir : (pagingInit m dir pts).walked.pageDirectory = dir := hcr3
  have hon : (vmmInit (pagingInit m dir pts) dir).cr0 &&& pagingBit = pagingBit :=
    pagingInit_on m dir pts
  refine ⟨hmemory ▸ pagingInit_maps h, ?_, ?_, ?_, fun c hc => ?_, fun virt hvirt => ?_⟩
  · rw [hmemory, hdir]
    exact hcr3
  · rw [hon]
    decide
  · rw [hmemory, hdir]
    exact h.directory_low
  · obtain ⟨n, hn, rfl⟩ := List.mem_map.mp hc
    exact identityCall_low h (List.mem_range.mp hn)
  · have hlt : virt.toNat < 0x4000000 := hvirt
    rw [lastFor_identity, if_pos hlt]
    rfl

/-- What a page has after calls `l`. -/
theorem Paged.walk_after (h : Paged m (identityCalls pts ++ l)) (virt : Word) :
    walk m.memory virt = ((lastFor l virt).map fun c => (c.phys, c.flags ||| 1)).or
      (if virt.toNat < lowEnd then some (virt &&& ~~~flagsMask, 3) else none) := by
  rw [h.maps.walk_eq, lastFor_after]
  cases lastFor l virt with
  | some c => rfl
  | none =>
    rw [Option.none_or, lastFor_identity]
    by_cases hlt : virt.toNat < 0x4000000
    · rw [if_pos hlt, if_pos (c := virt.toNat < lowEnd) hlt, ← page_base, Option.map_some,
        Option.map_none, Option.none_or]
      have hflags : (3 : Word) ||| 1 = 3 := by decide
      exact congrArg (fun f => some (BitVec.ofNat 32 (4096 * (virt.toNat / 4096)), f)) hflags
    · rw [if_neg hlt, if_neg (c := virt.toNat < lowEnd) hlt]
      rfl

/-- The directory entries of the first 64 MiB are for the kernel, whatever the calls `l` ask for. -/
theorem Paged.permissions_after (h : Paged m (identityCalls pts ++ l))
    (hlow : virt.toNat < lowEnd) : permissions m.memory virt &&& pageUser = 0 ∧
      (lastFor l virt = none → permissions m.memory virt = pageRw) := by
  have hlt : virt.toNat < 0x4000000 := hlow
  have hslot : pdIndex virt = virt.toNat / 4194304 := by
    unfold pdIndex
    rw [BitVec.toNat_ushiftRight, Nat.shiftRight_eq_div_pow]
  have hfirst : firstIn (identityCalls pts ++ l) (pdIndex virt) =
      some (identityCall pts (1024 * pdIndex virt)) := by
    refine firstIn_prefix ?_
    rw [firstIn_identity, if_pos (by omega)]
  have hkernel : rights 3 = pageRw := by decide
  have hrights : ∀ c, lastFor (identityCalls pts ++ l) virt = some c →
      permissions m.memory virt = pageRw &&& rights c.flags := fun c hc => by
    rw [h.maps.permissions_eq hfirst hc]
    exact congrArg (· &&& rights c.flags) hkernel
  have hidentity :
      lastFor (identityCalls pts) virt = some (identityCall pts (virt.toNat / 4096)) := by
    rw [lastFor_identity, if_pos hlt]
  refine ⟨?_, fun hnone => ?_⟩
  · obtain ⟨c, hc⟩ := Option.isSome_iff_exists.mp (h.covers virt hlow)
    have hno : pageRw &&& pageUser = 0 := by decide
    rw [hrights c hc, BitVec.and_assoc, BitVec.and_comm (rights c.flags), ← BitVec.and_assoc, hno]
    exact BitVec.zero_and
  · rw [hrights _ (by rw [lastFor_after, hnone, Option.none_or, hidentity])]
    show pageRw &&& rights 3 = pageRw
    rw [hkernel, BitVec.and_self]

/-- **The first 64 MiB are mapped to themselves**, and no user can get at them.  `paging_init`
writes to its arrays only, and not to the directory of `vmm.c`.  With `vmm_init` and its directory
every call of `map_page` comes back, and after any run of calls the first 64 MiB are still mapped to
themselves, and every page has the translation of the last successful call for it, or that of the
first tables. -/
theorem paging_law (h : Arrays m dir pts) {es : List Event}
    (hrun : behind.Run (vmmInit (pagingInit m dir pts) dir) es m') :
    ((pagingInit m dir pts).cr3 = dir ∧ (pagingInit m dir pts).cr0 &&& pagingBit = pagingBit ∧
      (pagingInit m dir pts).memory.pageDirectory = m.memory.pageDirectory ∧
      ∀ x, ¬ (dir ≤ x ∧ x < dir + pageSize) →
        (∀ k < 16, ¬ ((pts k).toNat ≤ x ∧ x < (pts k).toNat + pageSize)) →
          (pagingInit m dir pts).memory.word x = m.memory.word x) ∧
    (∀ c, m'.Takes c → ∃ r, m'.mapPage c = some r) ∧
    (∀ a < lowEnd, m'.translate a = some a) ∧
    (∀ virt, walk m'.walked virt =
      ((lastFor (successes es) virt).map fun c => (c.phys, c.flags ||| 1)).or
      (if virt.toNat < lowEnd then some (virt &&& ~~~flagsMask, 3) else none)) ∧
    (∀ virt, virt.toNat < lowEnd → permissions m'.walked virt &&& pageUser = 0 ∧
      (lastFor (successes es) virt = none → permissions m'.walked virt = pageRw)) := by
  have hpaged := (pagingInit_paged h).run hrun
  rw [hpaged.walked]
  exact ⟨⟨pagingInit_cr3 m dir pts, pagingInit_on m dir pts, pagingInit_directory m dir pts,
      fun x hdir hx => pagingInit_out hdir hx⟩,
    fun c hc => ⟨_, hpaged.mapPage_eq hc⟩, fun a ha => hpaged.translate_low (.refl _) ha,
    hpaged.walk_after, fun virt hlt => hpaged.permissions_after hlt⟩


/-- Paging is off, and `vmm_init` has not been called. -/
def bootMachine : Machine := ⟨⟨0, fun _ => 0⟩, 0, 1⟩

/-- The tables behind a directory at `0x1000`. -/
def sixteenTables (k : Nat) : Word := BitVec.ofNat 32 (0x2000 + 4096 * k)

theorem bootMachine_arrays : Arrays bootMachine 0x1000 sixteenTables := by
  refine ⟨by decide, by decide, by decide, by decide, by decide, fun j k hj hk hne => ?_, by decide⟩
  unfold sixteenTables
  rw [BitVec.toNat_ofNat, BitVec.toNat_ofNat]
  omega

/-- A page above the 64 MiB, the last page below them, for user code, and a page for which there is
no table. -/
def highPage : Call := ⟨0x10000000, 0x5000, pageRw ||| pageUser, 0x20000⟩

def lastLow : Call := ⟨0x3FFF000, 0x3FFF000, pageRw ||| pageUser, 0⟩

def noTable : Call := ⟨0x20000000, 0x6000, pageRw, 0⟩

theorem Maps.mapPage_ok (h : Maps s l) (c : Call) :
    (mapPage s c).1 = ((firstIn l (pdIndex c.virt)).isSome || decide (c.newPt ≠ 0)) := by
  unfold mapPage ensureTable
  cases hfirst : firstIn l (pdIndex c.virt) with
  | none =>
    rw [if_pos (h.absent _ (pdIndex_lt _) hfirst)]
    by_cases hnull : c.newPt = 0
    · rw [if_pos hnull, hnull]
      rfl
    · rw [if_neg hnull, decide_eq_true hnull]
      rfl
  | some d =>
    rw [if_neg (by rw [h.dir _ d hfirst]; exact dirWord_present d)]
    rfl

theorem Paged.step_ok (h : Paged m l) (ok : Bool) (hc : m.Takes c)
    (hok : ((firstIn l (pdIndex c.virt)).isSome || decide (c.newPt ≠ 0)) = ok) :
    ∃ m', behind.step m ⟨c, ok⟩ m' := by
  have hcall := h.mapPage_eq hc
  rw [h.maps.mapPage_ok, hok] at hcall
  exact ⟨_, hc, hcall⟩

theorem run_threeCalls :
    ∃ m', behind.Run (vmmInit (pagingInit bootMachine 0x1000 sixteenTables) 0x1000)
      [⟨highPage, true⟩, ⟨lastLow, true⟩, ⟨noTable, false⟩] m' := by
  have hpaged := pagingInit_paged bootMachine_arrays
  have hfirst : ∀ i, firstIn (identityCalls sixteenTables) i =
      if i < 16 then some (identityCall sixteenTables (1024 * i)) else none :=
        firstIn_identity sixteenTables
  have hafter : ∀ (l' : List Call) i, firstIn (identityCalls sixteenTables ++ l') i =
      (firstIn (identityCalls sixteenTables) i).or (firstIn l' i) := fun l' i => List.find?_append
  have hfresh :
      Fresh (vmmInit (pagingInit bootMachine 0x1000 sixteenTables) 0x1000).memory
        highPage.newPt := by
    refine .inr ⟨by decide, by decide, fun i hi hpresent => ?_⟩
    have htables : ∀ k < 16, (sixteenTables k).toNat ≠ highPage.newPt.toNat := by decide
    cases hd : firstIn (identityCalls sixteenTables) i with
    | none => exact absurd (hpaged.maps.absent i hi hd) hpresent
    | some d =>
      rw [hpaged.maps.dir i d hd, tableOf_dirWord (hpaged.maps.frame i d hd).1]
      rw [hfirst] at hd
      split at hd
      · next hlt =>
        obtain rfl := Option.some.inj hd
        have hnew : (identityCall sixteenTables (1024 * i)).newPt = sixteenTables i := by
          show sixteenTables (1024 * i / 1024) = sixteenTables i
          rw [Nat.mul_div_cancel_left i (by decide)]
        rw [hnew]
        exact htables i hlt
      · cases hd
  obtain ⟨m₁, h₁⟩ := hpaged.step_ok (c := highPage) true
    ⟨hfresh, by decide, by decide, ⟨by decide, by decide⟩⟩ (by rw [hfirst]; rfl)
  have hpaged₁ := hpaged.run (.cons h₁ (.nil _))
  obtain ⟨m₂, h₂⟩ := hpaged₁.step_ok (c := lastLow) true
    ⟨.inl rfl, by decide, by decide, ⟨by decide, by decide⟩⟩ (by rw [hafter, hfirst]; rfl)
  have hpaged₂ := hpaged.run (.cons h₁ (.cons h₂ (.nil _)))
  obtain ⟨m₃, h₃⟩ := hpaged₂.step_ok (c := noTable) false
    ⟨.inl rfl, by decide, by decide, ⟨by decide, by decide⟩⟩ (by rw [hafter, hfirst]; rfl)
  exact ⟨m₃, .cons h₁ (.cons h₂ (.cons h₃ (.nil _)))⟩

/-- The last page below 64 MiB is not for user code, though a call has asked for it. -/
theorem paging_law_threeCalls :
    ∃ m', behind.Run (vmmInit (pagingInit bootMachine 0x1000 sixteenTables) 0x1000)
      [⟨highPage, true⟩, ⟨lastLow, true⟩, ⟨noTable, false⟩] m' ∧
    walk m'.walked 0x10000FFF = some (0x5000, 7) ∧ walk m'.walked 0x3FFFFFF = some (0x3FFF000, 7) ∧
    permissions m'.walked 0x3FFFFFF &&& pageUser = 0 ∧
      walk m'.walked 0x1234567 = some (0x1234000, 3) ∧
    walk m'.walked 0x20000000 = none ∧ m'.translate 0x1004 = some 0x1004 := by
  obtain ⟨m', hrun⟩ := run_threeCalls
  obtain ⟨-, -, htranslate, hwalk, hrights⟩ := paging_law bootMachine_arrays hrun
  refine ⟨m', hrun, ?_, ?_, (hrights _ (by decide)).1, ?_, ?_, htranslate _ (by decide)⟩
  all_goals
    rw [hwalk]
    decide

end CobraOS.Vmm
