import CobraOS.Base.Block
import CobraOS.Base.Copy
import CobraOS.Base.Memory
import CobraOS.Heap.Zeroed

/-!
# Moving and filling memory: `memmove` and `memset` of `lib/string.c`

Addresses are machine words, so a pointer that is advanced wraps around at the end of the address
space; the ranges of the calls do not reach behind it.  Each function returns its first argument.
`memset` also counts the words that it stores, by their addresses, which is no part of the program.

* `memmove_correct`: the direction of the loop is right for every overlap.
* `memset_agrees`: `memset` does what `heap_memset` does.
-/

namespace CobraOS.Lib

open Base

abbrev Word := BitVec 32

/-- `p + k` -/
def advance (p k : Nat) : Nat := (p + k) % 4294967296

/-- `d[i] = s[i];` -/
def copyByte (d s : Nat) (m : Mem) (i : Nat) : Mem := store8 m (advance d i) (m (advance s i))

/-- The first loop goes up from `0`, the second one down from `n - 1`. -/
def memmove (m : Mem) (dest src n : Nat) : Nat × Mem :=
  if dest < src then (dest, (List.range n).foldl (copyByte dest src) m)
  else if src < dest then (dest, (List.range n).reverse.foldl (copyByte dest src) m)
  else (dest, m)

/-- `while (count > 0 && ((uintptr_t)p & (sizeof(uintptr_t) - 1))) { *p++ = c; count--; }` -/
def alignLoop (c : UInt8) : Nat → Nat → Mem → Nat × Nat × Mem
  | 0, p, m => (0, p, m)
  | count + 1, p, m =>
    if p &&& 3 ≠ 0 then alignLoop c count (advance p 1) (store8 m p c) else (count + 1, p, m)

/-- `word |= (uintptr_t)c << (8 * i);` for each of the four bytes. -/
def repeatByte (c : UInt8) : Nat :=
  (List.range 4).foldl (fun word i => word ||| c.toNat <<< (8 * i)) 0

/-- `while (count >= sizeof(uintptr_t)) { *wp++ = word; count -= sizeof(uintptr_t); }` -/
def wordLoop (word : Nat) : Nat → Nat → Mem → List Nat → Nat × Nat × Mem × List Nat
  | count + 4, p, m, words => wordLoop word count (advance p 4) (store32 m p word) (words ++ [p])
  | count, p, m, words => (count, p, m, words)

/-- `while (count > 0) { *p++ = c; count--; }` -/
def byteLoop (c : UInt8) : Nat → Nat → Mem → Mem
  | 0, _, m => m
  | count + 1, p, m => byteLoop c count (advance p 1) (store8 m p c)

structure Filled where
  dest : Nat
  mem : Mem
  words : List Nat

def memset (m : Mem) (dest : Nat) (ch : Word) (count : Nat) : Filled :=
  let c := UInt8.ofNat ch.toNat
  let (count, p, m) := alignLoop c count dest m
  let word := repeatByte c
  let (count, p, m, words) := wordLoop word count p m []
  ⟨dest, byteLoop c count p m, words⟩

/-! ### `memmove` -/

section

variable {m : Mem} {dest src n : Nat}

theorem advance_eq {p k : Nat} (h : p + k < 4294967296) : advance p k = p + k := Nat.mod_eq_of_lt h

theorem store8_eq_update (m : Mem) (a : Nat) (b : UInt8) :
    store8 m a b = Function.update m a b := by
  funext x
  rw [store8, Function.update_apply]

theorem foldl_copyByte (is : List Nat) (m : Mem) :
    is.foldl (copyByte dest src) m = copyAll (advance dest) (advance src) is m := by
  unfold copyAll
  congr 1
  funext m i
  exact store8_eq_update m _ _

/-- **A range was moved**: its bytes are those that were at `src`, and all others are as before. -/
structure Moved (m m' : Mem) (dest src n : Nat) : Prop where
  copied : ∀ i < n, m' (dest + i) = m (src + i)
  kept : ∀ a, a < dest ∨ dest + n ≤ a → m' a = m a

/-- What a loop over all bytes leaves when it reads no byte that it has written. -/
theorem moved_of_order {is : List Nat} (hmem : ∀ i, i ∈ is ↔ i < n) (hdest : dest + n ≤ 4294967296)
    (hsrc : src + n ≤ 4294967296) (hnodup : is.Nodup)
    (hread : is.Pairwise fun i j => advance dest i ≠ advance src j) (m : Mem) :
    Moved m (is.foldl (copyByte dest src) m) dest src n := by
  have hd : ∀ i ∈ is, advance dest i = dest + i :=
    fun i hi => advance_eq (by have := (hmem i).mp hi; omega)
  have hs : ∀ i ∈ is, advance src i = src + i :=
    fun i hi => advance_eq (by have := (hmem i).mp hi; omega)
  have hwrite : is.Pairwise fun i j => advance dest i ≠ advance dest j :=
    hnodup.imp_of_mem fun hi hj hne => by
      rw [hd _ hi, hd _ hj]
      omega
  obtain ⟨hcopied, hkept⟩ := copyAll_spec hread hwrite m
  rw [foldl_copyByte]
  refine ⟨fun i hi => ?_, fun a ha => hkept a fun i hi => ?_⟩
  · have hin := (hmem i).mpr hi
    rw [← hd i hin, ← hs i hin]
    exact hcopied i hin
  · have hlt := (hmem i).mp hi
    rw [hd i hi]
    omega

theorem memmove_moved (m : Mem) (hdest : dest + n ≤ 4294967296) (hsrc : src + n ≤ 4294967296) :
    Moved m (memmove m dest src n).2 dest src n := by
  have hd : ∀ i < n, advance dest i = dest + i := fun i hi => advance_eq (by omega)
  have hs : ∀ i < n, advance src i = src + i := fun i hi => advance_eq (by omega)
  unfold memmove
  obtain hlt | heq | hgt := Nat.lt_trichotomy dest src
  · -- upwards: a byte is written below those that are read later
    rw [if_pos hlt]
    refine moved_of_order (fun i => List.mem_range) hdest hsrc List.nodup_range ?_ m
    refine pairwise_range fun i j hij hj => ?_
    rw [hd i (by omega), hs j hj]
    omega
  · rw [if_neg (by omega), if_neg (by omega), heq]
    exact ⟨fun i _ => rfl, fun a _ => rfl⟩
  · -- downwards: a byte is written above those that are read later
    rw [if_neg (by omega), if_pos hgt]
    refine moved_of_order (fun i => List.mem_reverse.trans List.mem_range) hdest hsrc
      (List.nodup_reverse.mpr List.nodup_range) ?_ m
    refine pairwise_range_reverse fun i j hij hj => ?_
    rw [hd j hj, hs i (by omega)]
    omega

theorem memmove_dest (m : Mem) (dest src n : Nat) : (memmove m dest src n).1 = dest := by
  unfold memmove
  split
  · rfl
  · split <;> rfl

/-- **`memmove`**: the bytes that were at the source, whatever the overlap. -/
theorem memmove_correct (m : Mem) (dest src n : Nat) (hdest : dest + n ≤ 4294967296)
    (hsrc : src + n ≤ 4294967296) : (memmove m dest src n).1 = dest ∧
      (∀ i < n, (memmove m dest src n).2 (dest + i) = m (src + i)) ∧
      ∀ a, a < dest ∨ dest + n ≤ a → (memmove m dest src n).2 a = m a := by
  have hmoved := memmove_moved m hdest hsrc
  exact ⟨memmove_dest m dest src n, hmoved.copied, hmoved.kept⟩

/-- Two ranges that overlap in one byte, at the end of the address space. -/
theorem memmove_correct_end :
    (memmove (fun a => UInt8.ofNat a) 4294967294 4294967293 2).2 4294967295 = 254 :=
  ((memmove_correct (fun a => UInt8.ofNat a) 4294967294 4294967293 2 (by decide) (by decide)).2.1 1
    (by decide)).trans (by decide)

end

/-! ### Blocks in memory -/

/-- A block from an address on; where it was never written anything may be. -/
structure Lies (b : Block UInt8) (m : Mem) (base : Nat) : Prop where
  inside : base + b.cells.length ≤ 4294967296
  cells : ∀ i a, b.cells[i]? = some (some a) → m (base + i) = a

theorem getElem?_copy {b b' : Block UInt8} {i j n : Nat} (h : b.copy j b i n = some b') (k : Nat) :
    b'.cells[k]? = if j ≤ k ∧ k < j + n then b.cells[i + (k - j)]? else b.cells[k]? := by
  obtain ⟨⟨hsrc, hdst⟩, rfl⟩ := Block.copy_some h
  have htake : (b.cells.take j).length = j := List.length_take_of_le (by omega)
  have hmid : ((b.cells.drop i).take n).length = n := by
    rw [List.length_take_of_le]
    rw [List.length_drop]
    omega
  dsimp only
  by_cases hlow : k < j
  · rw [List.getElem?_append_left (by omega), if_neg (by omega), List.getElem?_take_of_lt hlow]
  rw [List.getElem?_append_right (by omega), htake]
  by_cases hin : k < j + n
  · rw [List.getElem?_append_left (by omega), if_pos (by omega),
      List.getElem?_take_of_lt (by omega), List.getElem?_drop]
  · rw [List.getElem?_append_right (by omega), hmid, if_neg (by omega), List.getElem?_drop]
    congr 1
    omega

/-- **A copy inside a block**, as the editor makes room for a character or closes a gap with it. -/
theorem Lies.memmove {b b' : Block UInt8} {m : Mem} {base i j n : Nat} (h : Lies b m base)
    (hcopy : b.copy j b i n = some b') : Lies b' (memmove m (base + j) (base + i) n).2 base := by
  obtain ⟨⟨hsrc, hdst⟩, hcells⟩ := Block.copy_some hcopy
  have hinside := h.inside
  have hmoved := memmove_moved m (show base + j + n ≤ 4294967296 by omega)
    (show base + i + n ≤ 4294967296 by omega)
  have hget := getElem?_copy hcopy
  refine ⟨?_, fun k a hk => ?_⟩
  · rw [hcells]
    simp only [List.length_append, List.length_take, List.length_drop]
    omega
  · rw [hget] at hk
    by_cases hin : j ≤ k ∧ k < j + n
    · rw [if_pos hin] at hk
      have hbyte := hmoved.copied (k - j) (by omega)
      rw [show base + j + (k - j) = base + k by omega] at hbyte
      rw [hbyte, Nat.add_assoc]
      exact h.cells _ a hk
    · rw [if_neg hin] at hk
      rw [hmoved.kept _ (by omega)]
      exact h.cells k a hk

/-! ### `memset` -/

section

open Heap

variable {m : Mem} {c : UInt8} {p n : Nat}

/-- A fill goes on behind a fill; where an empty one starts does not matter. -/
theorem heapMemset_add {q a b : Nat} (h : b = 0 ∨ q = p + a) :
    heapMemset (heapMemset m p c a) q c b = heapMemset m p c (b + a) := by
  induction a generalizing m p with
  | zero =>
    obtain rfl | rfl := h
    · rfl
    · rfl
  | succ a ih =>
    have h' : b = 0 ∨ q = p + 1 + a := h.imp_right fun hq => by omega
    exact ih h'

theorem advance_inside {k : Nat} (h : p + (n + k) ≤ 4294967296) :
    (n = 0 ∨ advance p k = p + k) ∧ advance p k + n ≤ 4294967296 := by
  unfold advance
  omega

theorem repeatByte_eq (c : UInt8) :
    repeatByte c = c.toNat + 256 * (c.toNat + 256 * (c.toNat + 256 * c.toNat)) := by
  have hlt := c.toNat_lt
  have hor : ∀ i b : Nat, b < 2 ^ i → b ||| c.toNat <<< i = c.toNat * 2 ^ i + b := fun i b hb => by
    rw [Nat.or_comm, ← Nat.shiftLeft_add_eq_or_of_lt hb, Nat.shiftLeft_eq]
  have hloop : repeatByte c =
      (((0 ||| c.toNat <<< 0) ||| c.toNat <<< 8) ||| c.toNat <<< 16) ||| c.toNat <<< 24 := rfl
  rw [hloop, hor 0 0 (by omega), hor 8 _ (by omega), hor 16 _ (by omega), hor 24 _ (by omega)]
  omega

/-- **A word of one byte** is four bytes. -/
theorem store32_repeatByte (m : Mem) (p : Nat) (c : UInt8) :
    store32 m p (repeatByte c) = heapMemset m p c 4 := by
  have hlt := c.toNat_lt
  have hdiv : ∀ b, (c.toNat + 256 * b) / 256 = b := fun b => by omega
  have hbyte : ∀ b, UInt8.ofNat (c.toNat + 256 * b) = c := fun b => by
    apply UInt8.toNat_inj.mp
    rw [UInt8.toNat_ofNat']
    omega
  have h16 : (65536 : Nat) = 256 * 256 := rfl
  have h24 : (16777216 : Nat) = 256 * 256 * 256 := rfl
  rw [store32, repeatByte_eq, h24, h16]
  simp only [← Nat.div_div_eq_div_mul, hdiv, hbyte, UInt8.ofNat_toNat]
  rfl

theorem alignLoop_spec (h : p + n ≤ 4294967296) : ∃ k ≤ n, ∃ q,
    alignLoop c n p m = (n - k, q, heapMemset m p c k) ∧ (k = n ∨ q = p + k ∧ q % 4 = 0) := by
  induction n generalizing p m with
  | zero => exact ⟨0, Nat.le_refl 0, p, rfl, Or.inl rfl⟩
  | succ n ih =>
    rw [alignLoop]
    by_cases hword : p &&& 3 = 0
    · have hmod : p % 4 = 0 := (Nat.and_two_pow_sub_one_eq_mod p 2).symm.trans hword
      exact ⟨0, Nat.zero_le _, p, if_neg (not_not.mpr hword), Or.inr ⟨rfl, hmod⟩⟩
    · obtain ⟨hnext, hrange⟩ := advance_inside h
      obtain ⟨k, hk, q, hloop, hq⟩ := ih (p := advance p 1) (m := store8 m p c) hrange
      have hfill : heapMemset (store8 m p c) (advance p 1) c k = heapMemset m p c (k + 1) :=
        heapMemset_add (a := 1) (by omega)
      rw [if_pos hword, hloop, hfill]
      exact ⟨k + 1, by omega, q, by rw [Nat.add_sub_add_right], by omega⟩

theorem wordLoop_spec (words : List Nat) (h : n = 0 ∨ p + n ≤ 4294967296 ∧ p % 4 = 0) :
    ∃ k ≤ n, ∃ q stored, wordLoop (repeatByte c) n p m words =
      (n - k, q, heapMemset m p c k, words ++ stored) ∧ (k = n ∨ q = p + k) ∧
        ∀ a ∈ stored, a % 4 = 0 := by
  fun_induction wordLoop (repeatByte c) n p m words with
  | case1 n p m words ih =>
    obtain ⟨hlimit, hword⟩ := h.resolve_left (Nat.succ_ne_zero _)
    obtain ⟨hnext, hrange⟩ := advance_inside (n := n) (k := 4) hlimit
    obtain ⟨k, hk, q, stored, hloop, hq, hstored⟩ := ih (by omega)
    have hfill : heapMemset (heapMemset m p c 4) (advance p 4) c k = heapMemset m p c (k + 4) :=
      heapMemset_add (by omega)
    rw [hloop, store32_repeatByte, hfill]
    have hrest : n + 4 - (k + 4) = n - k := Nat.add_sub_add_right ..
    have hlog : words ++ p :: stored = words ++ [p] ++ stored := List.append_cons ..
    refine ⟨k + 4, by omega, q, p :: stored, by simp only [hrest, hlog], by omega, ?_⟩
    intro a ha
    obtain rfl | ha := List.mem_cons.mp ha
    · omega
    · exact hstored a ha
  | case2 n p m words =>
    refine ⟨0, Nat.zero_le _, p, [], ?_, Or.inr rfl, fun a ha => absurd ha List.not_mem_nil⟩
    rw [List.append_nil]
    rfl

theorem byteLoop_eq (h : n = 0 ∨ p + n ≤ 4294967296) :
    byteLoop c n p m = heapMemset m p c n := by
  induction n generalizing p m with
  | zero => rfl
  | succ n ih =>
    obtain ⟨hnext, hrange⟩ := advance_inside (h.resolve_left (Nat.succ_ne_zero _))
    rw [byteLoop, ih (Or.inr hrange)]
    exact heapMemset_add (a := 1) hnext

/-- **`memset` and `heap_memset`** do the same, and a word is stored at a multiple of four. -/
theorem memset_agrees (m : Mem) (dest : Nat) (ch : Word) (count : Nat)
    (h : dest + count ≤ 4294967296) :
    (memset m dest ch count).dest = dest ∧
      (memset m dest ch count).mem = heapMemset m dest (UInt8.ofNat ch.toNat) count ∧
      (∀ a, dest ≤ a → a < dest + count → (memset m dest ch count).mem a = UInt8.ofNat ch.toNat) ∧
      (∀ a, a < dest ∨ dest + count ≤ a → (memset m dest ch count).mem a = m a) ∧
      ∀ a ∈ (memset m dest ch count).words, a % 4 = 0 := by
  obtain ⟨k, hk, q, halign, hq⟩ := alignLoop_spec (c := UInt8.ofNat ch.toNat) (m := m) h
  obtain ⟨k', hk', q', stored, hwords, hq', hstored⟩ := wordLoop_spec (c := UInt8.ofNat ch.toNat)
    (m := heapMemset m dest (UInt8.ofNat ch.toNat) k) (p := q) (n := count - k) [] (by omega)
  have hmem : (memset m dest ch count).mem = heapMemset m dest (UInt8.ofNat ch.toNat) count := by
    unfold memset
    simp only [halign, hwords]
    rw [byteLoop_eq (by omega), heapMemset_add (by omega), heapMemset_add (by omega)]
    congr 1
    omega
  refine ⟨rfl, hmem, fun a hle hlt => ?_, fun a ha => ?_, ?_⟩
  · rw [hmem]
    exact heapMemset_eq _ _ _ _ hle hlt
  · rw [hmem]
    exact heapMemset_ne _ _ _ _ ha
  · unfold memset
    simp only [halign, hwords]
    exact hstored

/-- Three bytes over two words, from the last byte of a word on. -/
theorem memset_agrees_three :
    (memset (fun _ => 0) 7 0x1FF 3).mem 9 = 255 ∧ (memset (fun _ => 0) 7 0x1FF 3).mem 10 = 0 :=
  ⟨((memset_agrees (fun _ => 0) 7 0x1FF 3 (by decide)).2.2.1 9 (by decide) (by decide)).trans
    (by decide), (memset_agrees (fun _ => 0) 7 0x1FF 3 (by decide)).2.2.2.1 10 (by decide)⟩

end

end CobraOS.Lib
