import CobraOS.Base.Numeral
import CobraOS.Screen.Format
import CobraOS.Shell.Model
import CobraOS.Shutdown.Model

/-!
# Numbers of the shell: `print_uint`, `hexprint`, `parse_hex`, `parse_u32`, `parse_dec`

A text is the bytes before its zero byte.  The parsers keep the value as a 32-bit word and do not
notice when a numeral does not fit: they do what they promise exactly for the texts that are no
numeral of a larger number (`parsers_exact_iff`).

`print_uint` fills a local array from its end, `hexprint` the zeros of a text; accesses are checked.
What they print, the parsers read back (`printed_reads_back`).
-/

namespace CobraOS.Shell

open Base Screen

/-! ### Parsers -/

/-- The result of a parser, what `out` points at afterwards, and what was printed. -/
structure Parse (ρ : Type) where
  ret : ρ
  out : Nat
  printed : String

/-- `if (s[0] == '0' && (s[1] == 'x' || s[1] == 'X')) s += 2;` -/
def skipPrefix : Bytes → Bytes
  | a :: b :: s => if a = 48 ∧ (b = 120 ∨ b = 88) then s else a :: b :: s
  | s => s

/-- The loop of `parse_hex`; `none` at a byte that is not a digit. -/
def parseHexLoop : Bytes → Nat → Option Nat
  | [], val => some val
  | b :: s, val =>
    let val := val <<< 4 % 4294967296
    if 48 ≤ b ∧ b ≤ 57 then parseHexLoop s (val ||| (b.toNat - 48))
    else if 97 ≤ b ∧ b ≤ 102 then parseHexLoop s (val ||| (b.toNat - 97 + 10))
    else if 65 ≤ b ∧ b ≤ 70 then parseHexLoop s (val ||| (b.toNat - 65 + 10))
    else none

/-- `none` is the null pointer. -/
def parseHex (s : Option Bytes) (out : Nat) : Parse Bool :=
  match s with
  | none => ⟨false, out, ""⟩
  | some s =>
    if s = [] then ⟨false, out, ""⟩
    else if skipPrefix s = [] then ⟨false, out, ""⟩
    else
      match parseHexLoop (skipPrefix s) 0 with
      | none => ⟨false, out, "Error: invalid hex character.\n"⟩
      | some val => ⟨true, val, ""⟩

/-- The loop of `parse_u32` and of `parse_dec`; `none` at a byte that is not a digit. -/
def parseDecLoop : Bytes → Nat → Option Nat
  | [], v => some v
  | b :: s, v =>
    if b < 48 ∨ 57 < b then none else parseDecLoop s ((v * 10 + (b.toNat - 48)) % 4294967296)

def parseU32 (s : Option Bytes) (out : Nat) : Parse Int :=
  match s with
  | none => ⟨-1, out, ""⟩
  | some s =>
    if s = [] then ⟨-1, out, ""⟩
    else
      match parseDecLoop s 0 with
      | none => ⟨-1, out, ""⟩
      | some v => ⟨0, v, ""⟩

def parseDec (s : Option Bytes) (out : Nat) : Parse Bool :=
  match s with
  | none => ⟨false, out, ""⟩
  | some s =>
    if s = [] then ⟨false, out, ""⟩
    else
      match parseDecLoop s 0 with
      | none => ⟨false, out, "Error: expected decimal number.\n"⟩
      | some val => ⟨true, val, ""⟩

/-! ### Printing -/

/-- `"0x00000000"` with its zero byte. -/
def zeroText : Bytes := [48, 120, 48, 48, 48, 48, 48, 48, 48, 48, 0]

/-- `"0123456789ABCDEF"` -/
def hexTable : Bytes := [48, 49, 50, 51, 52, 53, 54, 55, 56, 57, 65, 66, 67, 68, 69, 70]

/-- The loop of `hexprint` from `i` down to 2. -/
def hexprintLoop : Nat → Bytes → Nat → Option Bytes
  | i + 2, hexString, value => do
    let digit ← hexTable[value &&& 15]?
    let hexString ← setAt hexString (i + 2) digit
    hexprintLoop (i + 1) hexString (value >>> 4)
  | _, hexString, _ => some hexString

/-- The text at `&buf[i]`. -/
def textAt (buf : Bytes) (i : Nat) : Bytes := (buf.drop i).takeWhile (· ≠ 0)

section
variable (mem : Screen.Word → Bytes) (args : Nat → Screen.Word)

/-- What `hexprint` prints. -/
def hexprint (value : Nat) : Option Bytes := do
  let hexString ← hexprintLoop 9 zeroText value
  some ((viprint mem args (textAt hexString 0)).1 ++ (viprint mem args [10]).1)

/-- `while (n > 0) { buf[--i] = '0' + (n % 10); n /= 10; }` -/
def printUintLoop : Nat → Bytes → Nat → Option (Nat × Bytes)
  | 0, buf, n => if n = 0 then some (0, buf) else none
  | i + 1, buf, n =>
    if n = 0 then some (i + 1, buf)
    else do
      let buf ← setAt buf i (48 + UInt8.ofNat (n % 10))
      printUintLoop i buf (n / 10)

/-- What `print_uint` prints; the array holds `junk` before. -/
def printUint (junk : Fin 12 → UInt8) (n : Nat) : Option Bytes := do
  let buf ← setAt (List.ofFn junk) 11 0
  let (i, buf) ←
    if n = 0 then (setAt buf 10 48).map fun buf => (10, buf) else printUintLoop 11 buf n
  some (viprint mem args (textAt buf i)).1

end

/-! ### The grammars -/

def decDigit (b : UInt8) : Option Nat := if 48 ≤ b ∧ b ≤ 57 then some (b.toNat - 48) else none

def hexDigit (b : UInt8) : Option Nat :=
  if 48 ≤ b ∧ b ≤ 57 then some (b.toNat - 48)
  else if 97 ≤ b ∧ b ≤ 102 then some (b.toNat - 97 + 10)
  else if 65 ≤ b ∧ b ≤ 70 then some (b.toNat - 65 + 10)
  else none

/-- One decimal digit or more. -/
def DecText : Bytes → Nat → Prop := Numeral decDigit 10

/-- One hex digit or more, behind `0x`, `0X` or nothing. -/
def HexText (s : Bytes) (v : Nat) : Prop :=
  ∃ t, (s = t ∨ s = 48 :: 120 :: t ∨ s = 48 :: 88 :: t) ∧ Numeral hexDigit 16 t v

/-- **What a parser promises** for the text `s`, with the result `yes` for success: it succeeds
exactly for the texts of a number that fits a word, gives that number, and leaves `out` alone
otherwise. -/
structure Exact {ρ : Type} (grammar : Bytes → Nat → Prop) (yes : ρ)
    (parse : Option Bytes → Nat → Parse ρ) (s : Bytes) : Prop where
  accepts : ∀ out, (parse (some s) out).ret = yes ↔ ∃ v, grammar s v ∧ v < 4294967296
  value : ∀ out v, (parse (some s) out).ret = yes → grammar s v → (parse (some s) out).out = v
  failure : ∀ out, (parse (some s) out).ret ≠ yes → (parse (some s) out).out = out

/-! ### The parsers against the grammars -/

theorem shift_or (v : Nat) {d : Nat} (h : d < 16) :
    v <<< 4 % 4294967296 ||| d = (v * 16 + d) % 4294967296 := by
  have hshift : v <<< 4 % 4294967296 = (v % 268435456) <<< 4 := by
    rw [Nat.shiftLeft_eq, Nat.shiftLeft_eq]
    omega
  rw [hshift, ← Nat.shiftLeft_add_eq_or_of_lt h, Nat.shiftLeft_eq]
  omega

theorem hexDigit_lt {b : UInt8} {d : Nat} (h : hexDigit b = some d) : d < 16 := by
  unfold hexDigit at h
  split_ifs at h with hdec hlow hupp
  · have hle : b.toNat ≤ 57 := UInt8.le_iff_toNat_le.mp hdec.2
    cases h
    omega
  · have hle : b.toNat ≤ 102 := UInt8.le_iff_toNat_le.mp hlow.2
    cases h
    omega
  · have hle : b.toNat ≤ 70 := UInt8.le_iff_toNat_le.mp hupp.2
    cases h
    omega

theorem parseHexLoop_cons (b : UInt8) (s : Bytes) (v : Nat) : parseHexLoop (b :: s) v =
    match hexDigit b with
    | none => none
    | some d => parseHexLoop s (v <<< 4 % 4294967296 ||| d) := by
  rw [parseHexLoop, hexDigit]
  split_ifs <;> rfl

theorem parseHexLoop_eq :
    ∀ (s : Bytes) (v : Nat), parseHexLoop s v = readDigits hexDigit 16 4294967296 s v := by
  intro s
  induction s with
  | nil => exact fun _ => rfl
  | cons b s ih =>
    intro v
    rw [parseHexLoop_cons, readDigits]
    cases h : hexDigit b with
    | none => rfl
    | some d =>
      simp only [shift_or v (hexDigit_lt h)]
      exact ih _

theorem parseDecLoop_eq :
    ∀ (s : Bytes) (v : Nat), parseDecLoop s v = readDigits decDigit 10 4294967296 s v := by
  intro s
  induction s with
  | nil => exact fun _ => rfl
  | cons b s ih =>
    intro v
    rw [parseDecLoop, readDigits, decDigit]
    by_cases hdec : 48 ≤ b ∧ b ≤ 57
    · have hnot : ¬(b < 48 ∨ 57 < b) := by
        rw [not_or, UInt8.not_lt, UInt8.not_lt]
        exact hdec
      simp only [if_neg hnot, if_pos hdec]
      exact ih _
    · have hout : b < 48 ∨ 57 < b := by
        rw [← UInt8.not_le, ← UInt8.not_le]
        exact not_and_or.mp hdec
      simp only [if_pos hout, if_neg hdec]

/-- The prefix belongs to no numeral, since `x` is not a digit. -/
theorem hexText_iff {s : Bytes} {v : Nat} : HexText s v ↔ Numeral hexDigit 16 (skipPrefix s) v := by
  constructor
  · rintro ⟨t, rfl | rfl | rfl, h⟩
    · rcases s with _ | ⟨a, _ | ⟨b, s⟩⟩
      · exact h
      · exact h
      · have hb := h.isSome b (List.mem_cons_of_mem _ (List.mem_cons_self ..))
        have hnot : ¬(a = 48 ∧ (b = 120 ∨ b = 88)) := by
          rintro ⟨-, rfl | rfl⟩ <;> exact absurd hb (by decide)
        rwa [skipPrefix, if_neg hnot]
    · rwa [skipPrefix, if_pos (by decide)]
    · rwa [skipPrefix, if_pos (by decide)]
  · intro h
    rcases s with _ | ⟨a, _ | ⟨b, s⟩⟩
    · exact ⟨_, .inl rfl, h⟩
    · exact ⟨_, .inl rfl, h⟩
    · by_cases hpre : a = 48 ∧ (b = 120 ∨ b = 88)
      · rw [skipPrefix, if_pos hpre] at h
        obtain ⟨rfl, rfl | rfl⟩ := hpre
        · exact ⟨s, .inr (.inl rfl), h⟩
        · exact ⟨s, .inr (.inr rfl), h⟩
      · rw [skipPrefix, if_neg hpre] at h
        exact ⟨_, .inl rfl, h⟩

/-- A parser succeeds for the texts of its grammar, with the value cut to a word. -/
structure Reads {ρ : Type} (grammar : Bytes → Nat → Prop) (yes : ρ)
    (parse : Option Bytes → Nat → Parse ρ) (s : Bytes) : Prop where
  read : ∀ {v}, grammar s v → ∀ out, parse (some s) out = ⟨yes, v % 4294967296, ""⟩
  reject : (∀ v, ¬grammar s v) → ∀ out, (parse (some s) out).ret ≠ yes ∧
    (parse (some s) out).out = out
  unique : ∀ {v w}, grammar s v → grammar s w → v = w

theorem Reads.out_lt {ρ : Type} {grammar : Bytes → Nat → Prop} {yes : ρ}
    {parse : Option Bytes → Nat → Parse ρ} {s : Bytes} (h : Reads grammar yes parse s) {out : Nat}
    (hret : (parse (some s) out).ret = yes) :
    (parse (some s) out).out < 4294967296 := by
  by_cases hg : ∃ v, grammar s v
  · obtain ⟨v, hv⟩ := hg
    rw [h.read hv out]
    exact Nat.mod_lt _ (by decide)
  · exact absurd hret (h.reject (not_exists.mp hg) out).1

/-- **Such a parser keeps its promise** exactly when the text is no numeral of a larger number. -/
theorem Reads.exact_iff {ρ : Type} {grammar : Bytes → Nat → Prop} {yes : ρ}
    {parse : Option Bytes → Nat → Parse ρ} {s : Bytes} (h : Reads grammar yes parse s) :
    Exact grammar yes parse s ↔ ∀ v, grammar s v → v < 4294967296 := by
  constructor
  · intro hexact v hv
    obtain ⟨w, hw, hlt⟩ := (hexact.accepts 0).mp (congrArg Parse.ret (h.read hv 0))
    rwa [h.unique hv hw]
  · intro hsmall
    by_cases hg : ∃ v, grammar s v
    · obtain ⟨v, hv⟩ := hg
      have hyes : ∀ out, (parse (some s) out).ret = yes :=
        fun out => congrArg Parse.ret (h.read hv out)
      refine ⟨fun out => ?_, fun out w _ hw => ?_, fun out hno => absurd (hyes out) hno⟩
      · exact iff_of_true (hyes out) ⟨v, hv, hsmall v hv⟩
      · rw [h.read hw out]
        exact Nat.mod_eq_of_lt (hsmall w hw)
    · have hnone : ∀ v, ¬grammar s v := not_exists.mp hg
      refine ⟨fun out => ?_, fun out v _ hv => absurd hv (hnone v),
        fun out _ => (h.reject hnone out).2⟩
      exact iff_of_false (h.reject hnone out).1 (fun ⟨v, hv, _⟩ => hnone v hv)

theorem parseHex_reads (s : Bytes) : Reads HexText true parseHex s := by
  refine ⟨fun {v} hv out => ?_, fun hno out => ?_,
    fun hv hw => (hexText_iff.mp hv).unique (hexText_iff.mp hw)⟩
  · have hnum := hexText_iff.mp hv
    have hs : s ≠ [] := fun he => hnum.ne_nil (by rw [he]; rfl)
    rw [parseHex, if_neg hs, if_neg hnum.ne_nil, parseHexLoop_eq, hnum.readDigits_eq]
  · rw [parseHex]
    split_ifs with hs hskip
    · exact ⟨Bool.false_ne_true, rfl⟩
    · exact ⟨Bool.false_ne_true, rfl⟩
    · cases hloop : parseHexLoop (skipPrefix s) 0 with
      | none => exact ⟨Bool.false_ne_true, rfl⟩
      | some r =>
        rw [parseHexLoop_eq] at hloop
        obtain ⟨v, hv, -⟩ := (readDigits_eq_some hskip).mp hloop
        exact absurd (hexText_iff.mpr hv) (hno v)

/-- The loop stops at a byte that is not a digit when the text is no numeral. -/
theorem parseDecLoop_none {s : Bytes} (hs : s ≠ []) (hno : ∀ v, ¬DecText s v) :
    parseDecLoop s 0 = none := by
  cases hloop : parseDecLoop s 0 with
  | none => rfl
  | some r =>
    rw [parseDecLoop_eq] at hloop
    obtain ⟨v, hv, -⟩ := (readDigits_eq_some hs).mp hloop
    exact absurd hv (hno v)

theorem parseU32_reads (s : Bytes) : Reads DecText 0 parseU32 s := by
  refine ⟨fun {v} hv out => ?_, fun hno out => ?_, fun hv hw => hv.unique hw⟩
  · rw [parseU32, if_neg hv.ne_nil, parseDecLoop_eq, hv.readDigits_eq]
  · rw [parseU32]
    split_ifs with hs
    · exact ⟨by simp, rfl⟩
    · rw [parseDecLoop_none hs hno]
      exact ⟨by simp, rfl⟩

theorem parseDec_reads (s : Bytes) : Reads DecText true parseDec s := by
  refine ⟨fun {v} hv out => ?_, fun hno out => ?_, fun hv hw => hv.unique hw⟩
  · rw [parseDec, if_neg hv.ne_nil, parseDecLoop_eq, hv.readDigits_eq]
  · rw [parseDec]
    split_ifs with hs
    · exact ⟨Bool.false_ne_true, rfl⟩
    · rw [parseDecLoop_none hs hno]
      exact ⟨Bool.false_ne_true, rfl⟩

/-- A byte as a character of the command `timer`. -/
def charOf (b : UInt8) : Char := Char.ofNat b.toNat

theorem charOf_digit (b : UInt8) :
    (charOf b < '0' ∨ '9' < charOf b ↔ b < 48 ∨ 57 < b) ∧
      (charOf b).toNat - '0'.toNat = b.toNat - 48 := by
  have hall : ∀ n < 256, (Char.ofNat n < '0' ∨ '9' < Char.ofNat n ↔ n < 48 ∨ 57 < n) ∧
      (Char.ofNat n).toNat - '0'.toNat = n - 48 := by decide +kernel
  rw [UInt8.lt_iff_toNat_lt, UInt8.lt_iff_toNat_lt]
  exact hall b.toNat b.toNat_lt

/-- The arguments of the command `timer` are parsed like this. -/
theorem shutdown_parseDigits_eq : ∀ (s : Bytes) (v : Nat),
    Shutdown.parseDigits (s.map charOf) v = parseDecLoop s v := by
  intro s
  induction s with
  | nil => exact fun _ => rfl
  | cons b s ih =>
    intro v
    rw [List.map_cons, Shutdown.parseDigits, parseDecLoop, (charOf_digit b).2, ih]
    exact if_congr (charOf_digit b).1 rfl rfl

theorem shutdown_parseU32_eq (s : Bytes) (out : Nat) : parseU32 (some s) out =
    match Shutdown.parseU32 (s.map charOf) with
    | none => ⟨-1, out, ""⟩
    | some v => ⟨0, v, ""⟩ := by
  rw [parseU32, Shutdown.parseU32, shutdown_parseDigits_eq]
  by_cases hs : s = []
  · subst hs
    rfl
  · have hmap : s.map charOf ≠ [] := fun he => hs (List.map_eq_nil_iff.mp he)
    rw [if_neg hs, if_neg hmap]

/-- **The parsers do what they promise** for a text exactly when it is no numeral of a number of 2 ^
32 or more: such a numeral is accepted too, and its value is cut to a word. -/
theorem parsers_exact_iff (s : Bytes) :
    (Exact HexText true parseHex s ↔ ∀ v, HexText s v → v < 4294967296) ∧
      (Exact DecText 0 parseU32 s ↔ ∀ v, DecText s v → v < 4294967296) ∧
      (Exact DecText true parseDec s ↔ ∀ v, DecText s v → v < 4294967296) :=
  ⟨(parseHex_reads s).exact_iff, (parseU32_reads s).exact_iff, (parseDec_reads s).exact_iff⟩

/-- **The decimal numeral of a number** denotes it. -/
theorem decText_numeral (n : Nat) : DecText (numeral 10 n) n :=
  toDigits_numeral (by decide) (by decide) n

theorem hexText_numeral (n : Nat) : HexText (numeral 16 n) n :=
  ⟨_, .inl rfl, toDigits_numeral (by decide) (by decide) n⟩

/-- `100000000` is read as 0 by `parse_hex`, and `4294967296` by the others. -/
theorem large_numerals_accepted :
    ¬Exact HexText true parseHex [49, 48, 48, 48, 48, 48, 48, 48, 48] ∧
      ¬Exact DecText 0 parseU32 [52, 50, 57, 52, 57, 54, 55, 50, 57, 54] ∧
      ¬Exact DecText true parseDec [52, 50, 57, 52, 57, 54, 55, 50, 57, 54] := by
  have hhex : numeral 16 4294967296 = [49, 48, 48, 48, 48, 48, 48, 48, 48] := by decide +kernel
  have hdec : numeral 10 4294967296 = [52, 50, 57, 52, 57, 54, 55, 50, 57, 54] := by decide +kernel
  rw [← hhex, ← hdec]
  refine ⟨fun h => ?_, fun h => ?_, fun h => ?_⟩
  · exact absurd ((parseHex_reads _).exact_iff.mp h _ (hexText_numeral _)) (by decide)
  · exact absurd ((parseU32_reads _).exact_iff.mp h _ (decText_numeral _)) (by decide)
  · exact absurd ((parseDec_reads _).exact_iff.mp h _ (decText_numeral _)) (by decide)

/-! ### What is printed -/

theorem hexTable_get (value : Nat) :
    hexTable[value &&& 15]? = some (digitByte 65 (value % 16)) := by
  have hall : ∀ d < 16, hexTable[d]? = some (digitByte 65 d) := by decide
  rw [show value &&& 15 = value % 16 from Nat.and_two_pow_sub_one_eq_mod value 4]
  exact hall _ (Nat.mod_lt _ (by decide))

theorem exists_snoc {α : Type*} {l : List α} {k : Nat} (h : l.length = k + 1) :
    ∃ init last, l = init ++ [last] ∧ init.length = k := by
  have hne : l ≠ [] := List.ne_nil_of_length_eq_add_one h
  exact ⟨_, _, (List.dropLast_append_getLast hne).symm,
    by rw [List.length_dropLast, h, Nat.add_sub_cancel]⟩

theorem hexprintLoop_spec : ∀ (k : Nat) (zeros tail : Bytes) (value : Nat), zeros.length = k →
    hexprintLoop (k + 1) (48 :: 120 :: (zeros ++ tail)) value =
      some (48 :: 120 :: (fixedDigits (digitByte 65) 16 k value ++ tail)) := by
  intro k
  induction k with
  | zero =>
    intro zeros tail value hlen
    rw [List.eq_nil_of_length_eq_zero hlen]
    rfl
  | succ k ih =>
    intro zeros tail value hlen
    obtain ⟨init, last, rfl, hinit⟩ := exists_snoc hlen
    have hset : setAt (48 :: 120 :: (init ++ [last] ++ tail)) (k + 2) (digitByte 65 (value % 16)) =
        some (48 :: 120 :: (init ++ ([digitByte 65 (value % 16)] ++ tail))) := by
      have hpre : (48 :: 120 :: init).length = k + 2 := by
        rw [List.length_cons, List.length_cons, hinit]
      simpa using setAt_mid hpre last (digitByte 65 (value % 16)) tail
    rw [hexprintLoop, hexTable_get, Option.bind_eq_bind, Option.bind_some, hset,
      Option.bind_eq_bind,
      Option.bind_some, ih init _ _ hinit, Nat.shiftRight_eq_div_pow, fixedDigits,
        List.append_assoc]

/-- The text of an array whose bytes before the first zero byte are these. -/
theorem textAt_append (pre : Bytes) {text : Bytes} (h : 0 ∉ text) (post : Bytes) :
    textAt (pre ++ (text ++ 0 :: post)) pre.length = text := by
  have hall : ∀ b ∈ text, decide (b ≠ 0) = true :=
    fun b hb => decide_eq_true (ne_of_mem_of_not_mem hb h)
  rw [textAt, List.drop_left, List.takeWhile_append_of_pos hall,
    List.takeWhile_cons_of_neg (by decide), List.append_nil]

theorem viprint_of_notMem (mem : Screen.Word → Bytes) (args : Nat → Screen.Word) {text : Bytes}
    (h : percent ∉ text) : (viprint mem args text).1 = text :=
  congrArg Prod.fst (viprint_eq_iff.mpr (plain_of_notMem h))

theorem notMem_of_numeral {digit : UInt8 → Option Nat} {base v : Nat} {s : Bytes} {b : UInt8}
    (h : Numeral digit base s v) (hb : digit b = none) : b ∉ s := by
  intro hmem
  have := h.isSome b hmem
  rw [hb] at this
  cases this

/-- **`hexprint` prints `0x` and eight digits**, and a new line. -/
theorem hexprint_eq (mem : Screen.Word → Bytes) (args : Nat → Screen.Word) (value : Nat) :
    hexprint mem args value =
      some (48 :: 120 :: fixedDigits (digitByte 65) 16 8 value ++ [10]) := by
  have hloop := hexprintLoop_spec 8 (List.replicate 8 48) [0] value (List.length_replicate ..)
  have hdigits : Numeral hexDigit 16 (fixedDigits (digitByte 65) 16 8 value) (value % 16 ^ 8) :=
    fixedDigits_numeral (by decide) (by decide) 7 value
  have hzero : (0 : UInt8) ∉ 48 :: 120 :: fixedDigits (digitByte 65) 16 8 value := by
    simpa using notMem_of_numeral hdigits (b := 0) (by decide)
  have hplain : percent ∉ 48 :: 120 :: fixedDigits (digitByte 65) 16 8 value := by
    simpa [percent] using notMem_of_numeral hdigits (b := percent) (by decide)
  have htext := textAt_append [] hzero []
  rw [List.nil_append, List.cons_append, List.cons_append, List.length_nil] at htext
  rw [hexprint, show zeroText = 48 :: 120 :: (List.replicate 8 48 ++ [0]) from rfl, hloop,
    Option.bind_eq_bind, Option.bind_some, htext, viprint_of_notMem mem args hplain,
    viprint_of_notMem mem args (by decide : percent ∉ [10])]

/-- The loop of `print_uint` fills the array from the end with the digits. -/
theorem printUintLoop_spec : ∀ (i : Nat) (junk post : Bytes) (n : Nat), junk.length = i → 0 < n →
    n < 10 ^ i →
    ∃ pre, printUintLoop i (junk ++ post) n = some (pre.length, pre ++ (numeral 10 n ++ post)) := by
  intro i
  induction i with
  | zero =>
    intro junk post n _ hpos hlt
    rw [Nat.pow_zero] at hlt
    omega
  | succ i ih =>
    intro junk post n hlen hpos hlt
    obtain ⟨init, last, rfl, hinit⟩ := exists_snoc hlen
    have hdigit : 48 + UInt8.ofNat (n % 10) = UInt8.ofNat (Nat.digitChar (n % 10)).toNat := by
      have hmod : n % 10 < 10 := Nat.mod_lt n (by decide)
      interval_cases n % 10 <;> rfl
    rw [printUintLoop, if_neg (by omega), List.append_assoc, List.singleton_append,
      setAt_mid hinit, Option.bind_eq_bind, Option.bind_some]
    unfold numeral
    rw [Nat.toDigits_eq_if (by decide)]
    by_cases hsmall : n < 10
    · have hstop : ∀ cells, printUintLoop i cells 0 = some (i, cells) :=
        fun cells => by cases i <;> rfl
      refine ⟨init, ?_⟩
      rw [if_pos hsmall, Nat.div_eq_of_lt hsmall, hstop, hdigit, Nat.mod_eq_of_lt hsmall, hinit]
      rfl
    · have hdiv : n / 10 < 10 ^ i := Nat.div_lt_of_lt_mul (by rwa [Nat.pow_succ'] at hlt)
      obtain ⟨pre, hpre⟩ := ih init _ (n / 10) hinit (by omega) hdiv
      refine ⟨pre, ?_⟩
      rw [hpre, if_neg hsmall, List.map_append, hdigit]
      unfold numeral
      simp only [List.map_cons, List.map_nil, List.append_assoc, List.singleton_append]

/-- **`print_uint` prints the decimal numeral**, and keeps inside its array. -/
theorem printUint_eq (mem : Screen.Word → Bytes) (args : Nat → Screen.Word) (junk : Fin 12 → UInt8)
    {n : Nat} (h : n < 4294967296) : printUint mem args junk n = some (numeral 10 n) := by
  have hnum : DecText (numeral 10 n) n := decText_numeral n
  have hzero : (0 : UInt8) ∉ numeral 10 n := notMem_of_numeral hnum (by decide)
  have hplain : percent ∉ numeral 10 n := notMem_of_numeral hnum (by decide)
  obtain ⟨init, last, hjunk, hinit⟩ :=
    exists_snoc (List.length_ofFn : (List.ofFn junk).length = 11 + 1)
  unfold printUint
  rw [hjunk, setAt_mid hinit, Option.bind_eq_bind, Option.bind_some]
  by_cases hn : n = 0
  · obtain ⟨init', last', rfl, hinit'⟩ := exists_snoc hinit
    have htext := textAt_append init' (by decide : (0 : UInt8) ∉ [48]) []
    rw [hinit'] at htext
    subst hn
    rw [if_pos rfl, List.append_assoc, List.singleton_append, setAt_mid hinit', Option.map_some,
      Option.bind_eq_bind, Option.bind_some]
    simp only []
    have hbuf : init' ++ 48 :: [0] = init' ++ ([48] ++ 0 :: []) := rfl
    rw [hbuf, htext]
    exact congrArg some (viprint_of_notMem mem args hplain)
  · obtain ⟨pre, hpre⟩ := printUintLoop_spec 11 init [0] n hinit (by omega) (by omega)
    rw [if_neg hn, hpre, Option.bind_eq_bind, Option.bind_some]
    simp only []
    rw [textAt_append pre hzero, viprint_of_notMem mem args hplain]

/-- **Printed numbers read back**: the parsers give the number that was printed, whatever was in the
array of `print_uint` and on the stack of `viprint`. -/
theorem printed_reads_back (mem : Screen.Word → Bytes) (args : Nat → Screen.Word)
    (junk : Fin 12 → UInt8) (n : Screen.Word) :
    (∃ shown, hexprint mem args n.toNat = some shown ∧
        ∀ out, parseHex (some (shown.takeWhile (· ≠ 10))) out = ⟨true, n.toNat, ""⟩) ∧
      ∃ shown, printUint mem args junk n.toNat = some shown ∧
        ∀ out, parseU32 (some shown) out = ⟨0, n.toNat, ""⟩ ∧
          parseDec (some shown) out = ⟨true, n.toNat, ""⟩ := by
  have hlt : n.toNat < 4294967296 := n.isLt
  constructor
  · have hdigits : Numeral hexDigit 16 (fixedDigits (digitByte 65) 16 8 n.toNat) n.toNat := by
      have hdigit : ∀ d < 16, hexDigit (digitByte 65 d) = some d := by decide
      have hlow := fixedDigits_numeral (by decide) hdigit 7 n.toNat
      rwa [Nat.mod_eq_of_lt (b := 16 ^ 8) hlt] at hlow
    have hline : ∀ b ∈ 48 :: 120 :: fixedDigits (digitByte 65) 16 8 n.toNat,
        decide (b ≠ 10) = true := by
      have hnot := notMem_of_numeral hdigits (by decide : hexDigit 10 = none)
      simp only [List.mem_cons, decide_eq_true_eq]
      rintro b (rfl | rfl | hb)
      · decide
      · decide
      · exact ne_of_mem_of_not_mem hb hnot
    refine ⟨_, hexprint_eq mem args n.toNat, fun out => ?_⟩
    rw [List.takeWhile_append_of_pos hline, List.takeWhile_cons_of_neg (by decide), List.append_nil,
      (parseHex_reads _).read ⟨_, .inr (.inl rfl), hdigits⟩, Nat.mod_eq_of_lt hlt]
  · have hnum := decText_numeral n.toNat
    refine ⟨_, printUint_eq mem args junk hlt, fun out => ?_⟩
    rw [(parseU32_reads _).read hnum, (parseDec_reads _).read hnum, Nat.mod_eq_of_lt hlt]
    exact ⟨rfl, rfl⟩

end CobraOS.Shell
