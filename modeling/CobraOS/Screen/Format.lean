import CobraOS.Screen.Model

/-!
# Formatted printing: `viprint` of `screen.c` and `printf` of `lib/stdio.c`

A format is the text before its zero byte, and what a call prints is a list of bytes.  The words
that `va_arg` reads are a function from their numbers: those behind the arguments of the call are
whatever is on the stack.  `mem p` is the text at the address `p`.  `viprint` also counts the words
that it reads.

`printf` reads on behind the zero byte of a format that ends with `'%'`; it has no result then.  It
gives the texts for `%s` to `viprint` as formats, where `junk n` is what is on the stack of the call
for the `n`-th argument.

* `viprint_eq_iff`: a text is printed as it is, without a word being read, exactly when it is
  `Plain`.
* `printf_agrees_iff`: when `printf` prints what `viprint` prints.
-/

namespace CobraOS.Screen

abbrev Word := BitVec 32

/-- `'%'` -/
def percent : UInt8 := 37

/-- A digit, as a letter from ten on. -/
def digitByte (letter : UInt8) (digit : Nat) : UInt8 :=
  if digit < 10 then 48 + UInt8.ofNat digit else letter + UInt8.ofNat (digit - 10)

/-- `while (value > 0) { temp[i++] = ...; value /= base; }`, the last digit first. -/
def digitsLoop (letter : UInt8) (base : Nat) : Nat → Nat → Bytes
  | 0, _ => []
  | fuel + 1, value =>
    if value = 0 then [] else digitByte letter (value % base) :: digitsLoop letter base fuel
      (value / base)

def utoa (value base : Nat) : Bytes :=
  if value = 0 then [48] else (digitsLoop 97 base 32 value).reverse

def itoa (value : Word) : Bytes :=
  if value.toInt < 0 then 45 :: utoa (-value).toNat 10 else utoa value.toNat 10

/-- `if (*s >= 'a' && *s <= 'f') *s = *s - 'a' + 'A';` -/
def upperCase (c : UInt8) : UInt8 := if 97 ≤ c ∧ c ≤ 102 then c - 97 + 65 else c

/-- `"(null)"` -/
def nullText : Bytes := [40, 110, 117, 108, 108, 41]

/-- What the conversion `d` prints for a word, if it is one. -/
def convert (mem : Word → Bytes) (d : UInt8) (arg : Word) : Option Bytes :=
  if d = 99 then some [UInt8.ofNat arg.toNat]
  else if d = 115 then some (if arg = 0 then nullText else mem arg)
  else if d = 100 ∨ d = 105 then some (itoa arg)
  else if d = 117 then some (utoa arg.toNat 10)
  else if d = 120 then some (utoa arg.toNat 16)
  else if d = 88 then some ((utoa arg.toNat 16).map upperCase)
  else if d = 111 then some (utoa arg.toNat 8)
  else if d = 112 then some ([48, 120] ++ utoa arg.toNat 16)
  else none

/-- The loop of `viprint`, when `n` words have been read. -/
def viprintFrom (mem : Word → Bytes) (args : Nat → Word) : Nat → Bytes → Bytes × Nat
  | n, [] => ([], n)
  | n, [c] => if c = percent then ([], n) else ([c], n)
  | n, c :: d :: rest =>
    if c = percent then
      if d = percent then
        let r := viprintFrom mem args n rest
        (percent :: r.1, r.2)
      else
        match convert mem d (args n) with
        | some text =>
          let r := viprintFrom mem args (n + 1) rest
          (text ++ r.1, r.2)
        | none =>
          let r := viprintFrom mem args n rest
          (percent :: d :: r.1, r.2)
    else
      let r := viprintFrom mem args n (d :: rest)
      (c :: r.1, r.2)

/-- What `viprint` prints, and how many words it reads. -/
def viprint (mem : Word → Bytes) (args : Nat → Word) (format : Bytes) : Bytes × Nat :=
  viprintFrom mem args 0 format

/-- The case `'d'` of `printf`: the negation of the least number is that number again. -/
def printfDecimal (num : Word) : Bytes :=
  let sign : Bytes := if num.toInt < 0 then [45] else []
  let num := if num.toInt < 0 then -num else num
  if num = 0 then sign ++ [48]
  else sign ++ if 0 < num.toInt then (digitsLoop 97 10 32 num.toNat).reverse else []

/-- The cases `'x'` and `'X'`. -/
def printfHex (letter : UInt8) (num : Word) : Bytes :=
  if num = 0 then [48] else (digitsLoop letter 16 32 num.toNat).reverse

def printfConvert (mem : Word → Bytes) (junk : Nat → Word) (d : UInt8) (arg : Word) :
    Option Bytes :=
  if d = 100 then some (printfDecimal arg)
  else if d = 115 then some (viprint mem junk (mem arg)).1
  else if d = 99 then some [UInt8.ofNat arg.toNat]
  else if d = 120 then some (printfHex 97 arg)
  else if d = 88 then some (printfHex 65 arg)
  else none

/-- The loop of `printf`. -/
def printfFrom (mem : Word → Bytes) (junk : Nat → Nat → Word) (args : Nat → Word) :
    Nat → Bytes → Option Bytes
  | _, [] => some []
  | _, [c] => if c = percent then none else some [c]
  | n, c :: d :: rest =>
    if c = percent then
      if d = percent then (printfFrom mem junk args n rest).map (percent :: ·)
      else
        match printfConvert mem (junk n) d (args n) with
        | some text => (printfFrom mem junk args (n + 1) rest).map (text ++ ·)
        | none => (printfFrom mem junk args n rest).map ([percent, d] ++ ·)
    else (printfFrom mem junk args n (d :: rest)).map (c :: ·)

def printf (mem : Word → Bytes) (junk : Nat → Nat → Word) (args : Nat → Word) (format : Bytes) :
    Option Bytes :=
  printfFrom mem junk args 0 format

/-! ### Texts without conversions -/

/-- The letters of the conversions of `viprint`. -/
def conversions : List UInt8 := [99, 115, 100, 105, 117, 120, 88, 111, 112]

/-- Every `'%'` is followed by a byte that is neither a conversion nor `'%'`. -/
def Plain : Bytes → Prop
  | [] => True
  | [c] => c ≠ percent
  | c :: d :: rest =>
    if c = percent then d ∉ conversions ∧ d ≠ percent ∧ Plain rest else Plain (d :: rest)

section

variable {mem : Word → Bytes} {args : Nat → Word} {n : Nat} {c d : UInt8} {s : Bytes}

theorem convert_none (mem : Word → Bytes) (arg : Word) (h : d ∉ conversions) :
    convert mem d arg = none := by
  simp only [conversions, List.mem_cons, List.not_mem_nil, or_false, not_or] at h
  obtain ⟨h99, h115, h100, h105, h117, h120, h88, h111, h112⟩ := h
  unfold convert
  rw [if_neg h99, if_neg h115, if_neg (not_or.mpr ⟨h100, h105⟩), if_neg h117, if_neg h120,
    if_neg h88, if_neg h111, if_neg h112]

theorem convert_some (mem : Word → Bytes) (arg : Word) (h : d ∈ conversions) :
    ∃ text, convert mem d arg = some text := by
  simp only [conversions, List.mem_cons, List.not_mem_nil, or_false] at h
  obtain rfl | rfl | rfl | rfl | rfl | rfl | rfl | rfl | rfl := h <;> exact ⟨_, rfl⟩

/-- **Formats are read like this**: a byte, or `'%'` and the byte behind it. -/
@[elab_as_elim] theorem format_induct {P : Bytes → Prop} (nil : P []) (lone : P [percent])
    (char : ∀ c rest, c ≠ percent → P rest → P (c :: rest))
    (pair : ∀ d rest, P rest → P (percent :: d :: rest)) :
    ∀ s, P s
  | [] => nil
  | [c] => by
    by_cases hc : c = percent
    · exact hc ▸ lone
    · exact char c [] hc nil
  | c :: d :: rest => by
    by_cases hc : c = percent
    · exact hc ▸ pair d rest (format_induct nil lone char pair rest)
    · exact char c (d :: rest) hc (format_induct nil lone char pair (d :: rest))

theorem viprintFrom_char (hc : c ≠ percent) (n : Nat) (rest : Bytes) :
    viprintFrom mem args n (c :: rest) =
    (c :: (viprintFrom mem args n rest).1, (viprintFrom mem args n rest).2) := by
  cases rest with
  | nil => exact if_neg hc
  | cons d rest => rw [viprintFrom, if_neg hc]

theorem viprintFrom_percent (n : Nat) (rest : Bytes) :
    viprintFrom mem args n (percent :: percent :: rest) =
    (percent :: (viprintFrom mem args n rest).1, (viprintFrom mem args n rest).2) := by
  rw [viprintFrom, if_pos rfl, if_pos rfl]

theorem viprintFrom_convert (hd : d ≠ percent) {text : Bytes}
    (h : convert mem d (args n) = some text) (rest : Bytes) :
    viprintFrom mem args n (percent :: d :: rest) =
      (text ++ (viprintFrom mem args (n + 1) rest).1, (viprintFrom mem args (n + 1) rest).2) := by
  rw [viprintFrom, if_pos rfl, if_neg hd, h]

theorem viprintFrom_other (hd : d ≠ percent) (h : d ∉ conversions) (n : Nat) (rest : Bytes) :
    viprintFrom mem args n (percent :: d :: rest) =
      (percent :: d :: (viprintFrom mem args n rest).1, (viprintFrom mem args n rest).2) := by
  rw [viprintFrom, if_pos rfl, if_neg hd, convert_none mem (args n) h]

theorem plain_char (hc : c ≠ percent) (rest : Bytes) : Plain (c :: rest) ↔ Plain rest := by
  cases rest with
  | nil => exact ⟨fun _ => trivial, fun _ => hc⟩
  | cons d rest => rw [Plain, if_neg hc]

theorem plain_pair (d : UInt8) (rest : Bytes) :
    Plain (percent :: d :: rest) ↔ d ∉ conversions ∧ d ≠ percent ∧ Plain rest := by
  rw [Plain, if_pos rfl]

theorem percent_not_conversion : percent ∉ conversions := by decide

theorem plain_of_notMem (h : percent ∉ s) : Plain s := by
  induction s with
  | nil => trivial
  | cons c s ih =>
    have hc : c ≠ percent := fun he => h (by rw [he]; exact List.mem_cons_self ..)
    exact (plain_char hc s).mpr (ih (fun hs => h (List.mem_cons_of_mem _ hs)))

theorem viprintFrom_plain (n : Nat) (h : Plain s) : viprintFrom mem args n s = (s, n) := by
  induction s using format_induct with
  | nil => rfl
  | lone => exact absurd rfl h
  | char c rest hc ih => rw [viprintFrom_char hc, ih ((plain_char hc rest).mp h)]
  | pair d rest ih =>
    obtain ⟨hd, hne, hrest⟩ := (plain_pair d rest).mp h
    rw [viprintFrom_other hne hd, ih hrest]

theorem viprintFrom_le (mem : Word → Bytes) (args : Nat → Word) (n : Nat) (s : Bytes) :
    n ≤ (viprintFrom mem args n s).2 := by
  induction s using format_induct generalizing n with
  | nil => exact Nat.le_refl n
  | lone => exact Nat.le_refl n
  | char c rest hc ih => rw [viprintFrom_char hc]; exact ih n
  | pair d rest ih =>
    by_cases hd : d = percent
    · rw [hd, viprintFrom_percent]
      exact ih n
    by_cases hconv : d ∈ conversions
    · obtain ⟨text, htext⟩ := convert_some mem (args n) hconv
      rw [viprintFrom_convert hd htext]
      exact (Nat.le_succ n).trans (ih (n + 1))
    · rw [viprintFrom_other hd hconv]
      exact ih n

/-- When no word is read, nothing gets longer, and a text that is not plain gets shorter. -/
theorem viprintFrom_short {n : Nat} (h : (viprintFrom mem args n s).2 = n) :
    (viprintFrom mem args n s).1.length ≤ s.length ∧
      ((viprintFrom mem args n s).1.length = s.length → Plain s) := by
  induction s using format_induct with
  | nil => exact ⟨Nat.le_refl _, fun _ => trivial⟩
  | lone => exact ⟨Nat.zero_le _, fun hlen => by cases hlen⟩
  | char c rest hc ih =>
    rw [viprintFrom_char hc] at h ⊢
    obtain ⟨hle, hplain⟩ := ih h
    refine ⟨Nat.succ_le_succ hle, fun hlen => (plain_char hc rest).mpr (hplain (Nat.succ.inj hlen))⟩
  | pair d rest ih =>
    by_cases hd : d = percent
    · subst hd
      rw [viprintFrom_percent] at h ⊢
      obtain ⟨hle, -⟩ := ih h
      simp only [List.length_cons] at *
      exact ⟨by omega, fun hlen => by omega⟩
    by_cases hconv : d ∈ conversions
    · obtain ⟨text, htext⟩ := convert_some mem (args n) hconv
      rw [viprintFrom_convert hd htext] at h
      have hmore := viprintFrom_le mem args (n + 1) rest
      simp only at h
      omega
    · rw [viprintFrom_other hd hconv] at h ⊢
      obtain ⟨hle, hplain⟩ := ih h
      simp only [List.length_cons] at *
      exact ⟨by omega, fun hlen => (plain_pair d rest).mpr ⟨hconv, hd, hplain (by omega)⟩⟩

/-- **A text is printed as it is**, without a word being read, exactly when it is plain. -/
theorem viprint_eq_iff : viprint mem args s = (s, 0) ↔ Plain s := by
  constructor
  · intro h
    have hread : (viprintFrom mem args 0 s).2 = 0 := congrArg Prod.snd h
    have hlen : (viprintFrom mem args 0 s).1.length = s.length := congrArg (fun r => r.1.length) h
    exact (viprintFrom_short hread).2 hlen
  · exact viprintFrom_plain 0

end

/-! ### Numerals -/

/-- The numeral of a number. -/
def numeral (base value : Nat) : Bytes :=
  (Nat.toDigits base value).map (fun c => UInt8.ofNat c.toNat)

/-- The decimal numeral of an integer. -/
def decimal (z : Int) : Bytes := (if z < 0 then [45] else []) ++ numeral 10 z.natAbs

theorem digitByte_eq {digit : Nat} (h : digit < 16) :
    digitByte 97 digit = UInt8.ofNat (Nat.digitChar digit).toNat := by
  interval_cases digit <;> rfl

theorem digitByte_upper {digit : Nat} (h : digit < 16) :
    upperCase (digitByte 97 digit) = digitByte 65 digit := by
  interval_cases digit <;> rfl

/-- **The digits of a number**, which is small enough for the loop. -/
theorem digitsLoop_eq {base : Nat} (hb : 1 < base) (hb16 : base ≤ 16) :
    ∀ (fuel value : Nat), 0 < value →
    value < base ^ fuel → (digitsLoop 97 base fuel value).reverse = numeral base value := by
  intro fuel
  induction fuel with
  | zero =>
    intro value hpos hlt
    rw [Nat.pow_zero] at hlt
    omega
  | succ fuel ih =>
    intro value hpos hlt
    have hdigit : value % base < base := Nat.mod_lt _ (by omega)
    rw [digitsLoop, if_neg (by omega), List.reverse_cons, digitByte_eq (by omega)]
    unfold numeral
    rw [Nat.toDigits_eq_if hb]
    by_cases hsmall : value < base
    · rw [if_pos hsmall, Nat.div_eq_of_lt hsmall, Nat.mod_eq_of_lt hsmall]
      cases fuel <;> rfl
    · have hrest : value / base < base ^ fuel := by
        rw [Nat.pow_succ] at hlt
        exact Nat.div_lt_of_lt_mul (by rwa [Nat.mul_comm] at hlt)
      have hdiv : 0 < value / base := Nat.div_pos (Nat.le_of_not_lt hsmall) (by omega)
      rw [if_neg hsmall, ih _ hdiv hrest, List.map_append]
      rfl

theorem utoa_eq {base : Nat} (hb : 1 < base) (hb16 : base ≤ 16) {value : Nat} (h : value < 2 ^ 32) :
    utoa value base = numeral base value := by
  unfold utoa
  by_cases hzero : value = 0
  · rw [if_pos hzero, hzero]
    unfold numeral
    rw [Nat.toDigits_zero]
    rfl
  · rw [if_neg hzero]
    exact digitsLoop_eq hb hb16 32 value (by omega) (h.trans_le (Nat.pow_le_pow_left hb 32))

/-- **`%d` prints the decimal numeral**, of every number. -/
theorem itoa_eq (value : Word) : itoa value = decimal value.toInt := by
  have hlt := value.isLt
  have hneg := (-value).isLt
  unfold itoa decimal
  rw [utoa_eq (by decide) (by decide) hlt, utoa_eq (by decide) (by decide) hneg]
  by_cases hsign : value.toInt < 0
  · have habs : (-value).toNat = value.toInt.natAbs := by
      rw [BitVec.toNat_neg]
      rw [BitVec.toInt_eq_toNat_cond] at *
      split at hsign
      · omega
      · split <;> omega
    rw [if_pos hsign, if_pos hsign, habs]
    rfl
  · have habs : value.toNat = value.toInt.natAbs := by
      rw [BitVec.toInt_eq_toNat_cond] at *
      split at hsign
      · rw [if_pos (by assumption)]
        rfl
      · omega
    rw [if_neg hsign, if_neg hsign, habs]
    rfl

/-! ### The conversions of `printf` -/

/-- `-2147483648` -/
def intMin : Word := BitVec.intMin 32

theorem digitsLoop_upper : ∀ (fuel value : Nat),
    (digitsLoop 97 16 fuel value).map upperCase = digitsLoop 65 16 fuel value := by
  intro fuel
  induction fuel with
  | zero => exact fun _ => rfl
  | succ fuel ih =>
    intro value
    rw [digitsLoop, digitsLoop]
    by_cases hzero : value = 0
    · rw [if_pos hzero, if_pos hzero]
      rfl
    · rw [if_neg hzero, if_neg hzero, List.map_cons, ih, digitByte_upper (Nat.mod_lt _ (by decide))]

theorem toNat_ne_zero {num : Word} (h : num ≠ 0) : ¬ num.toNat = 0 :=
  fun hzero => h (BitVec.eq_of_toNat_eq (hzero.trans (rfl : (0 : Word).toNat = 0).symm))

theorem printfHex_lower (num : Word) : printfHex 97 num = utoa num.toNat 16 := by
  unfold printfHex utoa
  by_cases hzero : num = 0
  · rw [if_pos hzero, if_pos (by rw [hzero]; rfl)]
  · rw [if_neg hzero, if_neg (toNat_ne_zero hzero)]

theorem printfHex_upper (num : Word) : printfHex 65 num = (utoa num.toNat 16).map upperCase := by
  unfold printfHex utoa
  by_cases hzero : num = 0
  · rw [if_pos hzero, if_pos (by rw [hzero]; rfl)]
    rfl
  · rw [if_neg hzero, if_neg (toNat_ne_zero hzero), List.map_reverse, digitsLoop_upper]

theorem printfDecimal_eq {num : Word} (h : num ≠ intMin) : printfDecimal num = itoa num := by
  have hpos : ∀ w : Word, w ≠ 0 → 0 < w.toInt →
      (if 0 < w.toInt then (digitsLoop 97 10 32 w.toNat).reverse else []) = utoa w.toNat 10 := by
    intro w hw hsign
    unfold utoa
    rw [if_pos hsign, if_neg (toNat_ne_zero hw)]
  unfold printfDecimal itoa
  by_cases hneg : num.toInt < 0
  · have hnz : -num ≠ 0 := fun hz => by
      rw [BitVec.neg_eq_zero_iff.mp hz] at hneg
      exact absurd hneg (by decide)
    have hsign : 0 < (-num).toInt := by
      rw [BitVec.toInt_neg_of_ne_intMin h]
      omega
    simp only [if_pos hneg, if_neg hnz, hpos _ hnz hsign]
    rfl
  · simp only [if_neg hneg]
    by_cases hzero : num = 0
    · rw [if_pos hzero, hzero]
      rfl
    · have hsign : 0 < num.toInt := by
        have hne : num.toInt ≠ 0 := fun hz => hzero (BitVec.eq_of_toInt_eq hz)
        omega
      rw [if_neg hzero, hpos _ hzero hsign]
      rfl

theorem printfDecimal_intMin : printfDecimal intMin = [45] := by decide

theorem itoa_intMin : (itoa intMin).length = 11 := by decide

/-! ### What a format means -/

/-- The conversions that both functions have. -/
def shared : List UInt8 := [100, 115, 99, 120, 88]

/-- What a conversion of both functions stands for. -/
def textOf (mem : Word → Bytes) (d : UInt8) (arg : Word) : Bytes :=
  if d = 100 then decimal arg.toInt
  else if d = 115 then mem arg
  else if d = 99 then [UInt8.ofNat arg.toNat]
  else if d = 120 then numeral 16 arg.toNat
  else (numeral 16 arg.toNat).map upperCase

/-- What a format stands for; a `'%'` at its end stands for nothing. -/
def meaning (mem : Word → Bytes) (args : Nat → Word) : Nat → Bytes → Bytes
  | _, [] => []
  | _, [c] => if c = percent then [] else [c]
  | n, c :: d :: rest =>
    if c = percent then
      if d = percent then percent :: meaning mem args n rest
      else textOf mem d (args n) ++ meaning mem args (n + 1) rest
    else c :: meaning mem args n (d :: rest)

/-- Each conversion meets `P`, which is told its letter and the number of its word; a `'%'` at the
end of the format needs `lone`. -/
def Each (lone : Prop) (P : UInt8 → Nat → Prop) : Nat → Bytes → Prop
  | _, [] => True
  | _, [c] => c = percent → lone
  | n, c :: d :: rest =>
    if c = percent then
      if d = percent then Each lone P n rest else P d n ∧ Each lone P (n + 1) rest
    else Each lone P n (d :: rest)

/-- The conversions are those of both functions, and the words for `%s` are addresses of texts. -/
def Fitting (args : Nat → Word) : Nat → Bytes → Prop :=
  Each True (fun d n => d ∈ shared ∧ (d = 115 → args n ≠ 0))

/-- **The condition.**  There is no `'%'` at the end, no least number for `%d`, and only plain texts
for `%s`. -/
def Agrees (mem : Word → Bytes) (args : Nat → Word) : Nat → Bytes → Prop :=
  Each False (fun d n => (d = 100 → args n ≠ intMin) ∧ (d = 115 → Plain (mem (args n))))

section

variable {mem : Word → Bytes} {junk : Nat → Nat → Word} {args : Nat → Word} {n : Nat} {c d : UInt8}
  {lone : Prop} {P : UInt8 → Nat → Prop} {rest : Bytes}

theorem each_char (hc : c ≠ percent) : Each lone P n (c :: rest) ↔ Each lone P n rest := by
  cases rest with
  | nil => exact ⟨fun _ => trivial, fun _ h => absurd h hc⟩
  | cons d rest => rw [Each, if_neg hc]

theorem each_percent : Each lone P n (percent :: percent :: rest) ↔ Each lone P n rest := by
  rw [Each, if_pos rfl, if_pos rfl]

theorem each_pair (hd : d ≠ percent) :
    Each lone P n (percent :: d :: rest) ↔ P d n ∧ Each lone P (n + 1) rest := by
  rw [Each, if_pos rfl, if_neg hd]

theorem meaning_char (hc : c ≠ percent) :
    meaning mem args n (c :: rest) = c :: meaning mem args n rest := by
  cases rest with
  | nil => exact if_neg hc
  | cons d rest => rw [meaning, if_neg hc]

theorem meaning_percent :
    meaning mem args n (percent :: percent :: rest) = percent :: meaning mem args n rest := by
  rw [meaning, if_pos rfl, if_pos rfl]

theorem meaning_pair (hd : d ≠ percent) :
    meaning mem args n (percent :: d :: rest) = textOf mem d (args n) ++ meaning mem args (n + 1)
      rest := by
  rw [meaning, if_pos rfl, if_neg hd]

theorem printfFrom_char (hc : c ≠ percent) : printfFrom mem junk args n (c :: rest) =
    (printfFrom mem junk args n rest).map (c :: ·) := by
  cases rest with
  | nil => exact if_neg hc
  | cons d rest => rw [printfFrom, if_neg hc]

theorem printfFrom_percent : printfFrom mem junk args n (percent :: percent :: rest) =
    (printfFrom mem junk args n rest).map (percent :: ·) := by
  rw [printfFrom, if_pos rfl, if_pos rfl]

theorem printfFrom_pair (hd : d ≠ percent) {text : Bytes}
    (h : printfConvert mem (junk n) d (args n) = some text) :
    printfFrom mem junk args n (percent :: d :: rest) =
      (printfFrom mem junk args (n + 1) rest).map (text ++ ·) := by
  rw [printfFrom, if_pos rfl, if_neg hd, h]

theorem convert_eq {arg : Word} (hd : d ∈ shared) (harg : d = 115 → arg ≠ 0) :
    convert mem d arg = some (textOf mem d arg) := by
  have hlt := arg.isLt
  have hhex : utoa arg.toNat 16 = numeral 16 arg.toNat := utoa_eq (by decide) (by decide) hlt
  simp only [shared, List.mem_cons, List.not_mem_nil, or_false] at hd
  obtain rfl | rfl | rfl | rfl | rfl := hd
  · exact congrArg some (itoa_eq arg)
  · show some (if arg = 0 then nullText else mem arg) = some (mem arg)
    rw [if_neg (harg rfl)]
  · rfl
  · exact congrArg some hhex
  · exact congrArg (fun t : Bytes => some (t.map upperCase)) hhex

/-- `printf` prints what `viprint` prints, or a number or a text in its own way. -/
theorem printfConvert_eq (mem : Word → Bytes) (stack : Nat → Word) (arg : Word) (hd : d ∈ shared) :
    printfConvert mem stack d arg = some (if d = 100 then printfDecimal arg
      else if d = 115 then (viprint mem stack (mem arg)).1 else textOf mem d arg) := by
  have hlt := arg.isLt
  have hhex : utoa arg.toNat 16 = numeral 16 arg.toNat := utoa_eq (by decide) (by decide) hlt
  simp only [shared, List.mem_cons, List.not_mem_nil, or_false] at hd
  obtain rfl | rfl | rfl | rfl | rfl := hd
  · rfl
  · rfl
  · rfl
  · show some (printfHex 97 arg) = some (numeral 16 arg.toNat)
    rw [printfHex_lower, hhex]
  · show some (printfHex 65 arg) = some ((numeral 16 arg.toNat).map upperCase)
    rw [printfHex_upper, hhex]

/-- **`viprint` prints what the format stands for.** -/
theorem viprintFrom_meaning {n : Nat} {format : Bytes} (h : Fitting args n format) :
    (viprintFrom mem args n format).1 = meaning mem args n format := by
  induction format using format_induct generalizing n with
  | nil => rfl
  | lone => rfl
  | char c rest hc ih =>
    rw [viprintFrom_char hc, meaning_char hc, ih ((each_char hc).mp h)]
  | pair d rest ih =>
    by_cases hd : d = percent
    · subst hd
      rw [viprintFrom_percent, meaning_percent, ih (each_percent.mp h)]
    · obtain ⟨⟨hshared, harg⟩, hrest⟩ := (each_pair hd).mp h
      rw [viprintFrom_convert hd (convert_eq hshared harg), meaning_pair hd, ih hrest]

theorem printfFrom_meaning (junk : Nat → Nat → Word) {n : Nat} {format : Bytes}
    (h : Fitting args n format) (hagrees : Agrees mem args n format) :
    printfFrom mem junk args n format = some (meaning mem args n format) := by
  induction format using format_induct generalizing n with
  | nil => rfl
  | lone => exact absurd rfl hagrees
  | char c rest hc ih =>
    rw [printfFrom_char hc, meaning_char hc, ih ((each_char hc).mp h) ((each_char hc).mp hagrees)]
    rfl
  | pair d rest ih =>
    by_cases hd : d = percent
    · subst hd
      rw [printfFrom_percent, meaning_percent, ih (each_percent.mp h) (each_percent.mp hagrees)]
      rfl
    · obtain ⟨⟨hshared, -⟩, hrest⟩ := (each_pair hd).mp h
      obtain ⟨⟨hnum, htext⟩, hagrees⟩ := (each_pair hd).mp hagrees
      have hpiece : printfConvert mem (junk n) d (args n) = some (textOf mem d (args n)) := by
        rw [printfConvert_eq _ (junk n) _ hshared]
        by_cases h100 : d = 100
        · subst h100
          rw [if_pos rfl, printfDecimal_eq (hnum rfl), itoa_eq]
          rfl
        by_cases h115 : d = 115
        · subst h115
          rw [if_neg h100, if_pos rfl, viprint_eq_iff.mpr (htext rfl)]
          rfl
        · rw [if_neg h100, if_neg h115]
      rw [printfFrom_pair hd hpiece, meaning_pair hd, ih hrest hagrees]
      rfl

end

end CobraOS.Screen
