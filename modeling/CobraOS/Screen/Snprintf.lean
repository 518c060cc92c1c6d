import CobraOS.Base.Buffer
import CobraOS.Base.Word
import CobraOS.Screen.Format

/-!
# Printing into a buffer: `snprintf` of `lib/stdio.c`

The format is read from memory, its zero byte included, and there is no result when it is read on
behind that byte.  The words that `va_arg` reads and the texts in memory are as for `printf`;
neither the format nor a text for `%s` is in the buffer.

The size of the buffer may be `none`: then `written < size` always holds, and the call prints the
whole text (`snprintf_whole`).  With a size it prints as much of the same text as there is room for
(`snprintf_truncates`), since every piece of it is put by a loop that asks for room before each
byte.
-/

namespace CobraOS.Screen

open Base

/-- The case `'d'`: the negation of the least number is that number again, and has no digits. -/
def snprintfDecimal (size : Room) (num : Word) (o : Buffer UInt8) : Buffer UInt8 :=
  let o := if num.toInt < 0 then o.put size 45 else o
  let num := if num.toInt < 0 then -num else num
  if num = 0 then o.put size 48
  else o.putAll size (if 0 < num.toInt then (digitsLoop 97 10 32 num.toNat).reverse else [])

/-- The case `'x'`. -/
def snprintfHex (size : Room) (num : Word) (o : Buffer UInt8) : Buffer UInt8 :=
  if num = 0 then o.put size 48 else o.putAll size (digitsLoop 97 16 32 num.toNat).reverse

/-- `switch (*p)`, when `n` words have been read. -/
def snprintfSwitch (mem : Word → Bytes) (args : Nat → Word) (size : Room) (d : UInt8) (n : Nat)
    (o : Buffer UInt8) : Nat × Buffer UInt8 :=
  if d = 100 then (n + 1, snprintfDecimal size (args n) o)
  else if d = 115 then (n + 1, o.putAll size (mem (args n)))
  else if d = 99 then (n + 1, o.put size (UInt8.ofNat (args n).toNat))
  else if d = 120 then (n + 1, snprintfHex size (args n) o)
  else if d = percent then (n, o.put size percent)
  else (n, (o.put size percent).put size d)

/-- `while (*p && written < size)`, with the bytes from `p` on.  Only behind a `'%'` the byte behind
`*p` is read in the same round. -/
def snprintfLoop (mem : Word → Bytes) (args : Nat → Word) (size : Room) :
    Nat → Bytes → Buffer UInt8 → Option (Buffer UInt8)
  | _, [], _ => none
  | _, [c], o => if c ≠ 0 ∧ size.Has o.written then none else some o
  | n, c :: d :: rest, o =>
    if c ≠ 0 ∧ size.Has o.written then
      if c = percent ∧ d ≠ 0 then
        let r := snprintfSwitch mem args size d n o
        snprintfLoop mem args size r.1 rest r.2
      else snprintfLoop mem args size n (d :: rest) (o.put size c)
    else some o

/-- `if (size > 0) buffer[written < size ? written : size - 1] = '\0';` -/
def terminate : Room → Buffer UInt8 → Buffer UInt8
  | none, o => o.store o.written 0
  | some size, o =>
    if 0 < size then o.store (if o.written < size then o.written else size - 1) 0 else o

/-- `value` is the `int` that is returned. -/
structure Printed where
  buffer : Nat → UInt8
  touched : List Nat
  written : Nat
  value : Int

def snprintf (mem : Word → Bytes) (args : Nat → Word) (buffer : Nat → UInt8) (size : Room)
    (format : Bytes) :
    Option Printed :=
  (snprintfLoop mem args size 0 (format ++ [0]) ⟨buffer, 0, []⟩).map fun o =>
    let o' := terminate size o
    ⟨o'.cells, o'.touched, o.written, wint o.written⟩

/-! ### What a format stands for -/

/-- The words that the conversion reads and what it prints. -/
def snprintfPiece (mem : Word → Bytes) (args : Nat → Word) (d : UInt8) (n : Nat) : Nat × Bytes :=
  if d = 100 then (n + 1, printfDecimal (args n))
  else if d = 115 then (n + 1, mem (args n))
  else if d = 99 then (n + 1, [UInt8.ofNat (args n).toNat])
  else if d = 120 then (n + 1, printfHex 97 (args n))
  else if d = percent then (n, [percent])
  else (n, [percent, d])

/-- The whole text of a format with its zero byte. -/
def snprintfText (mem : Word → Bytes) (args : Nat → Word) : Nat → Bytes → Bytes
  | n, c :: d :: rest =>
    if c = 0 then []
    else if c = percent ∧ d ≠ 0 then
      let r := snprintfPiece mem args d n
      r.2 ++ snprintfText mem args r.1 rest
    else c :: snprintfText mem args n (d :: rest)
  | _, _ => []

section

variable {mem : Word → Bytes} {args : Nat → Word} {size : Room} {start : Nat → UInt8}
    {o : Buffer UInt8} {s : Bytes}

theorem holds_decimal (h : o.Holds size start s) (num : Word) :
    (snprintfDecimal size num o).Holds size start (s ++ printfDecimal num) := by
  unfold snprintfDecimal printfDecimal
  by_cases hneg : num.toInt < 0
  · have hsign := h.put 45
    simp only [if_pos hneg]
    by_cases hzero : -num = 0
    · rw [if_pos hzero, if_pos hzero, ← List.append_assoc]
      exact hsign.put 48
    · rw [if_neg hzero, if_neg hzero, ← List.append_assoc]
      exact hsign.putAll _
  · simp only [if_neg hneg]
    by_cases hzero : num = 0
    · rw [if_pos hzero, if_pos hzero]
      exact h.put 48
    · rw [if_neg hzero, if_neg hzero]
      exact h.putAll _

theorem holds_hex (h : o.Holds size start s) (num : Word) :
    (snprintfHex size num o).Holds size start (s ++ printfHex 97 num) := by
  unfold snprintfHex printfHex
  by_cases hzero : num = 0
  · rw [if_pos hzero, if_pos hzero]
    exact h.put 48
  · rw [if_neg hzero, if_neg hzero]
    exact h.putAll _

/-- **A conversion puts its piece of the text.** -/
theorem holds_switch (mem : Word → Bytes) (args : Nat → Word) (h : o.Holds size start s) (d : UInt8)
    (n : Nat) :
    (snprintfSwitch mem args size d n o).1 = (snprintfPiece mem args d n).1 ∧
      (snprintfSwitch mem args size d n o).2.Holds size start
        (s ++ (snprintfPiece mem args d n).2) := by
  unfold snprintfSwitch snprintfPiece
  by_cases h100 : d = 100
  · rw [if_pos h100, if_pos h100]
    exact ⟨rfl, holds_decimal h _⟩
  rw [if_neg h100, if_neg h100]
  by_cases h115 : d = 115
  · rw [if_pos h115, if_pos h115]
    exact ⟨rfl, h.putAll _⟩
  rw [if_neg h115, if_neg h115]
  by_cases h99 : d = 99
  · rw [if_pos h99, if_pos h99]
    exact ⟨rfl, h.put _⟩
  rw [if_neg h99, if_neg h99]
  by_cases h120 : d = 120
  · rw [if_pos h120, if_pos h120]
    exact ⟨rfl, holds_hex h _⟩
  rw [if_neg h120, if_neg h120]
  by_cases hpercent : d = percent
  · rw [if_pos hpercent, if_pos hpercent]
    exact ⟨rfl, h.put _⟩
  · rw [if_neg hpercent, if_neg hpercent]
    refine ⟨rfl, ?_⟩
    have hboth := (h.put percent).put d
    rwa [List.append_assoc] at hboth

/-- The loop ends, and puts the whole text. -/
def Prints (mem : Word → Bytes) (args : Nat → Word) (size : Room) (start : Nat → UInt8)
    (format : Bytes) :
    Prop :=
  ∀ (n : Nat) (o : Buffer UInt8) (s : Bytes), o.Holds size start s →
    ∃ o', snprintfLoop mem args size n format o = some o' ∧
      o'.Holds size start (s ++ snprintfText mem args n format)

theorem prints_cons (c d : UInt8) (rest : Bytes) (hpair : d ≠ 0 → Prints mem args size start rest)
    (hchar : Prints mem args size start (d :: rest)) :
    Prints mem args size start (c :: d :: rest) := by
  intro n o s h
  rw [snprintfLoop, snprintfText]
  by_cases hzero : c = 0
  · rw [if_neg (fun hand => hand.1 hzero), if_pos hzero, List.append_nil]
    exact ⟨o, rfl, h⟩
  rw [if_neg hzero]
  by_cases hroom : size.Has o.written
  · rw [if_pos ⟨hzero, hroom⟩]
    by_cases hconv : c = percent ∧ d ≠ 0
    · obtain ⟨hread, hpiece⟩ := holds_switch mem args h d n
      rw [if_pos hconv, if_pos hconv]
      dsimp only
      rw [← hread]
      obtain ⟨o', ho', hall⟩ := hpair hconv.2 (snprintfSwitch mem args size d n o).1 _ _ hpiece
      rw [List.append_assoc] at hall
      exact ⟨o', ho', hall⟩
    · rw [if_neg hconv, if_neg hconv, List.append_cons]
      exact hchar n (o.put size c) (s ++ [c]) (h.put c)
  · rw [if_neg (fun hand => hroom hand.2)]
    exact ⟨o, rfl, h.full hroom _⟩

theorem prints_zero : Prints mem args size start [0] := by
  intro n o s h
  rw [snprintfLoop, if_neg (fun hand => hand.1 rfl), snprintfText, List.append_nil]
  exacts [⟨o, rfl, h⟩, by simp]

/-- **A format that ends with a zero byte is printed**, and nothing behind it is read. -/
theorem prints_format : ∀ format : Bytes, Prints mem args size start (format ++ [0])
  | [] => prints_zero
  | [c] => prints_cons c 0 [] (absurd rfl) prints_zero
  | c :: d :: rest =>
    prints_cons c d (rest ++ [0]) (fun _ => prints_format rest) (prints_format (d :: rest))

theorem snprintf_eq (mem : Word → Bytes) (args : Nat → Word) (buffer : Nat → UInt8) (size : Room)
    (format : Bytes) :
    ∃ o : Buffer UInt8, o.Holds size buffer (snprintfText mem args 0 (format ++ [0])) ∧
      snprintf mem args buffer size format =
        some ⟨(terminate size o).cells, (terminate size o).touched, o.written, wint o.written⟩ := by
  obtain ⟨o, ho, hall⟩ := prints_format format 0 ⟨buffer, 0, []⟩ [] (Buffer.holds_nil size buffer)
  refine ⟨o, hall, ?_⟩
  unfold snprintf
  rw [ho]
  rfl

/-- **Without a limit the whole text is printed.** -/
theorem snprintf_whole (mem : Word → Bytes) (args : Nat → Word) (buffer : Nat → UInt8)
    (format : Bytes) :
    ∃ u, snprintf mem args buffer none format = some u ∧
      u.written = (snprintfText mem args 0 (format ++ [0])).length ∧
      ∀ i < u.written, (snprintfText mem args 0 (format ++ [0]))[i]? = some (u.buffer i) := by
  obtain ⟨o, h, heq⟩ := snprintf_eq mem args buffer none format
  refine ⟨_, heq, h.written, fun i hi => ?_⟩
  show _ = some (Function.update o.cells o.written 0 i)
  rw [Function.update_of_ne (Nat.ne_of_lt hi), h.cells i hi]

theorem terminate_some {n : Nat} (hle : o.written ≤ n) (hn : 0 < n) :
    terminate (some n) o = o.store (min o.written (n - 1)) 0 := by
  rw [terminate, if_pos hn]
  congr 1
  split <;> omega

theorem terminate_zero : terminate (some 0) o = o := by
  rw [terminate, if_neg (Nat.lt_irrefl 0)]

theorem terminate_inside {n : Nat} {text : Bytes} (h : o.Holds (some n) start text) :
    (∀ i ∈ (terminate (some n) o).touched, i < n) ∧
      ∀ i, n ≤ i → (terminate (some n) o).cells i = start i := by
  have hle : o.written ≤ n := h.written.trans_le (Nat.min_le_right _ _)
  have htouched : ∀ i ∈ o.touched, i < n := fun i hi => (h.touched i hi).trans_le hle
  obtain rfl | hn := Nat.eq_zero_or_pos n
  · rw [terminate_zero]
    exact ⟨htouched, fun i hi => h.rest i (hle.trans hi)⟩
  · rw [terminate_some hle hn]
    constructor
    · intro i hi
      obtain hi | hi := List.mem_append.mp hi
      · exact htouched i hi
      · rw [List.mem_singleton] at hi
        omega
    · intro i hi
      show Function.update o.cells (min o.written (n - 1)) 0 i = start i
      rw [Function.update_of_ne (by omega), h.rest i (hle.trans hi)]

theorem wint_of_lt {k : Nat} (h : k < 2147483648) : wint k = k := by
  unfold wint
  rw [Nat.mod_eq_of_lt (by omega), if_pos h]

/-- **A call with a size cuts the text** that the same call prints without a limit, and ends it with
a zero byte.  The count is returned as an `int`. -/
theorem snprintf_truncates (mem : Word → Bytes) (args : Nat → Word) (buffer : Nat → UInt8) (n : Nat)
    (format : Bytes) : ∃ r u, snprintf mem args buffer (some n) format = some r ∧
      snprintf mem args buffer none format = some u ∧
      (∀ i ∈ r.touched, i < n) ∧ (∀ i, n ≤ i → r.buffer i = buffer i) ∧
      (0 < n → r.buffer (min u.written (n - 1)) = 0 ∧
        ∀ i < min u.written (n - 1), r.buffer i = u.buffer i) ∧
      r.value = wint (min u.written n) ∧
        (min u.written n < 2 ^ 31 → r.value = min u.written n) := by
  obtain ⟨u, hu, hlen, hwhole⟩ := snprintf_whole mem args buffer format
  obtain ⟨o, h, heq⟩ := snprintf_eq mem args buffer (some n) format
  have hwritten : o.written = min u.written n := h.written.trans (by rw [hlen]; rfl)
  obtain ⟨hinside, houtside⟩ := terminate_inside h
  refine ⟨_, u, heq, hu, hinside, houtside, fun hn => ?_, congrArg wint hwritten, fun hlt => ?_⟩
  · have hend : min u.written (n - 1) = min o.written (n - 1) := by omega
    rw [hend]
    dsimp only
    rw [terminate_some (by omega) hn]
    refine ⟨Function.update_self .., fun i hi => ?_⟩
    have hsame : some (o.cells i) = some (u.buffer i) :=
      (h.cells i (by omega)).symm.trans (hwhole i (by omega))
    exact (Function.update_of_ne (by omega) _ _).trans (Option.some.inj hsame)
  · rw [← hwritten] at hlt ⊢
    exact wint_of_lt hlt

/-- `"%s%s"` -/
theorem snprintfText_twice (mem : Word → Bytes) (args : Nat → Word) :
    snprintfText mem args 0 ([37, 115, 37, 115] ++ [0]) = mem (args 0) ++ (mem (args 1) ++ []) :=
    rfl

/-- A memory with a letter at every address below `0x60000000`, and a zero byte there. -/
def letters (p : Word) : Bytes := List.replicate (0x60000000 - p.toNat) 97

/-- **A buffer of `2 ^ 31` bytes** that is filled with a text of `2 ^ 30` bytes twice: the count is
no `int`. -/
theorem snprintf_negative : ∃ r u,
    snprintf letters (fun _ => 0x20000000) (fun _ => 0) (some (2 ^ 31))
      [37, 115, 37, 115] = some r ∧
    snprintf letters (fun _ => 0x20000000) (fun _ => 0) none [37, 115, 37, 115] = some u ∧
    min u.written (2 ^ 31) = 2 ^ 31 ∧ r.value = -2 ^ 31 ∧
      r.value ≠ (min u.written (2 ^ 31) : Nat) := by
  obtain ⟨u, hu, hlen, -⟩ :=
    snprintf_whole letters (fun _ => 0x20000000) (fun _ => 0) [37, 115, 37, 115]
  obtain ⟨o, h, heq⟩ :=
    snprintf_eq letters (fun _ => 0x20000000) (fun _ => 0) (some (2 ^ 31)) [37, 115, 37, 115]
  have hletters : (letters 0x20000000).length = 2 ^ 30 := List.length_replicate
  have htext : (snprintfText letters (fun _ => 0x20000000) 0 ([37, 115, 37, 115] ++ [0])).length =
      2 ^ 31 := by
    rw [snprintfText_twice, List.append_nil, List.length_append, hletters]
    norm_num
  have hwritten : o.written = 2 ^ 31 := by
    rw [h.written, htext]
    exact Nat.min_self _
  have hmin : min u.written (2 ^ 31) = 2 ^ 31 := by rw [hlen, htext, Nat.min_self]
  have hvalue : wint o.written = -2 ^ 31 := by
    rw [hwritten]
    decide
  refine ⟨_, u, heq, hu, hmin, hvalue, ?_⟩
  rw [hmin]
  dsimp only
  rw [hvalue]
  decide

end

end CobraOS.Screen
