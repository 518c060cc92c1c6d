import CobraOS.Screen.Format

/-!
# When `printf` prints what `viprint` prints

`Agrees` is necessary as well.  A text for `%s` that reads words prints something else when the
words on the stack are others (`reads_differ`), and what `viprint` prints does not depend on them;
without such texts `printf` prints at most as much as `viprint`, and less where `Agrees` fails
(`printfFrom_short`).
-/

namespace CobraOS.Screen

variable {mem : Word → Bytes} {junk junk' : Nat → Nat → Word} {args args' : Nat → Word} {n : Nat}
    {c d : UInt8} {s rest : Bytes}

/-! ### Texts that read words -/

/-- No `'%'` is followed by a conversion. -/
def Wordless : Bytes → Prop
  | [] => True
  | [_] => True
  | c :: d :: rest => if c = percent then d ∉ conversions ∧ Wordless rest else Wordless (d :: rest)

theorem wordless_char (hc : c ≠ percent) : Wordless (c :: rest) ↔ Wordless rest := by
  cases rest with
  | nil => exact Iff.rfl
  | cons d rest => rw [Wordless, if_neg hc]

theorem wordless_pair : Wordless (percent :: d :: rest) ↔ d ∉ conversions ∧ Wordless rest := by
  rw [Wordless, if_pos rfl]

theorem viprintFrom_wordless (n : Nat) (h : Wordless s) : (viprintFrom mem args n s).2 = n := by
  induction s using format_induct with
  | nil => rfl
  | lone => rfl
  | char c rest hc ih =>
    rw [viprintFrom_char hc]
    exact ih ((wordless_char hc).mp h)
  | pair d rest ih =>
    obtain ⟨hd, hrest⟩ := wordless_pair.mp h
    by_cases hp : d = percent
    · subst hp
      rw [viprintFrom_percent]
      exact ih hrest
    · rw [viprintFrom_other hp hd]
      exact ih hrest

theorem viprintFrom_congr (s : Bytes) (n : Nat) (h : ∀ i, n ≤ i → args i = args' i) :
    viprintFrom mem args n s = viprintFrom mem args' n s := by
  induction s using format_induct generalizing n with
  | nil => rfl
  | lone => rfl
  | char c rest hc ih => rw [viprintFrom_char hc, viprintFrom_char hc, ih n h]
  | pair d rest ih =>
    by_cases hd : d = percent
    · subst hd
      rw [viprintFrom_percent, viprintFrom_percent, ih n h]
    by_cases hconv : d ∈ conversions
    · obtain ⟨text, htext⟩ := convert_some mem (args n) hconv
      have hsame : convert mem d (args' n) = some text := h n (Nat.le_refl n) ▸ htext
      rw [viprintFrom_convert hd htext, viprintFrom_convert hd hsame,
        ih (n + 1) (fun i hi => h i (by omega))]
    · rw [viprintFrom_other hd hconv, viprintFrom_other hd hconv, ih n h]

theorem viprint_first (mem : Word → Bytes) (h : ¬ Wordless s) :
    ∃ (pre : Bytes) (d : UInt8) (rest : Bytes), d ∈ conversions ∧
    (d = 115 → s ≠ nullText) ∧ ∀ args, ∃ text, convert mem d (args 0) = some text ∧
      (viprint mem args s).1 = pre ++ (text ++ (viprintFrom mem args 1 rest).1) := by
  have hnull : s ≠ nullText := by
    intro heq
    rw [heq] at h
    exact h (by simp [nullText, Wordless, percent])
  suffices hfirst : ∃ (pre : Bytes) (d : UInt8) (rest : Bytes), d ∈ conversions ∧
      ∀ args, ∃ text, convert mem d (args 0) = some text ∧
        (viprint mem args s).1 = pre ++ (text ++ (viprintFrom mem args 1 rest).1) by
    obtain ⟨pre, d, rest, hd, hall⟩ := hfirst
    exact ⟨pre, d, rest, hd, fun _ => hnull, hall⟩
  clear hnull
  unfold viprint
  induction s using format_induct with
  | nil => exact absurd trivial h
  | lone => exact absurd trivial h
  | char c rest hc ih =>
    obtain ⟨pre, d, rest', hd, hall⟩ := ih (fun hw => h ((wordless_char hc).mpr hw))
    refine ⟨c :: pre, d, rest', hd, fun args => ?_⟩
    obtain ⟨text, htext, heq⟩ := hall args
    exact ⟨text, htext, by rw [viprintFrom_char hc, heq, List.cons_append]⟩
  | pair d rest ih =>
    by_cases hp : d = percent
    · subst hp
      obtain ⟨pre, d, rest', hd, hall⟩ :=
        ih (fun hw => h (wordless_pair.mpr ⟨percent_not_conversion, hw⟩))
      refine ⟨percent :: pre, d, rest', hd, fun args => ?_⟩
      obtain ⟨text, htext, heq⟩ := hall args
      exact ⟨text, htext, by rw [viprintFrom_percent, heq, List.cons_append]⟩
    by_cases hconv : d ∈ conversions
    · refine ⟨[], d, rest, hconv, fun args => ?_⟩
      obtain ⟨text, htext⟩ := convert_some mem (args 0) hconv
      exact ⟨text, htext, by rw [viprintFrom_convert hp htext, List.nil_append]⟩
    · obtain ⟨pre, d', rest', hd, hall⟩ := ih (fun hw => h (wordless_pair.mpr ⟨hconv, hw⟩))
      refine ⟨percent :: d :: pre, d', rest', hd, fun args => ?_⟩
      obtain ⟨text, htext, heq⟩ := hall args
      exact ⟨text, htext, by rw [viprintFrom_other hp hconv, heq]; rfl⟩

theorem convert_differ {p : Word} (hd : d ∈ conversions) (hp : d = 115 → p ≠ 0 ∧ mem p ≠ nullText) :
    ∃ a b, convert mem d a ≠ convert mem d b := by
  simp only [conversions, List.mem_cons, List.not_mem_nil, or_false] at hd
  obtain rfl | rfl | rfl | rfl | rfl | rfl | rfl | rfl | rfl := hd
  · exact ⟨0, 1, fun heq => absurd (Option.some.inj heq) (by decide)⟩
  · obtain ⟨hne, htext⟩ := hp rfl
    refine ⟨0, p, fun heq => htext ?_⟩
    have hsome : some nullText = some (if p = 0 then nullText else mem p) := heq
    rw [if_neg hne] at hsome
    exact (Option.some.inj hsome).symm
  all_goals exact ⟨0, 1, fun heq => absurd (Option.some.inj heq) (by decide)⟩

/-- **A text that reads words** prints different things for different words on the stack. -/
theorem reads_differ (h : ¬ Wordless s) (hs : ∃ p ≠ 0, mem p = s) : ∃ stack stack' : Nat → Word,
    (viprint mem stack s).1 ≠ (viprint mem stack' s).1 := by
  obtain ⟨pre, d, rest, hd, hnull, hall⟩ := viprint_first mem h
  obtain ⟨p, hp, hmem⟩ := hs
  obtain ⟨a, b, hab⟩ := convert_differ hd fun h115 => ⟨hp, hmem.symm ▸ hnull h115⟩
  refine ⟨Function.update (fun _ => 0) 0 a, Function.update (fun _ => 0) 0 b, fun heq => hab ?_⟩
  obtain ⟨t₁, ht₁, h₁⟩ := hall (Function.update (fun _ => 0) 0 a)
  obtain ⟨t₂, ht₂, h₂⟩ := hall (Function.update (fun _ => 0) 0 b)
  have hrest : viprintFrom mem (Function.update (fun _ => 0) 0 a) 1 rest =
      viprintFrom mem (Function.update (fun _ => 0) 0 b) 1 rest :=
    viprintFrom_congr rest 1 fun i hi => by
      rw [Function.update_of_ne (by omega), Function.update_of_ne (by omega)]
  rw [h₁, h₂, hrest] at heq
  rw [Function.update_self] at ht₁ ht₂
  rw [ht₁, ht₂, List.append_cancel_right (List.append_cancel_left heq)]

/-! ### The loop of `printf` -/

theorem printfFrom_congr (s : Bytes) (n : Nat) (h : ∀ i, n ≤ i → junk i = junk' i) :
    printfFrom mem junk args n s = printfFrom mem junk' args n s := by
  induction s using format_induct generalizing n with
  | nil => rfl
  | lone => rfl
  | char c rest hc ih => rw [printfFrom_char hc, printfFrom_char hc, ih n h]
  | pair d rest ih =>
    by_cases hd : d = percent
    · subst hd
      rw [printfFrom_percent, printfFrom_percent, ih n h]
    · rw [printfFrom, printfFrom, if_pos rfl, if_pos rfl, if_neg hd, if_neg hd, h n (Nat.le_refl n),
        ih n h, ih (n + 1) (fun i hi => h i (by omega))]

theorem map_append_inj {x : Bytes} {o o' : Option Bytes} {out : Bytes}
    (h : o.map (x ++ ·) = some out) (h' : o'.map (x ++ ·) = some out) : o = o' := by
  obtain ⟨r, rfl, rfl⟩ := Option.map_eq_some_iff.mp h
  obtain ⟨r', rfl, hr⟩ := Option.map_eq_some_iff.mp h'
  rw [List.append_cancel_left hr]

/-- What is printed after a common byte does not depend on the stacks either. -/
theorem rest_fixed {f : (Nat → Nat → Word) → Option Bytes} {c : UInt8} {out : Bytes}
    (h : ∀ junk, (f junk).map (c :: ·) = some out) : ∃ out', ∀ junk, f junk = some out' := by
  obtain ⟨out', -, rfl⟩ := Option.map_eq_some_iff.mp (h fun _ _ => 0)
  refine ⟨out', fun junk => ?_⟩
  obtain ⟨r, hr, heq⟩ := Option.map_eq_some_iff.mp (h junk)
  rw [hr, (List.cons.inj heq).2]

/-- The stack of a conversion does not matter for what comes after it. -/
theorem printfFrom_update (junk : Nat → Nat → Word) (n : Nat) (stack : Nat → Word) (rest : Bytes) :
    printfFrom mem (Function.update junk n stack) args (n + 1) rest =
      printfFrom mem junk args (n + 1) rest :=
  printfFrom_congr rest (n + 1) fun i hi => by rw [Function.update_of_ne (by omega)]

section

variable {d : UInt8} {rest out : Bytes}

theorem conversion_fixed (hd : d ≠ percent) (hshared : d ∈ shared)
    (h : ∀ junk, printfFrom mem junk args n (percent :: d :: rest) = some out)
    (junk : Nat → Nat → Word) :
    ∃ text, printfConvert mem (junk n) d (args n) = some text ∧
      (printfFrom mem junk args (n + 1) rest).map (text ++ ·) = some out := by
  have hconv := printfConvert_eq mem (junk n) (args n) hshared
  exact ⟨_, hconv, (printfFrom_pair hd hconv).symm.trans (h junk)⟩

theorem wordless_of_fixed (hd : d ≠ percent) (hshared : d ∈ shared) (h115 : d = 115)
    (harg : args n ≠ 0) (h : ∀ junk, printfFrom mem junk args n (percent :: d :: rest) = some out) :
    Wordless (mem (args n)) := by
  by_contra hreads
  obtain ⟨stack, stack', hdiffer⟩ := reads_differ hreads ⟨args n, harg, rfl⟩
  obtain ⟨t₁, ht₁, h₁⟩ := conversion_fixed hd hshared h (Function.update (fun _ _ => 0) n stack)
  obtain ⟨t₂, ht₂, h₂⟩ := conversion_fixed hd hshared h (Function.update (fun _ _ => 0) n stack')
  rw [Function.update_self, printfConvert_eq _ _ _ hshared, if_neg (by rw [h115]; decide),
    if_pos h115] at ht₁ ht₂
  -- The rest is printed with the same stacks in both runs, so the two texts would be the same.
  rw [printfFrom_update] at h₁ h₂
  obtain ⟨r, hr, hr₁⟩ := Option.map_eq_some_iff.mp h₁
  obtain ⟨r', hr', hr₂⟩ := Option.map_eq_some_iff.mp h₂
  rw [hr] at hr'
  cases hr'
  have htexts : t₁ = t₂ := List.append_cancel_right (hr₁.trans hr₂.symm)
  exact hdiffer (Option.some.inj (ht₁.trans ((congrArg some htexts).trans ht₂.symm)))

/-- What comes after a conversion is printed the same with any stacks, too. -/
theorem rest_of_conversion (hd : d ≠ percent) (hshared : d ∈ shared)
    (h : ∀ junk, printfFrom mem junk args n (percent :: d :: rest) = some out) :
    ∃ out', ∀ junk, printfFrom mem junk args (n + 1) rest = some out' := by
  obtain ⟨text, htext, h0⟩ := conversion_fixed hd hshared h (fun _ _ => 0)
  obtain ⟨out', hout', -⟩ := Option.map_eq_some_iff.mp h0
  refine ⟨out', fun junk => ?_⟩
  obtain ⟨text', htext', hj⟩ := conversion_fixed hd hshared h (Function.update junk n (fun _ => 0))
  rw [Function.update_self, htext] at htext'
  cases htext'
  rw [printfFrom_update] at hj
  rw [map_append_inj hj h0, hout']

end

/-- **What `printf` prints does not depend on the stacks** only if no text for `%s` reads words. -/
theorem wordless_of_printf {format out : Bytes} (hfit : Fitting args n format)
    (h : ∀ junk, printfFrom mem junk args n format = some out) :
    Each False (fun d n => d = 115 → Wordless (mem (args n))) n format := by
  induction format using format_induct generalizing n out with
  | nil => trivial
  | lone => exact absurd (h (fun _ _ => 0)) (by simp [printfFrom])
  | char c rest hc ih =>
    rw [each_char hc]
    obtain ⟨out', hrest⟩ := rest_fixed fun junk => (printfFrom_char hc).symm.trans (h junk)
    exact ih ((each_char hc).mp hfit) hrest
  | pair d rest ih =>
    by_cases hd : d = percent
    · subst hd
      rw [each_percent]
      obtain ⟨out', hrest⟩ := rest_fixed fun junk => printfFrom_percent.symm.trans (h junk)
      exact ih (each_percent.mp hfit) hrest
    · obtain ⟨⟨hshared, harg⟩, hfit'⟩ := (each_pair hd).mp hfit
      rw [each_pair hd]
      obtain ⟨out', hrest⟩ := rest_of_conversion hd hshared h
      exact ⟨fun h115 => wordless_of_fixed hd hshared h115 (harg h115) h, ih hfit' hrest⟩

/-- Without texts that read words `printf` prints at most what the format stands for, and less where
the condition fails. -/
theorem printfFrom_short {format out : Bytes} (hfit : Fitting args n format)
    (hwords : Each False (fun d n => d = 115 → Wordless (mem (args n))) n format)
    (h : printfFrom mem junk args n format = some out) :
    out.length ≤ (meaning mem args n format).length ∧
      (out.length = (meaning mem args n format).length → Agrees mem args n format) := by
  induction format using format_induct generalizing n out with
  | nil =>
    cases h
    exact ⟨Nat.le_refl _, fun _ => trivial⟩
  | lone => exact absurd rfl hwords
  | char c rest hc ih =>
    rw [printfFrom_char hc] at h
    obtain ⟨r, hr, rfl⟩ := Option.map_eq_some_iff.mp h
    obtain ⟨hle, hagrees⟩ := ih ((each_char hc).mp hfit) ((each_char hc).mp hwords) hr
    rw [meaning_char hc]
    exact ⟨Nat.succ_le_succ hle, fun hlen => (each_char hc).mpr (hagrees (Nat.succ.inj hlen))⟩
  | pair d rest ih =>
    by_cases hd : d = percent
    · subst hd
      rw [printfFrom_percent] at h
      obtain ⟨r, hr, rfl⟩ := Option.map_eq_some_iff.mp h
      obtain ⟨hle, hagrees⟩ := ih (each_percent.mp hfit) (each_percent.mp hwords) hr
      rw [meaning_percent]
      exact ⟨Nat.succ_le_succ hle, fun hlen => each_percent.mpr (hagrees (Nat.succ.inj hlen))⟩
    · obtain ⟨⟨hshared, harg⟩, hrest⟩ := (each_pair hd).mp hfit
      obtain ⟨hword, hwords⟩ := (each_pair hd).mp hwords
      rw [printfFrom_pair hd (printfConvert_eq _ _ _ hshared)] at h
      obtain ⟨r, hr, rfl⟩ := Option.map_eq_some_iff.mp h
      obtain ⟨hle, hagrees⟩ := ih hrest hwords hr
      rw [meaning_pair hd, List.length_append, List.length_append]
      -- a number or a text is not longer than what it stands for
      have hpiece : ∀ text, text = (if d = 100 then printfDecimal (args n)
          else if d = 115 then (viprint mem (junk n) (mem (args n))).1 else textOf mem d (args n)) →
          text.length ≤ (textOf mem d (args n)).length ∧
            (text.length = (textOf mem d (args n)).length →
            (d = 100 → args n ≠ intMin) ∧ (d = 115 → Plain (mem (args n)))) := by
        intro text htext
        by_cases h100 : d = 100
        · subst h100
          rw [if_pos rfl] at htext
          have hnumeral : textOf mem 100 (args n) = itoa (args n) := (itoa_eq (args n)).symm
          rw [hnumeral]
          by_cases hmin : args n = intMin
          · rw [hmin, itoa_intMin, htext, hmin, printfDecimal_intMin]
            exact ⟨by decide, fun hlen => absurd hlen (by decide)⟩
          · rw [htext, printfDecimal_eq hmin]
            exact ⟨Nat.le_refl _, fun _ => ⟨fun _ => hmin, fun h115 => absurd h115 (by decide)⟩⟩
        by_cases h115 : d = 115
        · subst h115
          rw [if_neg h100, if_pos rfl] at htext
          have hread : (viprintFrom mem (junk n) 0 (mem (args n))).2 = 0 :=
            viprintFrom_wordless 0 (hword rfl)
          obtain ⟨hshort, hplain⟩ := viprintFrom_short hread
          rw [htext]
          exact ⟨hshort, fun hlen => ⟨fun h => absurd h h100, fun _ => hplain hlen⟩⟩
        · rw [if_neg h100, if_neg h115] at htext
          rw [htext]
          exact ⟨Nat.le_refl _, fun _ => ⟨fun h => absurd h h100, fun h => absurd h h115⟩⟩
      obtain ⟨hle', hagrees'⟩ := hpiece _ rfl
      exact ⟨Nat.add_le_add hle' hle,
        fun hlen => (each_pair hd).mpr ⟨hagrees' (by omega), hagrees (by omega)⟩⟩

/-- **`printf` and `viprint` print the same**, and what the format stands for, whatever is on the
stack, exactly under the condition. -/
theorem printf_agrees_iff {format : Bytes} (hfit : Fitting args 0 format) :
    (∀ junk, printf mem junk args format = some (viprint mem args format).1 ∧
      (viprint mem args format).1 = meaning mem args 0 format) ↔ Agrees mem args 0 format := by
  have hmeaning : (viprint mem args format).1 = meaning mem args 0 format :=
    viprintFrom_meaning hfit
  constructor
  · intro hall
    have hprints : ∀ junk, printfFrom mem junk args 0 format = some (meaning mem args 0 format) :=
      fun junk => hmeaning ▸ (hall junk).1
    exact (printfFrom_short hfit (wordless_of_printf hfit hprints) (hprints (fun _ _ => 0))).2 rfl
  · intro hagrees junk
    exact ⟨hmeaning ▸ printfFrom_meaning junk hfit hagrees, hmeaning⟩

/-- `"%d%s
"`, with `7` and the text `"ok"`. -/
theorem printf_agrees_iff_ok : printf (fun _ => [111, 107]) (fun _ _ => 0)
    (fun i => if i = 0 then 7 else 0x1000) [37, 100, 37, 115, 10] = some [55, 111, 107, 10] := by
  have hfit : Fitting (fun i => if i = 0 then 7 else 0x1000) 0 [37, 100, 37, 115, 10] :=
    ⟨⟨by decide, fun h => absurd h (by decide)⟩, ⟨by decide, fun _ => by decide⟩,
      fun h => absurd h (by decide)⟩
  have hagrees :
      Agrees (fun _ => [111, 107]) (fun i => if i = 0 then 7 else 0x1000) 0
        [37, 100, 37, 115, 10] :=
    ⟨⟨fun _ => by decide, fun h => absurd h (by decide)⟩,
      ⟨fun h => absurd h (by decide), fun _ => by simp [Plain, percent]⟩,
        fun h => absurd h (by decide)⟩
  rw [((printf_agrees_iff hfit).mpr hagrees _).1]
  decide

/-- **A text with `%d` in it** is printed by `viprint`, and `printf` prints a word of the stack for
it. -/
theorem printf_percent_text : ∃ (mem : Word → Bytes) (args : Nat → Word) (format : Bytes),
    Fitting args 0 format ∧ ∃ junk, printf mem junk args format ≠
      some (viprint mem args format).1 := by
  refine ⟨fun _ => [37, 100], fun _ => 0x1000, [37, 115],
    ⟨⟨by decide, fun _ => by decide⟩, trivial⟩,
    fun _ _ => 0, ?_⟩
  decide

end CobraOS.Screen
