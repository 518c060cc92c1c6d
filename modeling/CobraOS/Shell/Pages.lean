import CobraOS.Base.Partial
import CobraOS.Shell.Commands

/-!
# Sessions of the page allocator

What a session prints is enough to follow the free pages: its entries, read by `pageEvent`, are a
run of a pool whose items are pages and whose keys are their frames (`sessions_pool`).  So what
holds of pools holds of what a user sees (`pages_shown`).
-/

namespace CobraOS.Shell

open Base Screen Pmm
open Ramfs (text)

/-! ### Numbers in a text -/

section

variable {read : Bytes → Option Nat} {label : String} {digits rest : Bytes} {c : UInt8} {n : Nat}

theorem numberBehind_append (hdigits : ∀ b ∈ digits, inNumber b = true) (hc : inNumber c = false)
    (hread : read digits = some n) : numberBehind read label (text label ++ (digits ++ c :: rest)) =
      some n := by
  have hpre : (text label).isPrefixOf (text label ++ (digits ++ c :: rest)) = true :=
    List.isPrefixOf_iff_prefix.mpr (List.prefix_append _ _)
  rw [numberBehind, if_pos hpre, List.drop_left, List.takeWhile_append_of_pos hdigits,
    List.takeWhile_cons_of_neg (by simp [hc]), List.append_nil, hread]

theorem numberBehind_none {printed : Bytes} (h : (text label).isPrefixOf printed = false) :
    numberBehind read label printed = none := by
  rw [numberBehind, h, if_neg Bool.false_ne_true]

end

section

variable (w : Around)

theorem Around.say_eq {s : String} (h : percent ∉ text s) : w.say s = text s :=
  viprint_of_notMem w.mem w.stack h

theorem inNumber_of_numeral {digit : UInt8 → Option Nat} {base v : Nat} {s : Bytes} {b : UInt8}
    (h : Numeral digit base s v) (hline : digit 10 = none) (hblank : digit 32 = none) (hb : b ∈ s) :
    inNumber b = true := by
  have h10 : b ≠ 10 := ne_of_mem_of_not_mem hb (notMem_of_numeral h hline)
  have h32 : b ≠ 32 := ne_of_mem_of_not_mem hb (notMem_of_numeral h hblank)
  simp [inNumber, h10, h32]

/-- **A printed address** and what it reads as. -/
theorem Around.hex_reads {v : Nat} (hv : v < 4294967296) :
    ∃ digits, w.hex v = .ok (digits ++ [10]) ∧
    hexNumber digits = some v ∧ ∀ b ∈ digits, inNumber b = true := by
  have hdigits : Numeral hexDigit 16 (fixedDigits (digitByte 65) 16 8 v) v := by
    have hdigit : ∀ d < 16, hexDigit (digitByte 65 d) = some d := by decide
    have hlow := fixedDigits_numeral (by decide) hdigit 7 v
    rwa [Nat.mod_eq_of_lt (b := 16 ^ 8) hv] at hlow
  refine ⟨_, congrArg inArray (hexprint_eq w.mem w.stack v), ?_, ?_⟩
  · rw [hexNumber, (parseHex_reads _).read ⟨_, .inr (.inl rfl), hdigits⟩, Nat.mod_eq_of_lt hv]
    rfl
  · simp only [List.mem_cons]
    rintro b (rfl | rfl | hb)
    · decide
    · decide
    · exact inNumber_of_numeral hdigits (by decide) (by decide) hb

theorem Around.uint_reads {n : Nat} (hn : n < 4294967296) : ∃ digits, w.uint n = .ok digits ∧
    decNumber digits = some n ∧ ∀ b ∈ digits, inNumber b = true := by
  have hnum := decText_numeral n
  refine ⟨_, congrArg inArray (printUint_eq w.mem w.stack w.junk hn), ?_, ?_⟩
  · rw [decNumber, (parseDec_reads _).read hnum, Nat.mod_eq_of_lt hn]
    rfl
  · exact fun b hb => inNumber_of_numeral hnum (by decide) (by decide) hb

theorem parseHex_printed {s : Bytes} {out : Nat} (h : (parseHex (some s) out).ret = false) :
    (parseHex (some s) out).printed = "" ∨ (parseHex (some s) out).printed =
      "Error: invalid hex character.\n" := by
  rw [parseHex] at h ⊢
  split_ifs at h ⊢ with hs hskip
  · exact .inl rfl
  · exact .inl rfl
  · cases hloop : parseHexLoop (skipPrefix s) 0 with
    | none => exact .inr rfl
    | some v =>
      rw [hloop] at h
      cases h

end

/-! ### The frames of the free pages -/

def frames (s : Pmm.State) : Finset Nat := ((pages s).map pageToIndex).toFinset

section

variable {s s' : Pmm.State} {p : Nat}

theorem mem_frames {i : Nat} : i ∈ frames s ↔ i ∈ (pages s).map pageToIndex := List.mem_toFinset

theorem frames_card (hs : Agree s) : (frames s).card = pmmGetFreePageCount s := by
  rw [frames, List.toFinset_card_of_nodup hs.distinct, List.length_map, pages_length]
  exact hs.count.symm

theorem frames_pop (hs : Agree s) (h : pages s = pages s' ++ [p]) :
    pageToIndex p ∈ frames s ∧ frames s' = (frames s).erase (pageToIndex p) := by
  have hdistinct := hs.distinct
  rw [h, List.map_append, List.map_singleton, List.nodup_append] at hdistinct
  have hout : pageToIndex p ∉ frames s' := fun hmem =>
    hdistinct.2.2 _ (mem_frames.mp hmem) _ (List.mem_singleton_self _) rfl
  have hinsert : frames s = insert (pageToIndex p) (frames s') := by
    ext i
    rw [mem_frames, h, List.map_append, List.map_singleton, List.mem_append, List.mem_singleton,
      Finset.mem_insert, mem_frames, or_comm]
  exact ⟨hinsert ▸ Finset.mem_insert_self _ _, by rw [hinsert, Finset.erase_insert hout]⟩

theorem frames_push (h : pages s' = pages s ++ [p]) : frames s' = insert (pageToIndex p)
    (frames s) := by
  ext i
  rw [mem_frames, h, List.map_append, List.map_singleton, List.mem_append, List.mem_singleton,
    Finset.mem_insert, mem_frames, or_comm]

/-- A free page is below the end of the bitmap, so its address is a word. -/
theorem page_lt (hs : Agree s) (hp : p ∈ pages s) : p < 4294967296 := by
  have hlt := hs.inBitmap p hp
  unfold pageToIndex pageSize bitmapFrames bitmapWords maxFrames at hlt
  omega

/-- **What `pmm_free_page` says** and does. -/
theorem pmmFreePage_notice (hs : Agree s) (hp : pageToIndex p < bitmapFrames) {n : Option Notice}
    (h : pmmFreePage s p = .ok (n, s')) :
    (n = some (.doubleFree p) ∧ pageToIndex p ∈ frames s ∧ s' = s) ∨
      (n = some .stackOverflow ∧ pageToIndex p ∉ frames s ∧ maxFrames ≤ (frames s).card ∧ s' = s) ∨
        (n = none ∧ pageToIndex p ∉ frames s ∧ pages s' = pages s ++ [p]) := by
  have hbit := hs.bits _ hp
  have hcard : (frames s).card = s.stackTop := (frames_card hs).trans hs.count
  rw [mem_frames, hcard]
  unfold pmmFreePage bitmapTest bitmapSet at h
  simp only [checkIndex_eq hp, bind, Except.bind] at h
  by_cases hmem : pageToIndex p ∈ (pages s).map pageToIndex
  · rw [hbit.mpr hmem, if_pos rfl] at h
    cases h
    exact .inl ⟨rfl, hmem, rfl⟩
  · rw [Bool.eq_false_iff.mpr fun hb => hmem (hbit.mp hb), if_neg Bool.false_ne_true] at h
    by_cases hfull : maxFrames ≤ s.stackTop
    · rw [if_pos hfull] at h
      cases h
      exact .inr (.inl ⟨rfl, hmem, hfull, rfl⟩)
    · rw [if_neg hfull] at h
      cases h
      exact .inr (.inr ⟨rfl, hmem, pages_push s p⟩)

end

/-! ### One line -/

/-- What a call of the page allocator does, and what its entry shows. -/
def ShowsPages (p : Pmm.State) (line printed : Bytes) (p' : Pmm.State) : Prop :=
  Agree p' ∧ Pool.step pageToIndex 0 maxFrames (frames p) (pageEvent ⟨line, printed⟩) (frames p')

section

variable (w : Around) {p : Pmm.State} {line args : Bytes}

theorem cmdAlloc_spec (hs : Agree p) (hline : commandIn line = some .alloc) :
    ∃ printed p', cmdAlloc w p = .ok (printed, p') ∧ ShowsPages p line printed p' := by
  have hrefused : pageEvent ⟨line, text "PMM: no free pages available.\n"⟩ = .refused := by
    simp only [pageEvent, hline]
    rw [numberBehind_none (by decide)]
  have hsay := w.say_eq (s := "PMM: no free pages available.\n") (by decide)
  unfold cmdAlloc
  rcases pmmAllocPage_spec hs with ⟨hnil, hr⟩ | ⟨q, p', hr, hs', hpages⟩
  · have hempty : frames p = ∅ := by rw [frames, hnil]; rfl
    refine ⟨_, p, by rw [hr]; rfl, hs, ?_⟩
    rw [hsay, hrefused]
    exact .inl ⟨hempty, hempty⟩
  · obtain ⟨hmem, herase⟩ := frames_pop hs hpages
    cases q with
    | zero =>
      refine ⟨_, p', by rw [hr]; rfl, hs', ?_⟩
      rw [hsay, hrefused]
      exact .inr ⟨hmem, herase⟩
    | succ a =>
      have hlt : a + 1 < 4294967296 := page_lt hs (by rw [hpages]; simp)
      obtain ⟨digits, hhex, hread, hdigits⟩ := w.hex_reads hlt
      refine ⟨w.say "Allocated physical page at: " ++ (digits ++ [10]), p', ?_, hs', ?_⟩
      · rw [hr]
        show Except.bind (w.hex (a + 1)) _ = _
        rw [hhex]
        rfl
      · have htook :
            pageEvent ⟨line, text "Allocated physical page at: " ++ (digits ++ [10])⟩ =
              .took (a + 1) := by
          simp only [pageEvent, hline]
          rw [numberBehind_append hdigits rfl hread]
        rw [w.say_eq (by decide), htook]
        exact ⟨hmem, herase⟩

section

variable (hline : commandIn line = some .free) {digits rest : Bytes} {a : Nat}
    (hread : hexNumber digits = some a) (hdigits : ∀ b ∈ digits, inNumber b = true)

include hline hread hdigits

theorem pageEvent_gave :
    pageEvent ⟨line, text "Freed physical page at: " ++ (digits ++ 10 :: rest)⟩ = .gave a := by
  simp only [pageEvent, hline]
  rw [numberBehind_append hdigits rfl hread]

theorem pageEvent_again :
    pageEvent ⟨line, text "PMM: double free at " ++ (digits ++ 10 :: rest)⟩ = .again a := by
  simp only [pageEvent, hline]
  rw [numberBehind_none rfl, numberBehind_append hdigits rfl hread]

theorem pageEvent_full :
    pageEvent ⟨line,
      text "PMM free stack overflow!\nFreed physical page at: " ++ (digits ++ 10 :: rest)⟩ =
      .full a := by
  simp only [pageEvent, hline]
  rw [numberBehind_none rfl, numberBehind_none rfl, numberBehind_append hdigits rfl hread]

end

theorem cmdPfree_usage (hline : commandIn line = some .free)
    (hret : (parseHex (some args) w.out).ret = false) :
    ∃ printed, cmdPfree w p args = .ok (printed, p) ∧ pageEvent ⟨line, printed⟩ = .other := by
  refine ⟨_, by unfold cmdPfree; rw [if_pos hret], ?_⟩
  simp only [pageEvent, hline]
  rw [w.say_eq (s := "Usage: free <hex_addr>\n") (by decide)]
  rcases parseHex_printed hret with he | he
  · rw [he, w.say_eq (by decide), numberBehind_none rfl, numberBehind_none rfl,
      numberBehind_none rfl]
  · rw [he, w.say_eq (by decide), numberBehind_none rfl, numberBehind_none rfl,
      numberBehind_none rfl]

/-- **A line of `free` with an address** in the bitmap. -/
theorem cmdPfree_spec (hs : Agree p) (hline : commandIn line = some .free)
    (hret : (parseHex (some args) w.out).ret = true)
    (hin : pageToIndex (parseHex (some args) w.out).out < bitmapFrames) :
    ∃ printed p', cmdPfree w p args = .ok (printed, p') ∧ ShowsPages p line printed p' := by
  obtain ⟨n, p', hr, hs', -, -, -⟩ := pmmFreePage_spec hs hin
  obtain ⟨digits, hhex, hread, hdigits⟩ := w.hex_reads ((parseHex_reads args).out_lt hret)
  have hcmd : ∀ noticed, noticeText w n = .ok noticed →
      cmdPfree w p args =
        .ok (noticed ++ text "Freed physical page at: " ++ (digits ++ [10]), p') := by
    intro noticed hnoticed
    unfold cmdPfree
    rw [if_neg (by rw [hret]; decide), hr]
    show Except.bind (noticeText w n) _ = _
    rw [hnoticed]
    show Except.bind (w.hex _) _ = _
    rw [hhex, ← w.say_eq (s := "Freed physical page at: ") (by decide)]
    rfl
  generalize (parseHex (some args) w.out).out = a at *
  rcases pmmFreePage_notice hs hin hr with
    ⟨rfl, hmem, rfl⟩ | ⟨rfl, hout, hroom, rfl⟩ | ⟨rfl, hout, hpages⟩
  · have hnoticed : noticeText w (some (.doubleFree a)) =
        .ok (text "PMM: double free at " ++ (digits ++ [10]) ++ text "\n") := by
      show Except.bind (w.hex a) _ = _
      rw [hhex, ← w.say_eq (s := "PMM: double free at ") (by decide), ← w.say_eq
        (s := "\n") (by decide)]
      rfl
    refine ⟨_, p', hcmd _ hnoticed, hs', ?_⟩
    simp only [List.append_assoc, List.cons_append]
    rw [pageEvent_again hline hread hdigits]
    exact ⟨hmem, rfl⟩
  · refine ⟨_, p', hcmd _ rfl, hs', ?_⟩
    rw [w.say_eq (by decide)]
    have hlabel : text "PMM free stack overflow!\n" ++ text "Freed physical page at: " =
        text "PMM free stack overflow!\nFreed physical page at: " := rfl
    rw [hlabel, pageEvent_full hline hread hdigits]
    exact ⟨hout, hroom, rfl⟩
  · refine ⟨_, p', hcmd [] rfl, hs', ?_⟩
    rw [List.nil_append, pageEvent_gave hline hread hdigits]
    exact ⟨hout, frames_push hpages⟩

theorem cmdPfree_out (hret : (parseHex (some args) w.out).ret = true)
    (hout : bitmapFrames ≤ pageToIndex (parseHex (some args) w.out).out) :
    cmdPfree w p args = .error .outOfBounds := by
  have herror : pmmFreePage p (parseHex (some args) w.out).out = .error .outOfBounds := by
    unfold pmmFreePage bitmapTest
    simp only [checkIndex_eq_error hout, bind, Except.bind]
  unfold cmdPfree
  rw [if_neg (by rw [hret]; decide), herror]
  rfl

theorem cmdFreecount_spec (hs : Agree p) (hline : commandIn line = some .freecount) :
    ∃ printed, cmdFreecount w p = .ok printed ∧ ShowsPages p line printed p := by
  have hlt : pmmGetFreePageCount p < 4294967296 := by
    have hheight := hs.height
    rw [pmmGetFreePageCount, hs.count]
    unfold maxFrames at hheight
    omega
  obtain ⟨digits, huint, hread, hdigits⟩ := w.uint_reads hlt
  refine ⟨text "Free physical pages: " ++ (digits ++ [10]), ?_, hs, ?_⟩
  · unfold cmdFreecount
    rw [huint, w.say_eq (by decide), w.say_eq (by decide)]
    exact congrArg Except.ok (List.append_assoc _ _ _)
  · have hcounted : pageEvent ⟨line, text "Free physical pages: " ++ (digits ++ [10])⟩ =
        .counted (pmmGetFreePageCount p) := by
      simp only [pageEvent, hline]
      rw [numberBehind_append hdigits rfl hread]
    rw [hcounted]
    exact ⟨(frames_card hs).symm, rfl⟩

/-! ### Lines -/

variable {rest : Except Stop (Bytes × Heap.State)} {printed : Bytes} {k k' : Machine}

/-- **A line keeps the page allocator well formed**, and its entry shows what it does. -/
theorem line_pages (hs : Agree k.pmm) (h : shellProcessLine w rest k line = .ok (printed, k')) :
    ShowsPages k.pmm line printed k'.pmm := by
  have hother : k'.pmm = k.pmm → pageEvent ⟨line, printed⟩ = .other →
      ShowsPages k.pmm line printed k'.pmm := by
    intro heq hevent
    rw [heq]
    exact ⟨hs, by rw [hevent]; rfl⟩
  -- A command that calls the heap leaves the pages alone.
  have hheap : ∀ x : Except Stop (Bytes × Heap.State), pageEvent ⟨line, printed⟩ = .other →
      x.map (fun r => (r.1, { k with heap := r.2 })) = .ok (printed, k') →
        ShowsPages k.pmm line printed k'.pmm := by
    intro x hevent hx
    obtain ⟨r, -, he⟩ := map_ok hx
    cases he
    exact hother rfl hevent
  unfold shellProcessLine at h
  split_ifs at h with hnil
  · cases h
    subst hnil
    exact hother rfl (by decide)
  · dsimp only at h
    cases hline : commandOf (splitLine line).1 with
    | none =>
      rw [hline] at h
      cases h
      exact hother rfl (by simp only [pageEvent, commandIn, hline])
    | some c =>
      rw [hline] at h
      cases c
      case alloc =>
        obtain ⟨shown, p', hcmd, hshows⟩ := cmdAlloc_spec w hs hline
        rw [hcmd] at h
        cases h
        exact hshows
      case free =>
        dsimp only at h
        cases hret : (parseHex (some (splitLine line).2) w.out).ret with
        | false =>
          obtain ⟨shown, hcmd, hevent⟩ := cmdPfree_usage (p := k.pmm) w hline hret
          rw [hcmd] at h
          cases h
          exact hother rfl hevent
        | true =>
          by_cases hin : pageToIndex (parseHex (some (splitLine line).2) w.out).out < bitmapFrames
          · obtain ⟨shown, p', hcmd, hshows⟩ := cmdPfree_spec w hs hline hret hin
            rw [hcmd] at h
            cases h
            exact hshows
          · rw [cmdPfree_out w hret (not_lt.mp hin)] at h
            cases h
      case freecount =>
        obtain ⟨shown, hcmd, hshows⟩ := cmdFreecount_spec w hs hline
        rw [hcmd] at h
        cases h
        exact hshows
      case shutdown => cases h
      case reboot => cases h
      all_goals exact hheap _ (by simp only [pageEvent, commandIn, hline]) h

end

/-! ### Sessions -/

section

variable {s s' : Session} {log : List Entry}

/-- **A session is a run of a pool**, as its entries show it. -/
theorem sessions_pool (hs : Agree s.machine.pmm) (h : safeSessions.Run s log s') :
    Agree s'.machine.pmm ∧
    (Pool.system pageToIndex 0 maxFrames).Run (frames s.machine.pmm) (log.map pageEvent)
    (frames s'.machine.pmm) := by
  induction h with
  | nil s => exact ⟨hs, .nil _⟩
  | cons hstep _ ih =>
    obtain ⟨hsafe, -, hruns⟩ := hstep
    obtain ⟨w, rest, hline⟩ := hruns hsafe
    obtain ⟨hs', hevent⟩ := line_pages w hs hline
    obtain ⟨hagree, hrun⟩ := ih hs'
    exact ⟨hagree, .cons hevent hrun⟩

/-- The frame of a page that an entry gives back. -/
def GivesBack (i : Nat) (e : Entry) : Prop := ∃ c, pageEvent e = .gave c ∧ pageToIndex c = i

/-- The frame of a page that an entry hands out; page 0 is handed out as a refusal. -/
def HandsOut (i : Nat) (e : Entry) : Prop :=
  (∃ c, pageEvent e = .took c ∧ pageToIndex c = i) ∨ pageEvent e = .refused ∧ i = 0

theorem sessions_at (hs : Agree s.machine.pmm) {l₁ l₂ : List Entry} {e : Entry}
    (h : safeSessions.Run s (l₁ ++ e :: l₂) s') : ∃ s₁ s₂, safeSessions.Run s l₁ s₁ ∧
      ShowsPages s₁.machine.pmm e.line e.printed s₂.machine.pmm ∧ safeSessions.Run s₂ l₂ s' := by
  obtain ⟨s₁, h₁, h₂⟩ := h.split
  cases h₂ with
  | @cons _ s₂ _ _ _ hstep hrest =>
    obtain ⟨hsafe, -, hruns⟩ := hstep
    obtain ⟨w, rest, hline⟩ := hruns hsafe
    exact ⟨s₁, s₂, h₁, line_pages w (sessions_pool hs h₁).1 hline, hrest⟩

/-- A page that was handed out and not given back is not free. -/
theorem took_notFree (hs : Agree s.machine.pmm) {l₁ l₂ : List Entry} {e : Entry}
    (h : safeSessions.Run s (l₁ ++ e :: l₂) s') {a : Nat} (htook : pageEvent e = .took a)
    (hno : ∀ e ∈ l₂, ¬GivesBack (pageToIndex a) e) :
    pmmIsPageFree s'.machine.pmm a = .ok false := by
  obtain ⟨s₁, s₂, hrun₁, ⟨hs₂, hstep⟩, hrun₂⟩ := sessions_at hs h
  rw [htook] at hstep
  obtain ⟨hmem, herase⟩ := hstep
  obtain ⟨p, hp, hpa⟩ := List.mem_map.mp (mem_frames.mp hmem)
  have hin : pageToIndex a < bitmapFrames := hpa ▸ (sessions_pool hs hrun₁).1.inBitmap p hp
  obtain ⟨hs', hpool⟩ := sessions_pool hs₂ hrun₂
  have hout : pageToIndex a ∉ frames s'.machine.pmm := by
    refine Pool.out_run hpool (herase ▸ Finset.notMem_erase _ _) fun e he hgive => ?_
    obtain ⟨x, hx, rfl⟩ := List.mem_map.mp he
    exact hno x hx hgive
  have hbit : hasBit s'.machine.pmm.bitmap (pageToIndex a) = false :=
    Bool.eq_false_iff.mpr fun hb => hout (mem_frames.mpr ((hs'.bits _ hin).mp hb))
  unfold pmmIsPageFree bitmapTest
  rw [checkIndex_eq hin, hbit]
  rfl

/-- While page 0 is not free, a printed count is right, and a refusal means that no page is free. -/
theorem counted_eq (hs : Agree s.machine.pmm) {l₁ l₂ : List Entry} {e : Entry}
    (h : safeSessions.Run s (l₁ ++ e :: l₂) s') (hzero : 0 ∉ frames s.machine.pmm)
    (hno : ∀ e ∈ l₁, ¬GivesBack 0 e) {n : Nat}
    (hn : pageEvent e = .counted n ∨ pageEvent e = .refused ∧ n = 0) :
    n + l₁.countP (fun e => (pageEvent e).isTook) =
      pmmGetFreePageCount s.machine.pmm + l₁.countP (fun e => (pageEvent e).isGave) := by
  obtain ⟨s₁, s₂, hrun₁, ⟨-, hstep⟩, -⟩ := sessions_at hs h
  obtain ⟨-, hpool₁⟩ := sessions_pool hs hrun₁
  have hnever : ∀ e ∈ l₁.map pageEvent, ¬Pool.Gives pageToIndex (pageToIndex 0) e := by
    rintro e he hgive
    obtain ⟨x, hx, rfl⟩ := List.mem_map.mp he
    exact hno x hx hgive
  have hcard := Pool.card_run hpool₁ hzero hnever
  have hn' : n = (frames s₁.machine.pmm).card := by
    rcases hn with hcounted | ⟨hrefused, rfl⟩
    · rw [hcounted] at hstep
      exact hstep.1
    · rw [hrefused] at hstep
      rw [Pool.refused_empty hpool₁ hzero hnever hstep]
      rfl
  rw [frames_card hs, List.countP_map, List.countP_map, ← hn'] at hcard
  exact hcard

/-- **What the transcript of a session of safe lines shows of the pages.**  A page that is handed
out twice was given back between; one that was given back twice was handed out between; one that was
handed out and not given back is not free.  As long as page 0 is not free, the counts that are
printed are right, and a refusal means that no page is free. -/
theorem pages_shown (hs : Agree s.machine.pmm) (h : safeSessions.Run s log s') :
    (∀ l₁ e₁ l₂ e₂ l₃ a b, log = l₁ ++ e₁ :: (l₂ ++ e₂ :: l₃) → pageEvent e₁ = .took a →
      pageEvent e₂ = .took b → pageToIndex a = pageToIndex b →
        ∃ e ∈ l₂, GivesBack (pageToIndex a) e) ∧
    (∀ l₁ e₁ l₂ e₂ l₃ a b, log = l₁ ++ e₁ :: (l₂ ++ e₂ :: l₃) → pageEvent e₁ = .gave a →
      pageEvent e₂ = .gave b → pageToIndex a = pageToIndex b →
        ∃ e ∈ l₂, HandsOut (pageToIndex a) e) ∧
    (∀ l₁ e₁ l₂ a, log = l₁ ++ e₁ :: l₂ → pageEvent e₁ = .took a →
      (∀ e ∈ l₂, ¬GivesBack (pageToIndex a) e) → pmmIsPageFree s'.machine.pmm a = .ok false) ∧
    (0 ∉ frames s.machine.pmm → (∀ e ∈ log, ¬GivesBack 0 e) → ∀ l₁ e₁ l₂ n, log = l₁ ++ e₁ :: l₂ →
      (pageEvent e₁ = .counted n ∨ pageEvent e₁ = .refused ∧ n = 0) →
        n + l₁.countP (fun e => (pageEvent e).isTook) =
          pmmGetFreePageCount s.machine.pmm + l₁.countP (fun e => (pageEvent e).isGave)) := by
  obtain ⟨-, hpool⟩ := sessions_pool hs h
  have hgives : ∀ {i} {l : List Entry}, (∃ e ∈ l.map pageEvent, Pool.Gives pageToIndex i e) →
      ∃ e ∈ l, GivesBack i e := by
    rintro i l ⟨e, he, hgive⟩
    obtain ⟨x, hx, rfl⟩ := List.mem_map.mp he
    exact ⟨x, hx, hgive⟩
  refine ⟨?_, ?_, ?_, ?_⟩
  · rintro l₁ e₁ l₂ e₂ l₃ a b rfl h₁ h₂ hab
    simp only [List.map_append, List.map_cons, h₁, h₂] at hpool
    exact hgives (Pool.took_twice hpool hab)
  · rintro l₁ e₁ l₂ e₂ l₃ a b rfl h₁ h₂ hab
    simp only [List.map_append, List.map_cons, h₁, h₂] at hpool
    obtain ⟨e, he, htakes⟩ := Pool.gave_twice hpool hab
    obtain ⟨x, hx, rfl⟩ := List.mem_map.mp he
    exact ⟨x, hx, htakes.imp_right fun ⟨hrefused, hzero⟩ => ⟨hrefused, hzero.symm⟩⟩
  · rintro l₁ e₁ l₂ a rfl h₁ hno
    exact took_notFree hs h h₁ hno
  · rintro hzero hno l₁ e₁ l₂ n rfl hn
    exact counted_eq hs h hzero (fun e he => hno e (List.mem_append_left _ he)) hn

end

/-- A session in which the memory around the shell is zero and other commands print nothing. -/
def processLines (s : Session) : List Bytes → Except Stop (List Entry × Session)
  | [] => .ok ([], s)
  | line :: lines => do
    let (printed, k) ← shellProcessLine ⟨fun _ => [], fun _ => 0, fun _ => 0, 0⟩
      (.ok ([], s.machine.heap)) s.machine
      line
    let (log, s') ← processLines ⟨k, blockStep s.mine ⟨line, printed⟩, s.kernels⟩ lines
    .ok (⟨line, printed⟩ :: log, s')

theorem processLines_run : ∀ {lines : List Bytes} {s s' : Session} {log : List Entry},
    (∀ line ∈ lines, kfreeArg line = none ∧ ∀ a, freeArg line = some a →
      pageToIndex a < bitmapFrames) →
      processLines s lines = .ok (log, s') → safeSessions.Run s log s'
  | [], _, _, _, _, h => by
    cases h
    exact .nil _
  | line :: lines, s, s', log, hsafe, h => by
    obtain ⟨⟨hkfree, hfree⟩, hsafe⟩ := List.forall_mem_cons.mp hsafe
    obtain ⟨⟨printed, k⟩, hline, h⟩ := bind_ok h
    obtain ⟨⟨log₁, s₁⟩, hlines, h⟩ := bind_ok h
    cases h
    have hcareful : Careful s.mine line := fun p hp => by rw [hkfree] at hp; cases hp
    exact .cons ⟨⟨hcareful, hfree⟩, rfl, fun _ => ⟨_, _, hline⟩⟩ (processLines_run hsafe hlines)

/-- Memory without a free page. -/
def noPage : Machine :=
  ⟨pmmInit ⟨fun _ => 0, fun _ => 0, 0, 0, 0⟩ 65536, ⟨fun _ => 0, fun _ => 0, 0⟩⟩

/-- A page is given back, taken and counted. -/
def onePage : List Entry :=
  [⟨text "free 3000", text "Freed physical page at: 0x00003000\n"⟩,
    ⟨text "alloc", text "Allocated physical page at: 0x00003000\n"⟩,
    ⟨text "freecount", text "Free physical pages: 0\n"⟩]

theorem pages_shown_onePage :
    ∃ s', safeSessions.Run ⟨noPage, [], []⟩ onePage s' ∧ pmmIsPageFree s'.machine.pmm 0x3000 =
      .ok false := by
  have hlog : (processLines ⟨noPage, [], []⟩ (onePage.map Entry.line)).map Prod.fst =
      .ok onePage := by rfl
  obtain ⟨⟨log, s'⟩, hlines, hlog⟩ := map_ok hlog
  obtain rfl : log = onePage := hlog
  have hsafe : ∀ line ∈ onePage.map Entry.line, kfreeArg line = none ∧
      ∀ a, freeArg line = some a → pageToIndex a < bitmapFrames := by
    have hargs : ∀ line ∈ onePage.map Entry.line, kfreeArg line = none ∧
        (freeArg line = none ∨ freeArg line = some 0x3000) := by decide
    intro line hline
    obtain ⟨hkfree, hnone | hsome⟩ := hargs line hline
    · exact ⟨hkfree, fun a ha => by rw [hnone] at ha; cases ha⟩
    · refine ⟨hkfree, fun a ha => ?_⟩
      rw [hsome] at ha
      cases ha
      decide
  have hrun := processLines_run hsafe hlines
  have htook : pageEvent ⟨text "alloc", text "Allocated physical page at: 0x00003000\n"⟩ =
      .took 0x3000 := by decide
  have hcount : pageEvent ⟨text "freecount", text "Free physical pages: 0\n"⟩ = .counted 0 := by
    decide
  refine ⟨s', hrun, (pages_shown (pmmInit_agree _ _) hrun).2.2.1 [_] _ [_] 0x3000 rfl htook ?_⟩
  rintro e he ⟨c, hc, -⟩
  rw [List.mem_singleton.mp he, hcount] at hc
  cases hc

end CobraOS.Shell
