import CobraOS.Ramfs.Runs

/-!
# Reads and writes inside the file

`default_read` and `default_write` add the offset and the size as 32-bit words and compare the sum
with the size of the file.  When the sum does not wrap, a read is cut at the end of the file and a
write has its buffer made large enough.  When it wraps it is smaller than both, so nothing is cut
and nothing is made larger, and `memcpy` goes on behind the end.  `inside_iff` says exactly when the
two functions stay inside.
-/

namespace CobraOS.Ramfs

open Base

variable {fs : Fs} {r a : Nat} {n : VfsNode} {kids : Nat → List Nat} {offset size : Nat}
    {buffer : Bytes} {answer : Option Nat}

/-- `default_read` copies bytes of the file from the offset on, at most `size` and none behind the
end, and returns how many. -/
def ReadsInside (fs : Fs) (a offset size : Nat) : Prop :=
  let bytes := ((dataOf fs a).drop offset).take size
  defaultRead fs a offset size = some ((bytes.length : Int), bytes) ∧
    bytes.length = min size ((dataOf fs a).length - offset)

/-- `default_write` returns `-1` and changes nothing, or copies the buffer to the offset in data
that is long enough for it, and changes no other node. -/
def WritesInside (fs : Fs) (a offset : Nat) (buffer : Bytes) (answer : Option Nat) : Prop :=
  ∃ ret fs', defaultWrite fs a offset buffer answer = some (ret, fs') ∧ (ret = -1 ∧ fs' = fs ∨
    offset + buffer.length ≤ (dataOf fs' a).length ∧
      Written fs fs' a (overwrite (grown (dataOf fs a) offset) offset buffer))

/-- The sum wraps before the end of the file. -/
def ReadWraps (n : VfsNode) (offset size : Nat) : Prop := offset < n.size ∧
    4294967296 ≤ offset + size

/-- The sum does not wrap, or memory for the wrapped sum is asked for and refused. -/
def WriteFits (fs : Fs) (n : VfsNode) (offset size : Nat) (answer : Option Nat) : Prop :=
  offset + size < 4294967296 ∨
    n.size < (offset + size) % 4294967296 ∧ fs.granted ((offset + size) % 4294967296) answer = none

/-! ### Reads -/

theorem reads_inside (h : Tree fs r kids) (hn : fs.nodes a = some n)
    (hf : hasFlag n.type fsFile = true) (hw : ¬ ReadWraps n offset size) :
    ReadsInside fs a offset size := by
  have hlen := dataOf_length h.owned hn
  have hcut : (((dataOf fs a).drop offset).take size).length =
      min size ((dataOf fs a).length - offset) := by
    rw [List.length_take, List.length_drop]
  refine ⟨?_, hcut⟩
  rw [defaultRead_spec h.owned hn (fun hlt => Nat.lt_of_not_le (fun hge => hw ⟨hlt, hge⟩)),
    if_pos hf, hcut, hlen]

theorem read_outside (h : Tree fs r kids) (hn : fs.nodes a = some n)
    (hf : hasFlag n.type fsFile = true) (hsize : size < 4294967296) (hw : ReadWraps n offset size) :
    defaultRead fs a offset size = none := by
  obtain ⟨hlt, hwrap⟩ := hw
  have hsmall : n.size ≤ 4194288 := h.owned.small a n.bare (contents_eq hn)
  rw [defaultRead, hn]
  simp only [Option.bind_eq_bind, Option.bind_some, hf, Bool.not_true, Bool.false_eq_true, if_false]
  -- the wrapped sum is less than the offset, so nothing is cut
  have hcut : (if n.size < (offset + size) % 4294967296 then n.size - offset else size) = size :=
    if_neg (by omega)
  rw [if_neg (by omega), hcut, if_neg (by omega)]
  have hread : readData fs n.data offset size = none := by
    rw [readData, if_neg (by omega)]
    cases hd : n.data with
    | none => rfl
    | some d =>
      obtain ⟨bytes, hb, hlen⟩ := h.owned.held a n.bare d (contents_eq hn) hd
      have hlen : bytes.length = n.size := hlen
      rw [Option.bind_eq_bind, Option.bind_some, hb]
      exact if_neg (by omega)
  rw [hread]
  rfl

/-! ### Writes -/

theorem overwrite_room (bytes : Bytes) (offset : Nat) (buffer : Bytes) :
    offset + buffer.length ≤ (overwrite (grown bytes offset) offset buffer).length := by
  rw [overwrite, List.length_append, List.length_append, List.length_take, grown_length]
  omega

theorem writes_inside (h : Tree fs r kids) (hn : fs.nodes a = some n)
    (hf : hasFlag n.type fsFile = true) (hfit : WriteFits fs n offset buffer.length answer) :
    WritesInside fs a offset buffer answer := by
  by_cases hrange : offset + buffer.length < 4294967296
  · obtain ⟨ret, fs', hr, ⟨rfl, rfl, -⟩ | ⟨-, -, hw⟩⟩ := defaultWrite_spec h.owned hn hrange answer
    · exact ⟨-1, fs', hr, Or.inl ⟨rfl, rfl⟩⟩
    · refine ⟨ret, fs', hr, Or.inr ⟨?_, hw⟩⟩
      rw [hw.data]
      exact overwrite_room _ _ _
  · obtain ⟨hlt, hg⟩ := hfit.resolve_left hrange
    refine ⟨-1, fs, ?_, Or.inl ⟨rfl, rfl⟩⟩
    rw [defaultWrite, hn]
    simp only [Option.bind_eq_bind, Option.bind_some, hf, Bool.not_true,
      Bool.false_eq_true, if_false]
    rw [expand, if_pos hlt, hg]
    rfl

theorem write_outside (h : Tree fs r kids) (hn : fs.nodes a = some n)
    (hf : hasFlag n.type fsFile = true) (hoffset : offset < 4294967296)
    (hsize : buffer.length < 4294967296) (hfit : ¬ WriteFits fs n offset buffer.length answer) :
    defaultWrite fs a offset buffer answer = none := by
  obtain ⟨hwrap, hask⟩ := not_or.mp hfit
  have hsmall : n.size ≤ 4194288 := h.owned.small a n.bare (contents_eq hn)
  obtain ⟨ok, fs₁, hexpand, hcase⟩ :=
    expand_spec h.owned hn ((offset + buffer.length) % 4294967296) answer
  cases hr : defaultWrite fs a offset buffer answer with
  | none => rfl
  | some x =>
    exfalso
    rw [defaultWrite, hn] at hr
    simp only [Option.bind_eq_bind, Option.bind_some, hf, Bool.not_true, Bool.false_eq_true,
      if_false, hexpand] at hr
    obtain ⟨rfl, rfl, hg⟩ | ⟨rfl, hw⟩ := hcase
    · -- nothing is asked for when the wrapped sum is inside the file
      refine hask ⟨?_, hg⟩
      by_contra hle
      rw [expand, if_neg hle] at hexpand
      cases hexpand
    · rw [if_pos rfl] at hr
      obtain ⟨m, hm, hsz⟩ := hw.node hn
      obtain ⟨m', hm', hr⟩ := Option.bind_eq_some_iff.mp hr
      rw [hm, Option.some.injEq] at hm'
      subst hm'
      obtain ⟨fs₂, hwrite, -⟩ := Option.bind_eq_some_iff.mp hr
      rw [grown_length, dataOf_length h.owned hn] at hsz
      rcases writeData_in hw.owned hm hwrite with hb | hin
      · rw [hb, List.length_nil] at hwrap
        omega
      · omega

/-- **When `default_read` and `default_write` stay inside the file**: a read does unless the sum of
its arguments wraps before the end of the file, and a write unless the sum wraps and no memory is
refused for it. -/
theorem inside_iff (h : Tree fs r kids) (hn : fs.nodes a = some n)
    (hf : hasFlag n.type fsFile = true) (hoffset : offset < 4294967296)
    (hsize : size < 4294967296) :
    (ReadsInside fs a offset size ↔ ¬ ReadWraps n offset size) ∧
      ∀ buffer answer, buffer.length = size →
        (WritesInside fs a offset buffer answer ↔ WriteFits fs n offset size answer) := by
  refine ⟨⟨fun hr hw => ?_, reads_inside h hn hf⟩, ?_⟩
  · rw [ReadsInside, read_outside h hn hf hsize hw] at hr
    cases hr.1
  · rintro buffer answer rfl
    refine ⟨?_, writes_inside h hn hf⟩
    rintro ⟨ret, fs', hr, -⟩
    by_contra hfit
    rw [write_outside h hn hf hoffset hsize hfit] at hr
    cases hr

theorem reach_two_bytes : ∃ fs n, calls.Reach fs ∧ fs.nodes 8192 = some n ∧ n.size = 2 ∧
    hasFlag n.type fsFile = true := by
  obtain ⟨fs₁, fs₂, fs₃, n, h₁, hl₁, h₂, hl₂, h₃, hl₃, hn, hsize, hf⟩ : ∃ fs₁ fs₂ fs₃ n,
      call (ramfsInit empty (some 4096)) (.create 4096 [97] fsFile (some 8192)) = some fs₁ ∧
      ((ramfsInit empty (some 4096)).nodes 4096).isSome = true ∧
      call fs₁ (.open 8192 3 (some 12288)) = some fs₂ ∧ (fs₁.nodes 8192).isSome = true ∧
      call fs₂ (.write 12288 [98, 99] (some 16384)) = some fs₃ ∧ (fs₂.files 12288).isSome = true ∧
      fs₃.nodes 8192 = some n ∧ n.size = 2 ∧ hasFlag n.type fsFile = true :=
    ⟨_, _, _, _, rfl, rfl, rfl, rfl, rfl, rfl, rfl, rfl, rfl⟩
  have hr₀ : calls.Reach (ramfsInit empty (some 4096)) := .init ⟨4096, by decide, rfl⟩
  have hr₁ : calls.Reach fs₁ := hr₀.step (e := .create 4096 [97] fsFile (some 8192)) ⟨hl₁, h₁⟩
  have hr₂ : calls.Reach fs₂ := hr₁.step (e := .open 8192 3 (some 12288)) ⟨hl₂, h₂⟩
  have hr₃ : calls.Reach fs₃ := hr₂.step (e := .write 12288 [98, 99] (some 16384)) ⟨hl₃, h₃⟩
  exact ⟨fs₃, n, hr₃, hn, hsize, hf⟩

/-- A read and a write inside the file. -/
theorem inside_iff_two : ∃ fs, calls.Reach fs ∧ ReadsInside fs 8192 1 100 ∧
    WritesInside fs 8192 1 [97] none := by
  obtain ⟨fs, n, hr, hn, -, hf⟩ := reach_two_bytes
  obtain ⟨r, kids, ht⟩ := tree_reach hr
  have h100 := inside_iff ht hn hf (show 1 < 4294967296 by decide) (show 100 < 4294967296 by decide)
  have h1 := inside_iff ht hn hf (show 1 < 4294967296 by decide) (show 1 < 4294967296 by decide)
  refine ⟨fs, hr, h100.1.mpr (fun hw => ?_), (h1.2 [97] none rfl).mpr (Or.inl (by decide))⟩
  exact absurd hw.2 (by decide)

/-- **Reading the rest of a file** with the largest size goes on behind its end, and writing as much
does. -/
theorem largest_size_outside : ∃ fs n, calls.Reach fs ∧ fs.nodes 8192 = some n ∧
    hasFlag n.type fsFile = true ∧ ¬ ReadsInside fs 8192 1 4294967295 ∧
    ∀ buffer : Bytes, buffer.length = 4294967295 → ¬ WritesInside fs 8192 1 buffer none := by
  obtain ⟨fs, n, hr, hn, hsize, hf⟩ := reach_two_bytes
  obtain ⟨r, kids, ht⟩ := tree_reach hr
  refine ⟨fs, n, hr, hn, hf, fun hread => ?_, fun buffer hlen hwrite => ?_⟩
  · have hwraps : ReadWraps n 1 4294967295 := ⟨by omega, by decide⟩
    rw [ReadsInside, read_outside ht hn hf (by decide) hwraps] at hread
    cases hread.1
  · obtain ⟨ret, fs', hw, -⟩ := hwrite
    have hfit : ¬ WriteFits fs n 1 buffer.length none := by
      rw [hlen]
      rintro (hlt | ⟨hlt, -⟩)
      · exact absurd hlt (by decide)
      · exact Nat.not_lt_zero _ hlt
    rw [write_outside ht hn hf (by decide) (by omega) hfit] at hw
    cases hw

end CobraOS.Ramfs
