import CobraOS.Ramfs.Cursor
import CobraOS.Ramfs.Nameable
import CobraOS.Screen.Format

/-!
# What the shell prints of texts that it is given

`echo`, `ls` and `pwd` hand the texts that they print to `viprint`, which takes each for a format,
and so does `vfs_resolve_path` with the names of the directories to which `..` leads.  So what is
typed and the names of nodes are printed as they are when they have no conversions, and only then:
otherwise something else is printed, or arguments are read that are not there (`verbatim_shown`).
-/

namespace CobraOS.Ramfs

open Base Screen

variable {fs : Fs} {r a : Nat} {n : VfsNode} {kids : Nat → List Nat} {printed : List Print}
  {mem : Screen.Word → Bytes} {args : Nat → Screen.Word} {junk : Bytes}

/-- `cmd_echo` -/
def cmdEcho (args : Bytes) : List Print := [.viprint args, say "\n"]

/-- The characters that are meant to be printed. -/
def Print.chars : Print → Bytes
  | .viprint t => t
  | .cprint t => t
  | .lenbuf digits => digits

/-- What is printed, and how many arguments are read, where `junk` stands behind the digits in
`lenbuf`. -/
def Print.shown (mem : Screen.Word → Bytes) (args : Nat → Screen.Word) (junk : Bytes) :
    Print → Bytes × Nat
  | .viprint t => Screen.viprint mem args t
  | .cprint t => (t, 0)
  | .lenbuf digits => Screen.viprint mem args (digits ++ junk)

def shown (mem : Screen.Word → Bytes) (args : Nat → Screen.Word) (junk : Bytes)
    (printed : List Print) : Bytes :=
  (printed.map fun t => (t.shown mem args junk).1).flatten

/-- How many arguments that are not there are read. -/
def argumentsRead (mem : Screen.Word → Bytes) (args : Nat → Screen.Word) (junk : Bytes)
    (printed : List Print) : Nat :=
  (printed.map fun t => (t.shown mem args junk).2).sum

/-- The texts are printed as they are, and neither arguments nor bytes that were never written are
read. -/
def Verbatim (printed : List Print) : Prop :=
  printed.all Print.Ends = true ∧ ∀ mem args junk,
    shown mem args junk printed = (printed.map Print.chars).flatten ∧
      argumentsRead mem args junk printed = 0

/-- It is printed as it is. -/
def Print.AsIs : Print → Prop
  | .viprint t => Plain t
  | .cprint _ => True
  | .lenbuf _ => False

theorem viprint_asIs {t : Bytes} : (Print.viprint t).AsIs ↔ Plain t := Iff.rfl

theorem say_asIs {s : String} (h : percent ∉ text s) : (say s).AsIs := plain_of_notMem h

theorem Print.AsIs.shown {t : Print} (h : t.AsIs) : t.shown mem args junk = (t.chars, 0) := by
  cases t with
  | viprint t => exact viprint_eq_iff.mpr h
  | cprint t => rfl
  | lenbuf digits => exact absurd h id

theorem Print.AsIs.ends {t : Print} (h : t.AsIs) : t.Ends = true := by
  cases t with
  | viprint t => rfl
  | cprint t => rfl
  | lenbuf digits => exact absurd h id

/-- When no argument is read, what is printed of a text is no longer than the text, and as long only
when it has no conversions. -/
theorem Print.shown_short {t : Print} (hends : t.Ends = true) (h : (t.shown mem args junk).2 = 0) :
    (t.shown mem args junk).1.length ≤ t.chars.length ∧
      ((t.shown mem args junk).1.length = t.chars.length → t.AsIs) := by
  cases t with
  | viprint t => exact viprintFrom_short (n := 0) h
  | cprint t => exact ⟨Nat.le_refl _, fun _ => trivial⟩
  | lenbuf digits => cases hends

theorem shown_short (hends : printed.all Print.Ends = true)
    (hread : argumentsRead mem args junk printed = 0) :
    (shown mem args junk printed).length ≤ (printed.map Print.chars).flatten.length ∧
      ((shown mem args junk printed).length = (printed.map Print.chars).flatten.length →
        ∀ t ∈ printed, t.AsIs) := by
  induction printed with
  | nil => exact ⟨Nat.le_refl _, fun _ t ht => by cases ht⟩
  | cons t printed ih =>
    rw [List.all_cons, Bool.and_eq_true] at hends
    obtain ⟨ht, hrest⟩ : (t.shown mem args junk).2 = 0 ∧
        argumentsRead mem args junk printed = 0 := by
      simpa [argumentsRead] using hread
    obtain ⟨hle, hasIs⟩ := Print.shown_short hends.1 ht
    obtain ⟨hle', hasIs'⟩ := ih hends.2 hrest
    have hshown : (shown mem args junk (t :: printed)).length =
        (t.shown mem args junk).1.length + (shown mem args junk printed).length :=
          List.length_append
    have hflat : ((t :: printed).map Print.chars).flatten.length =
        t.chars.length + (printed.map Print.chars).flatten.length := List.length_append
    rw [hshown, hflat]
    refine ⟨Nat.add_le_add hle hle', fun heq u hu => ?_⟩
    obtain rfl | hu := List.mem_cons.mp hu
    · exact hasIs (by omega)
    · exact hasIs' (by omega) u hu

/-- **Texts are printed as they are if and only if they have no conversions.** -/
theorem verbatim_iff : Verbatim printed ↔ ∀ t ∈ printed, t.AsIs := by
  constructor
  · rintro ⟨hends, h⟩
    obtain ⟨hshown, hread⟩ := h (fun _ => []) (fun _ => 0) []
    exact (shown_short hends hread).2 (congrArg List.length hshown)
  · refine fun h => ⟨List.all_eq_true.mpr fun t ht => (h t ht).ends, fun mem args junk => ?_⟩
    refine ⟨congrArg List.flatten ?_, List.sum_eq_zero fun x hx => ?_⟩
    · exact List.map_congr_left fun t ht => congrArg Prod.fst (h t ht).shown
    · obtain ⟨t, ht, rfl⟩ := List.mem_map.mp hx
      exact congrArg Prod.snd (h t ht).shown

theorem verbatim_append {printed' : List Print} :
    Verbatim (printed ++ printed') ↔ Verbatim printed ∧ Verbatim printed' := by
  simp only [verbatim_iff, List.mem_append, or_imp, forall_and]

theorem verbatim_say {s : String} (h : percent ∉ text s) : Verbatim [say s] := by
  rw [verbatim_iff]
  intro t ht
  rw [List.mem_singleton.mp ht]
  exact say_asIs h

/-! ### Resolution -/

/-- The directories to which `..` leads on the way along the components. -/
def climbs (fs : Fs) (kids : Nat → List Nat) : Nat → List Bytes → List Nat
  | _, [] => []
  | a, name :: names =>
    match pathStep fs kids a name with
    | none => []
    | some b =>
      (if name = text ".." then ((linksOf fs).parent a).toList else []) ++ climbs fs kids b names

theorem noParent_verbatim : Verbatim [say "vfs_resolve_path: .. but no parent, stay at root\n"] :=
  verbatim_say (by decide)

theorem climb_verbatim {name : Bytes} :
    Verbatim [say "vfs_resolve_path: .. -> '", .viprint name, say "'\n"] ↔ Plain name := by
  have hbefore := say_asIs (s := "vfs_resolve_path: .. -> '") (by decide)
  have hbehind := say_asIs (s := "'\n") (by decide)
  rw [verbatim_iff]
  simp [hbefore, hbehind, viprint_asIs]

/-- What one component prints is the name of the directory to which it leads up. -/
theorem stepInto_verbatim {name : Bytes} {x : List Print × Option Nat}
    (hs : stepInto fs a name = some x) : Verbatim x.1 ↔
      ∀ b ∈ (if name = text ".." then ((linksOf fs).parent a).toList else []),
        Plain (nameOf fs b) := by
  unfold stepInto at hs
  split at hs
  · rename_i hdot
    rw [← Option.some.inj hs, hdot, if_neg (by decide), verbatim_iff]
    simp
  · split at hs
    · obtain ⟨n, hn, hs⟩ := Option.bind_eq_some_iff.mp hs
      have hparent : (linksOf fs).parent a = n.parent := by simp [linksOf, hn]
      rw [if_pos ‹_›, hparent]
      cases hp : n.parent with
      | none =>
        rw [hp] at hs
        rw [← Option.some.inj hs]
        exact iff_of_true noParent_verbatim (by simp)
      | some p =>
        rw [hp] at hs
        obtain ⟨m, hm, hs⟩ := Option.bind_eq_some_iff.mp hs
        rw [← Option.some.inj hs, ← nameOf_eq hm]
        exact climb_verbatim.trans (by simp)
    · obtain ⟨child, -, hs⟩ := Option.bind_eq_some_iff.mp hs
      rw [← Option.some.inj hs, if_neg ‹_›, verbatim_iff]
      simp

theorem travel_verbatim (h : Tree fs r kids) : ∀ {l : List Bytes} {a : Nat}
    {x : List Print × Option Nat},
    Live fs a → travel fs a l = some x →
      (Verbatim x.1 ↔ ¬ ReachesLong fs kids a l ∧ ∀ b ∈ climbs fs kids a l,
        Plain (nameOf fs b)) := by
  intro l
  induction l with
  | nil =>
    intro a x _ hx
    rw [travel] at hx
    rw [← Option.some.inj hx, verbatim_iff]
    refine iff_of_true (fun t ht => by cases ht) ⟨?_, fun b hb => by cases hb⟩
    rintro ⟨before, name, behind, b, hsplit, -⟩
    exact absurd hsplit.symm (by simp)
  | cons name l ih =>
    intro a x ha hx
    rw [reachesLong_cons]
    rw [travel] at hx
    by_cases hlong : vfsNameMax < name.length
    · rw [if_pos hlong] at hx
      rw [← Option.some.inj hx]
      exact iff_of_false (fun hv => by cases hv.1) fun hno => hno.1 (.inl hlong)
    obtain ⟨heq, hlive⟩ := follow_step h ha (Nat.not_lt.mp hlong)
    obtain ⟨⟨printed, next⟩, hs, hnext⟩ := Option.map_eq_some_iff.mp heq
    have hstep := stepInto_verbatim hs
    rw [if_neg hlong, hs] at hx
    rw [climbs, ← hnext]
    rw [← hnext] at hlive
    cases next with
    | none =>
      have hname : name ≠ text ".." := by
        rintro rfl
        rw [pathStep, if_neg hlong, if_neg (by decide), if_pos rfl] at hnext
        cases hnext
      rw [if_neg hname] at hstep
      rw [← Option.some.inj hx]
      exact iff_of_true (hstep.mpr fun b hb => by cases hb)
        ⟨by simp [hlong], fun b hb => by cases hb⟩
    | some b =>
      simp only [Option.bind_eq_bind, Option.bind_some] at hx
      obtain ⟨y, hy, hx⟩ := Option.bind_eq_some_iff.mp hx
      rw [← Option.some.inj hx]
      dsimp only at hstep ⊢
      rw [verbatim_append, hstep, ih (hlive b rfl) hy]
      simp only [List.mem_append, or_imp, forall_and, Option.some.injEq, exists_eq_left',
        hlong, false_or]
      exact and_left_comm

/-! ### Listings -/

/-- What `ls` prints for a child. -/
def entryOf (fs : Fs) (c : Nat) : List Print :=
  .viprint (nameOf fs c) ::
    (if (fs.nodes c).any (fun n => hasFlag n.type fsDirectory) then [say "/"] else []) ++ [say "\n"]

theorem listChildren_eq : ∀ {l : List Nat} {fuel : Nat} {p : Option Nat}, Chain (links fs) p l →
    (∀ c ∈ l, Live fs c) → l.length ≤ fuel →
      listChildren fs fuel p = some (l.flatMap (entryOf fs)) := by
  intro l
  induction l with
  | nil =>
    intro fuel p hp _ _
    rw [Chain.nil_iff] at hp
    subst hp
    cases fuel <;> rfl
  | cons c l ih =>
    intro fuel p hp hlive hlen
    obtain ⟨rfl, hp⟩ := hp
    obtain ⟨n, hn⟩ := live_iff.mp (hlive c (by simp))
    obtain ⟨fuel, rfl⟩ : ∃ m, fuel = m + 1 := ⟨fuel - 1, by simp at hlen; omega⟩
    have hnext : links fs c = n.next := by simp [links, hn]
    rw [hnext] at hp
    have hrest := ih hp (fun d hd => hlive d (by simp [hd])) (by simpa using hlen)
    rw [listChildren, hn]
    simp only [Option.bind_eq_bind, Option.bind_some, hrest]
    simp [entryOf, nameOf_eq hn, hn]

theorem verbatim_entry (c : Nat) : Verbatim (entryOf fs c) ↔ Plain (nameOf fs c) := by
  have hslash : (say "/").AsIs := say_asIs (by decide)
  have hnewline : (say "\n").AsIs := say_asIs (by decide)
  rw [verbatim_iff, entryOf]
  split <;> simp [hslash, hnewline, viprint_asIs]

theorem verbatim_entries {l : List Nat} :
    Verbatim (l.flatMap (entryOf fs)) ↔ ∀ c ∈ l, Plain (nameOf fs c) := by
  simp only [← verbatim_entry, verbatim_iff, List.mem_flatMap]
  exact ⟨fun h c hc t ht => h t ⟨c, hc, ht⟩, fun h t ⟨c, hc, ht⟩ => h c hc t ht⟩

/-- What is printed when `dir` is listed. -/
def listing (fs : Fs) (kids : Nat → List Nat) : Option Nat → List Print
  | none => [say "ls: directory not found.\n"]
  | some a =>
    if !(fs.nodes a).any (fun n => hasFlag n.type fsDirectory) then [say "ls: not a directory.\n"]
    else if kids a = [] then [say "(empty)\n"]
    else (kids a).flatMap (entryOf fs)

/-- **`ls` prints the listing** behind what the resolution of its path has printed. -/
theorem cmdLs_eq (h : Tree fs r kids) {cwd dir : Option Nat} {path : Bytes}
    (hl : listed ⟨fs, cwd⟩ path = some (printed, dir)) (hdir : ∀ a ∈ dir, Live fs a) :
    cmdLs ⟨fs, cwd⟩ path = some (⟨fs, cwd⟩, printed ++ listing fs kids dir) := by
  rw [cmdLs, hl]
  simp only [Option.bind_eq_bind, Option.bind_some]
  cases dir with
  | none => rfl
  | some a =>
    obtain ⟨n, hn⟩ := live_iff.mp (hdir a rfl)
    have hchain := h.chain hn
    rw [listing, hn]
    dsimp only
    rw [hn, Option.bind_some, Option.any_some]
    by_cases hflag : (!hasFlag n.type fsDirectory) = true
    · rw [if_pos hflag, if_pos hflag]
    · rw [if_neg hflag, if_neg hflag]
      cases hc : n.children with
      | none =>
        rw [hc, Chain.none_iff] at hchain
        rw [if_pos hchain]
        rfl
      | some c =>
        have hloop :=
          listChildren_eq hchain (fun d hd => h.tree.kids_live hd) (Nat.le_of_lt h.kids_short)
        have hne : kids a ≠ [] := fun hnil => by
          rw [hnil, hc] at hchain
          cases hchain
        rw [hc] at hloop
        rw [if_neg hne, hloop]
        rfl

theorem verbatim_listing {dir : Option Nat} (h : Tree fs r kids) : Verbatim (listing fs kids dir) ↔
    ∀ a ∈ dir, ∀ c ∈ kids a, Plain (nameOf fs c) := by
  cases dir with
  | none =>
    exact iff_of_true (verbatim_say (s := "ls: directory not found.\n") (by decide)) (by simp)
  | some a =>
    have hkids : (∀ b ∈ some a, ∀ c ∈ kids b, Plain (nameOf fs c)) ↔
        ∀ c ∈ kids a, Plain (nameOf fs c) := by simp
    rw [listing, hkids]
    split
    · rename_i hfile
      have hnil : kids a = [] := List.eq_nil_iff_forall_not_mem.mpr fun c hc => by
        obtain ⟨n, hn⟩ := live_iff.mp (h.dir a c hc).live
        rw [hn, Option.any_some, (flagged_iff hn).mp (h.dir a c hc)] at hfile
        cases hfile
      rw [hnil]
      exact iff_of_true (verbatim_say (s := "ls: not a directory.\n") (by decide)) (by simp)
    · split
      · rename_i hnil
        rw [hnil]
        exact iff_of_true (verbatim_say (s := "(empty)\n") (by decide)) (by simp)
      · exact verbatim_entries

theorem listed_spec (h : Tree fs r kids) (hcwd : ∀ d ∈ fs.cwd, Live fs d) {cwd : Option Nat}
    (hshell : ∀ d ∈ cwd, Live fs d) (path : Bytes) : ∃ printed dir,
    listed ⟨fs, cwd⟩ path = some (printed, dir) ∧ (∀ a ∈ dir, Live fs a) ∧
      dir = (if path = [] then cwd else pathFold fs kids r path fs.cwd) ∧
      (Verbatim printed ↔ path ≠ [] →
        ¬ ReachesLong fs kids (startOf fs r path) (components slash path) ∧
        ∀ b ∈ climbs fs kids (startOf fs r path) (components slash path), Plain (nameOf fs b)) := by
  unfold listed
  by_cases hpath : path = []
  · rw [if_pos hpath, if_pos hpath]
    refine ⟨[], cwd, rfl, hshell, rfl, iff_of_true (verbatim_iff.mpr fun t ht => by cases ht) ?_⟩
    exact fun hne => absurd hpath hne
  have hstart : Live fs (startOf fs r path) := by
    unfold startOf
    split
    · exact h.rootDir.live
    · cases hd : fs.cwd with
      | none => exact h.rootDir.live
      | some d => exact hcwd d hd
  obtain ⟨⟨printed, dir⟩, hres, hlive⟩ := ramfsResolve_spec h hcwd path
  obtain ⟨x, hx, hfold, -⟩ := travel_fold (l := components slash path) h hstart
  have hverb := travel_verbatim h hstart hx
  have htravel : vfsResolvePath fs (some r) path fs.cwd = _ := resolve_travel hpath fs.cwd
  rw [if_neg hpath, if_neg hpath]
  refine ⟨printed, dir, hres, hlive, ?_⟩
  rw [ramfsResolve, h.root, htravel] at hres
  rw [pathFold, ← startOf, ← hfold]
  by_cases hnil : components slash path = []
  · rw [if_pos hnil] at hres
    rw [hnil] at hx hverb ⊢
    obtain rfl := Option.some.inj hx
    obtain ⟨rfl, rfl⟩ := Prod.mk.inj (Option.some.inj hres)
    refine ⟨rfl,
      iff_of_true (verbatim_say (s := "vfs_resolve_path: path is root only\n") (by decide)) ?_⟩
    exact fun _ => hverb.mp (verbatim_iff.mpr fun t ht => by cases ht)
  · rw [if_neg hnil, ← startOf, hx] at hres
    obtain rfl := Option.some.inj hres
    exact ⟨rfl, hverb.trans ⟨fun hv _ => hv, fun hv => hv hpath⟩⟩

/-! ### Paths -/

theorem mem_intersperse {sep t : Bytes} {names : List Bytes} (ht : t ∈ names.intersperse sep) :
    t = sep ∨ t ∈ names := by
  induction names with
  | nil => cases ht
  | cons x names ih =>
    cases names with
    | nil => exact Or.inr ht
    | cons y names =>
      rw [List.intersperse_cons_cons, List.mem_cons, List.mem_cons] at ht
      obtain rfl | rfl | ht := ht
      · exact Or.inr (List.mem_cons_self ..)
      · exact Or.inl rfl
      · exact (ih ht).imp_right (List.mem_cons_of_mem _)

theorem mem_intersperse_of_mem {sep t : Bytes} {names : List Bytes} (ht : t ∈ names) :
    t ∈ names.intersperse sep := by
  induction names with
  | nil => cases ht
  | cons x names ih =>
    cases names with
    | nil => exact ht
    | cons y names =>
      rw [List.intersperse_cons_cons]
      obtain rfl | ht := List.mem_cons.mp ht
      · exact List.mem_cons_self ..
      · exact List.mem_cons_of_mem _ (List.mem_cons_of_mem _ (ih ht))

theorem verbatim_path {names : List Bytes} :
    Verbatim (([slash] :: names.intersperse [slash]).map .viprint ++ [say "\n"]) ↔
      ∀ name ∈ names, Plain name := by
  have hslash : Plain [slash] := plain_of_notMem (by decide)
  have hnewline := say_asIs (s := "\n") (by decide)
  simp only [verbatim_iff, List.mem_append, List.mem_map, List.mem_singleton]
  constructor
  · intro h name hname
    exact h _ (.inl ⟨name, List.mem_cons_of_mem _ (mem_intersperse_of_mem hname), rfl⟩)
  · rintro h _ (⟨t, ht, rfl⟩ | rfl)
    · obtain rfl | ht := List.mem_cons.mp ht
      · exact hslash
      · obtain rfl | ht := mem_intersperse ht
        · exact hslash
        · exact h t ht
    · exact hnewline

theorem cmdPwd_eq (h : Tree fs r kids) (ha : Live fs a) : ∃ l, Descent kids r l a ∧
    cmdPwd ⟨fs, some a⟩ =
      some (([slash] :: (l.map (nameOf fs)).intersperse [slash]).map .viprint ++ [say "\n"]) := by
  obtain ⟨l, hd, -⟩ := h.tree.existsUnique_descent ha
  refine ⟨l, hd, ?_⟩
  rw [cmdPwd]
  dsimp only
  rw [printPath_descent h (descent_short h hd) hd]
  rfl

/-! ### All that is printed -/

/-- **`echo` prints what is typed, and `ls` and `pwd` print the names of nodes, as they are** if and
only if they have no conversions.  For `ls` that is about all that it prints: the names of the
directories to which `..` leads in its path as well, and no component that is reached may be too
long. -/
theorem verbatim_shown (h : Tree fs r kids) (hcwd : ∀ d ∈ fs.cwd, Live fs d) :
    (∀ args, Verbatim (cmdEcho args) ↔ Plain args) ∧
    (∀ cwd path, (∀ d ∈ cwd, Live fs d) → ∃ printed, cmdLs ⟨fs, cwd⟩ path =
      some (⟨fs, cwd⟩, printed) ∧
      (Verbatim printed ↔
        (path ≠ [] → ¬ ReachesLong fs kids (startOf fs r path) (components slash path) ∧
          ∀ b ∈ climbs fs kids (startOf fs r path) (components slash path), Plain (nameOf fs b)) ∧
        ∀ a ∈ if path = [] then cwd else pathFold fs kids r path fs.cwd, ∀ c ∈ kids a,
          Plain (nameOf fs c))) ∧
    ∀ a, Live fs a → ∃ l printed, Descent kids r l a ∧ cmdPwd ⟨fs, some a⟩ = some printed ∧
      (Verbatim printed ↔ ∀ c ∈ l, Plain (nameOf fs c)) := by
  refine ⟨fun args => ?_, fun cwd path hshell => ?_, fun a ha => ?_⟩
  · have hnewline := say_asIs (s := "\n") (by decide)
    rw [verbatim_iff, cmdEcho]
    simp [hnewline, viprint_asIs]
  · obtain ⟨printed, dir, hl, hdir, hfound, hverb⟩ := listed_spec h hcwd hshell path
    refine ⟨_, cmdLs_eq h hl hdir, ?_⟩
    rw [verbatim_append, hverb, verbatim_listing h, hfound]
  · obtain ⟨l, hd, hp⟩ := cmdPwd_eq h ha
    refine ⟨l, _, hd, hp, ?_⟩
    rw [verbatim_path]
    simp

/-- Below a directory `d` with a directory `e` in it, the listing of `d` is printed as it is. -/
theorem verbatim_shown_parent : ∃ fs kids printed, Tree fs 4096 kids ∧
    ((exec (boot 4096) (.mkdir (text "d") (some 8192))).bind
      fun sh => exec sh (.mkdir (text "d/e") (some 12288))) = some ⟨fs, some 4096⟩ ∧
    printed.map Print.chars = [text "vfs_resolve_path: .. -> '", text "d", text "'\n", text "e",
      text "/", text "\n"] ∧
    cmdLs ⟨fs, some 4096⟩ (text "d/e/..") = some (⟨fs, some 4096⟩, printed) ∧ Verbatim printed := by
  obtain ⟨fs₁, fs₂, h₁, h₂, hr, hd, he, hls⟩ : ∃ fs₁ fs₂,
      exec (boot 4096) (.mkdir (text "d") (some 8192)) = some ⟨fs₁, some 4096⟩ ∧
      exec ⟨fs₁, some 4096⟩ (.mkdir (text "d/e") (some 12288)) = some ⟨fs₂, some 4096⟩ ∧
      fs₂.nodes 4096 = some ⟨text "/", fsDirectory, 0, none, none, some 8192, none⟩ ∧
      fs₂.nodes 8192 = some ⟨text "d", fsDirectory, 0, none, some 4096, some 12288, none⟩ ∧
      fs₂.nodes 12288 = some ⟨text "e", fsDirectory, 0, none, some 8192, none, none⟩ ∧
      cmdLs ⟨fs₂, some 4096⟩ (text "d/e/..") = some (⟨fs₂, some 4096⟩,
        [say "vfs_resolve_path: .. -> '", .viprint (text "d"), say "'\n", .viprint (text "e"),
          say "/", say "\n"]) :=
    ⟨_, _, rfl, rfl, rfl, rfl, rfl, rfl⟩
  have hspare : ∀ sh args answer, Spares sh (.mkdir args answer) := fun _ _ _ _ ha => by cases ha
  obtain ⟨d₁, hg₁⟩ := (boot_good (a := 4096) (by decide)).exec (by exact trivial) (hspare _ _ _) h₁
  obtain ⟨d₂, hg₂⟩ := hg₁.exec (by exact trivial) (hspare _ _ _) h₂
  obtain ⟨kids, ht⟩ := hg₂.tree
  have hlinks : links fs₂ 8192 = none ∧ links fs₂ 12288 = none := by simp [links, hd, he]
  have hroot : kids 4096 = [8192] := (ht.chain hr).unique ⟨rfl, hlinks.1⟩
  have hbelow : kids 8192 = [12288] := (ht.chain hd).unique ⟨rfl, hlinks.2⟩
  have hstart : startOf fs₂ 4096 (text "d/e/..") = 4096 := by
    rw [startOf, if_neg (by decide), hg₂.cwd, ← Option.some.inj hg₂.shell]
    rfl
  have hsteps : pathStep fs₂ kids 4096 (text "d") = some 8192 ∧
      pathStep fs₂ kids 8192 (text "e") = some 12288 ∧
      pathStep fs₂ kids 12288 (text "..") = some 8192 := by
    refine ⟨?_, ?_, ?_⟩ <;>
      simp +decide [pathStep, childNamed, linksOf, hr, hd, he, hroot, hbelow]
  have hcomponents : components slash (text "d/e/..") = [text "d", text "e", text ".."] := by decide
  obtain ⟨printed, hp, hverb⟩ :=
    (verbatim_shown ht (fun d hd => cwd_live hg₂ d hd)).2.1 (some 4096) (text "d/e/..")
    fun d hd => Option.some.inj hd ▸ Live.mk hr
  rw [hls] at hp
  obtain rfl := congrArg Prod.snd (Option.some.inj hp)
  refine ⟨fs₂, kids, _, ht, by rw [h₁, Option.bind_some, h₂], rfl, hls,
    hverb.mpr ⟨fun _ => ⟨?_, ?_⟩, ?_⟩⟩
  · rw [hstart, hcomponents]
    rintro ⟨before, name, behind, b, hsplit, -, hlong⟩
    have hshort : ∀ name ∈ [text "d", text "e", text ".."], name.length ≤ vfsNameMax := by decide
    exact absurd hlong (Nat.not_lt.mpr (hshort name (hsplit ▸ by simp)))
  · intro b hb
    have : b = 8192 := by
      simpa +decide [hstart, hcomponents, climbs, hsteps, linksOf, he] using hb
    rw [this, nameOf_eq hd]
    exact plain_of_notMem (by decide)
  · rw [if_neg (by decide)]
    intro a ha c hc
    rw [pathFold, ← startOf, hstart, hcomponents] at ha
    have : a = 8192 := by simpa [List.foldlM_cons, hsteps, eq_comm] using ha
    rw [this, hbelow, List.mem_singleton] at hc
    rw [hc, nameOf_eq he]
    exact plain_of_notMem (by decide)

/-- `echo %d` prints a number that nobody has given. -/
theorem echo_percent_d : ¬ Verbatim (cmdEcho (text "%d")) := by
  rintro ⟨-, h⟩
  exact absurd (h (fun _ => []) (fun _ => 0) []).2 (by decide)

end CobraOS.Ramfs
