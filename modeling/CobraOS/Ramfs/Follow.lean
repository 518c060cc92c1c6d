import CobraOS.Base.Components
import CobraOS.Ramfs.Paths

/-!
# Following the components of a path

`vfs_resolve_path` scans the text of a path.  It does what `travel` does, which goes from node to
node along the components of the path (`resolve_travel`), so it finds what `follow` finds, which
does not print (`resolve_eq`).
-/

namespace CobraOS.Ramfs

open Base

variable {fs : Fs} {r a b : Nat} {kids : Nat → List Nat} {name path : Bytes}

/-- The node to which the components lead; the outer `none` is for a pointer to no node. -/
def follow (fs : Fs) : Nat → List Bytes → Option (Option Nat)
  | a, [] => some (some a)
  | a, token :: tokens =>
    if vfsNameMax < token.length then some none
    else do
      let (_, next) ← stepInto fs a token
      match next with
      | none => some none
      | some b => follow fs b tokens

/-- The same with what is printed. -/
def travel (fs : Fs) : Nat → List Bytes → Option (List Print × Option Nat)
  | a, [] => some ([], some a)
  | a, token :: tokens =>
    if vfsNameMax < token.length then
      some ([say "vfs_resolve_path: token too long (",
        .lenbuf (intToStr (BitVec.ofNat 32 token.length).toInt), say ")\n"], none)
    else do
      let (printed, next) ← stepInto fs a token
      match next with
      | none => some (printed, none)
      | some b => do
        let (printed', result) ← travel fs b tokens
        some (printed ++ printed', result)

theorem travel_follow (fs : Fs) : ∀ (l : List Bytes) (a : Nat), (travel fs a l).map Prod.snd =
    follow fs a l := by
  intro l
  induction l with
  | nil => exact fun _ => rfl
  | cons token l ih =>
    intro a
    rw [travel, follow]
    split
    · rfl
    · cases hs : stepInto fs a token with
      | none => rfl
      | some y =>
        obtain ⟨printed, next⟩ := y
        cases next with
        | none => rfl
        | some b =>
          simp only [Option.bind_eq_bind, Option.bind_some, ← ih b]
          cases travel fs b l <;> rfl

theorem follow_cons (hlen : name.length ≤ vfsNameMax) {printed : List Print}
    (hs : stepInto fs a name = some (printed, some b)) (tokens : List Bytes) :
    follow fs a (name :: tokens) = follow fs b tokens := by
  rw [follow, if_neg (Nat.not_lt.mpr hlen), hs]
  rfl

theorem follow_append : ∀ {l : List Bytes} {a : Nat} (m : List Bytes),
    follow fs a l = some (some b) →
    follow fs a (l ++ m) = follow fs b m := by
  intro l
  induction l with
  | nil =>
    intro a m h
    rw [follow, Option.some.injEq, Option.some.injEq] at h
    rw [h, List.nil_append]
  | cons token l ih =>
    intro a m h
    rw [List.cons_append]
    rw [follow] at h ⊢
    split at h
    · cases h
    · rename_i hlen
      rw [if_neg hlen]
      obtain ⟨⟨printed, next⟩, hs, hnext⟩ := Option.bind_eq_some_iff.mp h
      rw [hs]
      cases next with
      | none => cases hnext
      | some c => exact ih m hnext

theorem takeWhile_ne_nil (hp : path.dropWhile (· == slash) ≠ []) :
    (path.dropWhile (· == slash)).takeWhile (· != slash) ≠ [] := by
  have hhead := List.head?_dropWhile_not (· == slash) path
  cases hd : path.dropWhile (· == slash) with
  | nil => exact absurd hd hp
  | cons c rest =>
    rw [hd] at hhead
    replace hhead : (c == slash) = false := hhead
    rw [List.takeWhile_cons_of_pos (by rw [bne, hhead]; rfl)]
    exact List.cons_ne_nil _ _

/-- The loop of `vfs_resolve_path` travels along the components of what is left of the path. -/
theorem resolveLoop_travel (fs : Fs) : ∀ {fuel a : Nat} {p : Bytes}, p.length ≤ fuel →
    resolveLoop fs fuel a p = travel fs a (components slash p) := by
  intro fuel
  induction fuel with
  | zero =>
    intro a p hp
    obtain rfl : p = [] := List.length_eq_zero_iff.mp (Nat.le_zero.mp hp)
    rfl
  | succ fuel ih =>
    intro a p hp
    cases p with
    | nil => rfl
    | cons x p =>
      rw [resolveLoop]
      split
      · rename_i htoken
        have hx : x = slash := by
          by_contra hx
          rw [List.takeWhile_cons_of_pos (by simpa using hx)] at htoken
          cases htoken
        rw [List.dropWhile_cons_of_neg (by simp [hx]), List.drop_one, List.tail_cons,
          ih (Nat.le_of_succ_le_succ hp), hx, components_sep]
      · rename_i htoken
        have hrest : ((List.dropWhile (· != slash) (x :: p)).dropWhile (· == slash)).length ≤
            fuel := by
          have hx : (x != slash) = true := by
            by_contra hx
            exact htoken (List.takeWhile_cons_of_neg hx)
          have h1 := (List.dropWhile_suffix (· == slash) (l := p.dropWhile (· != slash))).length_le
          have h2 := (List.dropWhile_suffix (· != slash) (l := p)).length_le
          rw [List.dropWhile_cons_of_pos (p := (· != slash)) hx]
          exact (h1.trans h2).trans (Nat.le_of_succ_le_succ hp)
        rw [components_scan htoken, travel]
        split
        · rfl
        · cases hs : stepInto fs a ((x :: p).takeWhile (· != slash)) with
          | none => rfl
          | some y =>
            obtain ⟨printed, next⟩ := y
            cases next with
            | none => rfl
            | some b => simp only [Option.bind_eq_bind, Option.bind_some, ih hrest]

/-- **`vfs_resolve_path` travels along the components of the path**, and says so when there is
none. -/
theorem resolve_travel (hpath : path ≠ []) (cwd : Option Nat) :
    vfsResolvePath fs (some r) path cwd =
    if components slash path = [] then
      some ([say "vfs_resolve_path: path is root only\n"],
        some (if path.head? = some slash then r else cwd.getD r))
    else travel fs (if path.head? = some slash then r else cwd.getD r) (components slash path) := by
  rw [vfsResolvePath, if_neg hpath, ← components_dropWhile path]
  by_cases hp : path.dropWhile (· == slash) = []
  · simp only [hp, if_true]
    rfl
  · have hsome : components slash (path.dropWhile (· == slash)) ≠ [] := by
      rw [components_scan (takeWhile_ne_nil hp)]
      exact List.cons_ne_nil _ _
    simp only [hp, hsome, if_false]
    exact resolveLoop_travel fs (Nat.le_refl _)

/-- **A path leads where its components lead.** -/
theorem resolve_eq (hpath : path ≠ []) (cwd : Option Nat) :
    (vfsResolvePath fs (some r) path cwd).map Prod.snd =
      follow fs (if path.head? = some slash then r else cwd.getD r) (components slash path) := by
  rw [resolve_travel hpath, ← travel_follow]
  split
  · rename_i hnil
    rw [hnil]
    rfl
  · rfl

/-! ### Going down -/

/-- The name of a node can stand in a path for the node. -/
structure Ordinary (name : Bytes) : Prop where
  ne_nil : name ≠ []
  short : name.length ≤ vfsNameMax
  slash : slash ∉ name
  dot : name ≠ text "."
  dots : name ≠ text ".."

theorem stepInto_child (h : Tree fs r kids) (ha : Flagged fsDirectory fs a) (hdot : name ≠ text ".")
    (hdots : name ≠ text "..") : stepInto fs a name = some ([], childNamed fs (kids a) name) := by
  obtain ⟨n, hn⟩ := live_iff.mp ha.live
  rw [stepInto, if_neg hdot, if_neg hdots, finddir_spec h hn, if_pos ((flagged_iff hn).mp ha)]
  rfl

end CobraOS.Ramfs
