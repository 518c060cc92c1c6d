import CobraOS.Sync.Exclusion

/-!
# Mutual exclusion without the rule, deadlock and progress

Only one activity is in a section, whether the calls keep to the rule or not (`mutual_exclusion`).
The rule is what keeps the owner of the lock running: once an activity waits for a lock that belongs
to one which it has interrupted, the lock is never released again (`interrupted_owner_stuck`).
Under the rule this does not happen, and who waits for the lock gets it as soon as the section that
is in progress is run to its end (`lock_progress`).
-/

namespace CobraOS.Sync

open Base

variable {ι ℓ σ : Type*}

instance Pc.decidableInside : DecidablePred (@Pc.Inside ℓ)
  | .outside _ => .isFalse id
  | .saved .. => .isFalse id
  | .trying .. => .isFalse id
  | .spinning .. => .isFalse id
  | .inside .. => .isTrue trivial
  | .released .. => .isFalse id

/-- The number of activities of a processor that are in a section. -/
def insides (p : Processor (Pc ℓ)) : Nat := p.activities.countP (fun pc => decide pc.Inside)

/-- At most one activity is in a section, and then the lock is taken. -/
inductive Exclusive (m : State ι ℓ σ) : Prop
  | free (hlocked : m.locked = 0) (hnone : ∀ c, insides (m.cpu c) = 0)
  | held {c : ι} (hlocked : m.locked = 1) (hc : insides (m.cpu c) = 1)
      (hnone : ∀ d, d ≠ c → insides (m.cpu d) = 0)

/-- An activity waits for the lock above one that is in a section. -/
def Blocked (pcs : List (Pc ℓ)) : Prop :=
  ∃ w rest, w :: rest <:+ pcs ∧ w.Waiting ∧ ∃ x ∈ rest, x.Inside

section

variable {C : Sections ℓ σ} {V : Variant ℓ} {m m' : State ι ℓ σ} {c d : ι}

/-! ### Counting -/

theorem insides_of_inside (p : Processor (Pc ℓ)) (h : p.running.Inside) :
    insides p = p.interrupted.countP (fun pc => decide pc.Inside) + 1 :=
  List.countP_cons_of_pos (decide_eq_true h)

theorem insides_of_outside (p : Processor (Pc ℓ)) (h : ¬ p.running.Inside) :
    insides p = p.interrupted.countP (fun pc => decide pc.Inside) :=
  List.countP_cons_of_neg (by rwa [decide_eq_true_eq])

theorem insides_pos {p : Processor (Pc ℓ)} {pc : Pc ℓ} (h : pc ∈ p.activities) (hin : pc.Inside) :
    0 < insides p := List.countP_pos_iff.mpr ⟨pc, h, decide_eq_true hin⟩

/-- Two places of a list at which a condition holds are one, when it holds only once. -/
theorem index_unique {α : Type*} {q : α → Bool} {l : List α} (h : l.countP q ≤ 1) {i j : Nat}
    {a b : α} (hi : l[i]? = some a) (hj : l[j]? = some b) (ha : q a = true) (hb : q b = true) :
    i = j := by
  induction l generalizing i j with
  | nil => cases hi
  | cons x l ih =>
    have hzero : q x = true → l.countP q = 0 := by
      intro hx
      rw [List.countP_cons_of_pos hx] at h
      omega
    cases i with
    | zero =>
      cases j with
      | zero => rfl
      | succ j =>
        obtain rfl : x = a := Option.some.inj hi
        have hmem : b ∈ l := List.mem_of_getElem? (by simpa using hj)
        exact absurd hb (List.countP_eq_zero.mp (hzero ha) b hmem)
    | succ i =>
      have hi' : l[i]? = some a := by simpa using hi
      cases j with
      | zero =>
        obtain rfl : x = b := Option.some.inj hj
        exact absurd ha (List.countP_eq_zero.mp (hzero hb) a (List.mem_of_getElem? hi'))
      | succ j =>
        have hle : l.countP q ≤ 1 := (List.sublist_cons_self ..).countP_le.trans h
        rw [ih hle hi' (by simpa using hj)]

/-- The processor of an activity in a section is the owner of the lock. -/
theorem Exclusive.owner (h : Exclusive m) (hc : 0 < insides (m.cpu c)) :
    m.locked = 1 ∧ insides (m.cpu c) = 1 ∧ ∀ d, d ≠ c → insides (m.cpu d) = 0 := by
  cases h with
  | free _ hnone => exact absurd (hnone c) hc.ne'
  | @held o hl ho hnone =>
    by_cases hco : c = o
    · subst hco
      exact ⟨hl, ho, hnone⟩
    · exact absurd (hnone c hco) hc.ne'

variable [DecidableEq ι]

theorem Exclusive.update {p : Processor (Pc ℓ)} (h : Exclusive m)
    (hcpu : m'.cpu = Function.update m.cpu c p) (hlocked : m'.locked = m.locked)
    (hp : insides p = insides (m.cpu c)) : Exclusive m' := by
  have hall : ∀ d, insides (m'.cpu d) = insides (m.cpu d) := by
    intro d
    by_cases hd : d = c
    · rw [hd, cpu_self hcpu, hp]
    · rw [cpu_of_ne hcpu hd]
  cases h with
  | free hl hnone => exact .free (hlocked.trans hl) fun d => (hall d).trans (hnone d)
  | held hl ho hnone =>
    exact .held (hlocked.trans hl) ((hall _).trans ho) fun d hd => (hall d).trans (hnone d hd)

/-- The activity that runs goes from a place outside the section to another one. -/
theorem Exclusive.goTo (h : Exclusive m) {b : Bool} {pc : Pc ℓ}
    (hcpu : m'.cpu = Function.update m.cpu c ⟨b, pc, (m.cpu c).interrupted⟩)
    (hlocked : m'.locked = m.locked) (hold : ¬ (m.cpu c).running.Inside) (hnew : ¬ pc.Inside) :
    Exclusive m' :=
  h.update hcpu hlocked ((insides_of_outside _ hnew).trans (insides_of_outside (m.cpu c) hold).symm)

theorem Exclusive.step (h : Exclusive m) {e : Instr ι ℓ} (hstep : step C V m e m') :
    Exclusive m' := by
  cases e with
  | free c l l' =>
    obtain ⟨hrun, -, s', b, -, rfl⟩ := hstep
    exact h.goTo rfl rfl (hrun ▸ id) id
  | begin c =>
    obtain ⟨l, hrun, -, rfl⟩ := hstep
    refine h.goTo (goTo_cpu ..) rfl (hrun ▸ id) ?_
    unfold beginCall
    cases V.irq l <;> exact id
  | cli c =>
    obtain ⟨flags, l, hrun, rfl⟩ := hstep
    exact h.goTo (goTo_setIf_cpu ..) rfl (hrun ▸ id) id
  | testAndSet c =>
    obtain ⟨flags, l, hrun, hm'⟩ := hstep
    have hold : ¬ (m.cpu c).running.Inside := hrun ▸ id
    unfold testAndSet at hm'
    cases h with
    | free hl hnone =>
      rw [if_pos hl] at hm'
      have hcpu : m'.cpu = Function.update m.cpu c { m.cpu c with running := .inside flags l l } :=
        hm' ▸ rfl
      have hrest := (insides_of_outside (m.cpu c) hold).symm.trans (hnone c)
      refine .held (c := c) (hm' ▸ rfl) ?_ fun d hd => ?_
      · rw [cpu_self hcpu, insides_of_inside ⟨_, .inside flags l l, _⟩ trivial, hrest]
      · rw [cpu_of_ne hcpu hd]
        exact hnone d
    | held hl ho hnone =>
      rw [if_neg (by rw [hl]; decide)] at hm'
      have hcpu : m'.cpu = Function.update m.cpu c { m.cpu c with running := .spinning flags l } :=
        hm' ▸ rfl
      exact (Exclusive.held hl ho hnone).goTo hcpu (hm' ▸ hl.symm) hold id
  | look c =>
    obtain ⟨flags, l, hrun, rfl⟩ := hstep
    refine h.goTo (goTo_cpu ..) rfl (hrun ▸ id) ?_
    split <;> exact id
  | act c =>
    obtain ⟨flags, l, at', l', s', hrun, -, hm'⟩ := hstep
    have hcpu : m'.cpu = Function.update m.cpu c { m.cpu c with running := .inside flags l l' } :=
      hm' ▸ rfl
    have hold : (m.cpu c).running.Inside := hrun ▸ trivial
    exact h.update hcpu (hm' ▸ rfl)
      ((insides_of_inside ⟨_, .inside flags l l', _⟩ trivial).trans
        (insides_of_inside (m.cpu c) hold).symm)
  | release c l at' =>
    obtain ⟨flags, hrun, -, hm'⟩ := hstep
    have hold : (m.cpu c).running.Inside := hrun ▸ trivial
    obtain ⟨-, hone, hnone⟩ := h.owner (c := c) (insides_pos List.mem_cons_self hold)
    have hcpu : m'.cpu = Function.update m.cpu c
        { m.cpu c with running := afterRelease flags (C.leave at') } := hm' ▸ rfl
    refine .free (hm' ▸ rfl) fun d => ?_
    by_cases hd : d = c
    · have hnew : ¬ (afterRelease flags (C.leave at')).Inside := by
        cases flags <;> exact id
      have hcount := (insides_of_inside (m.cpu c) hold).symm.trans hone
      rw [hd, cpu_self hcpu, insides_of_outside _ hnew]
      exact Nat.succ.inj hcount
    · rw [cpu_of_ne hcpu hd]
      exact hnone d hd
  | restore c =>
    obtain ⟨flags, l, hrun, rfl⟩ := hstep
    exact h.goTo (goTo_setIf_cpu ..) rfl (hrun ▸ id) id
  | interrupt c l =>
    obtain ⟨-, -, rfl⟩ := hstep
    exact h.update rfl rfl (insides_of_outside ⟨_, .outside l, _⟩ id)
  | resume c =>
    obtain ⟨l, hrun, -, pc, rest, hint, rfl⟩ := hstep
    have hold : ¬ (m.cpu c).running.Inside := hrun ▸ id
    refine h.update rfl rfl ?_
    rw [insides_of_outside _ hold, hint]
    rfl

theorem reach_exclusive (h : (system C V).Reach m) : Exclusive m := by
  refine h.induct (P := Exclusive) ?_ fun m e m' hm hstep => Exclusive.step hm hstep
  rintro m ⟨hlocked, hidle⟩
  refine .free hlocked fun c => ?_
  obtain ⟨⟨l, hl⟩, hint⟩ := hidle c
  refine List.countP_eq_zero.mpr fun pc hpc => ?_
  unfold Processor.activities at hpc
  rw [hint, hl, List.mem_singleton] at hpc
  rw [hpc, decide_eq_true_eq]
  exact id

/-- **Mutual exclusion**, for any number of processors and any depth of interrupts: there are no two
activities in a section. -/
theorem mutual_exclusion (h : (system C V).Reach m) {i j : Nat} {pc pc' : Pc ℓ}
    (hi : (m.cpu c).activities[i]? = some pc) (hj : (m.cpu d).activities[j]? = some pc')
    (hin : pc.Inside) (hin' : pc'.Inside) : c = d ∧ i = j := by
  obtain ⟨-, hone, hnone⟩ := (reach_exclusive h).owner (insides_pos (List.mem_of_getElem? hi) hin)
  have hd := insides_pos (List.mem_of_getElem? hj) hin'
  obtain rfl : d = c := by
    by_contra hne
    rw [hnone d hne] at hd
    cases hd
  exact ⟨rfl, index_unique hone.le hi hj (decide_eq_true hin) (decide_eq_true hin')⟩

/-- While the processor `true` is in its section and `false` waits, no other activity is in one. -/
theorem mutual_exclusion_contended :
    (contended.cpu true).activities[0]? = some (.inside (some true) 0 0) ∧
    (contended.cpu false).activities[0]? = some (.spinning (some true) 0) ∧
    ∀ d j pc, (contended.cpu d).activities[j]? = some pc → pc.Inside → d = true ∧ j = 0 :=
  ⟨rfl, rfl, fun _ _ _ hj hin => mutual_exclusion contended_reach.of_restrict hj rfl hin trivial⟩

/-! ### An owner that was interrupted by a waiting activity -/

theorem Blocked.tail {pc : Pc ℓ} {pcs : List (Pc ℓ)} (h : Blocked (pc :: pcs))
    (hpc : ¬ pc.Waiting) :
    Blocked pcs := by
  obtain ⟨w, rest, hs, hw, hx⟩ := h
  rcases List.suffix_cons_iff.mp hs with he | hs
  · cases he
    exact absurd hw hpc
  · exact ⟨w, rest, hs, hw, hx⟩

theorem Blocked.cons {pcs : List (Pc ℓ)} (h : Blocked pcs) (pc : Pc ℓ) : Blocked (pc :: pcs) := by
  obtain ⟨w, rest, hs, hw, hx⟩ := h
  exact ⟨w, rest, hs.trans (List.suffix_cons ..), hw, hx⟩

theorem Blocked.head {pc pc' : Pc ℓ} {pcs : List (Pc ℓ)} (h : Blocked (pc :: pcs))
    (hpc : pc.Waiting → pc'.Waiting) : Blocked (pc' :: pcs) := by
  obtain ⟨w, rest, hs, hw, hx⟩ := h
  rcases List.suffix_cons_iff.mp hs with he | hs
  · cases he
    exact ⟨pc', pcs, List.suffix_rfl, hpc hw, hx⟩
  · exact Blocked.cons ⟨w, rest, hs, hw, hx⟩ pc'

theorem Blocked.owner {p : Processor (Pc ℓ)} (h : Blocked p.activities) :
    ∃ x ∈ p.interrupted, x.Inside := by
  obtain ⟨w, rest, hs, hw, x, hx, hin⟩ := h
  rcases List.suffix_cons_iff.mp hs with he | hs
  · cases he
    exact ⟨x, hx, hin⟩
  · exact ⟨x, hs.subset (List.mem_cons_of_mem _ hx), hin⟩

theorem Blocked.not_running (hb : Blocked (m.cpu c).activities) (h : Exclusive m) :
    m.locked = 1 ∧ ∀ d, ¬ (m.cpu d).running.Inside := by
  obtain ⟨x, hx, hin⟩ := hb.owner
  obtain ⟨hl, hone, hnone⟩ := h.owner (insides_pos (List.mem_cons_of_mem _ hx) hin)
  refine ⟨hl, fun d hd => ?_⟩
  have hpos : 0 < insides (m.cpu d) := insides_pos List.mem_cons_self hd
  by_cases hdc : d = c
  · subst hdc
    have hcount := insides_of_inside (m.cpu d) hd
    have hrest : 0 < (m.cpu d).interrupted.countP (fun pc => decide pc.Inside) :=
      List.countP_pos_iff.mpr ⟨x, hx, decide_eq_true hin⟩
    omega
  · exact absurd (hnone d hdc) hpos.ne'

/-- One instruction, of any processor, leaves the waiting activity above the owner. -/
theorem Blocked.step (hb : Blocked (m.cpu c).activities) (h : Exclusive m) {e : Instr ι ℓ}
    (hstep : step C V m e m') : Blocked (m'.cpu c).activities ∧
      ∀ d l at', e ≠ .release d l at' := by
  obtain ⟨hlocked, hnot⟩ := hb.not_running h
  have hne : m.locked ≠ 0 := by
    rw [hlocked]
    decide
  -- an instruction that changes the running activity of a processor
  have hgo : ∀ {d : ι} {b : Bool} {pc : Pc ℓ},
      m'.cpu = Function.update m.cpu d ⟨b, pc, (m.cpu d).interrupted⟩ →
      ((m.cpu d).running.Waiting → pc.Waiting) → Blocked (m'.cpu c).activities := by
    intro d b pc hcpu hpc
    by_cases hd : c = d
    · subst hd
      rw [cpu_self hcpu]
      exact hb.head hpc
    · rw [cpu_of_ne hcpu hd]
      exact hb
  cases e with
  | free d l l' =>
    obtain ⟨hrun, -, s', b, -, rfl⟩ := hstep
    exact ⟨hgo rfl (hrun ▸ False.elim), fun _ _ _ he => by cases he⟩
  | begin d =>
    obtain ⟨l, hrun, -, rfl⟩ := hstep
    exact ⟨hgo (goTo_cpu ..) (hrun ▸ False.elim), fun _ _ _ he => by cases he⟩
  | cli d =>
    obtain ⟨flags, l, hrun, rfl⟩ := hstep
    exact ⟨hgo (goTo_setIf_cpu ..) (hrun ▸ False.elim), fun _ _ _ he => by cases he⟩
  | testAndSet d =>
    obtain ⟨flags, l, hrun, hm'⟩ := hstep
    unfold testAndSet at hm'
    rw [if_neg hne] at hm'
    have hcpu : m'.cpu = Function.update m.cpu d { m.cpu d with running := .spinning flags l } :=
      hm' ▸ rfl
    exact ⟨hgo hcpu fun _ => trivial, fun _ _ _ he => by cases he⟩
  | look d =>
    obtain ⟨flags, l, hrun, hm'⟩ := hstep
    rw [if_pos hne] at hm'
    have hcpu : m'.cpu = Function.update m.cpu d { m.cpu d with running := .spinning flags l } :=
      hm' ▸ rfl
    exact ⟨hgo hcpu fun _ => trivial, fun _ _ _ he => by cases he⟩
  | act d =>
    obtain ⟨flags, l, at', l', s', hrun, -, -⟩ := hstep
    exact absurd (hrun ▸ trivial) (hnot d)
  | release d l at' =>
    obtain ⟨flags, hrun, -, -⟩ := hstep
    exact absurd (hrun ▸ trivial) (hnot d)
  | restore d =>
    obtain ⟨flags, l, hrun, rfl⟩ := hstep
    exact ⟨hgo (goTo_setIf_cpu ..) (hrun ▸ False.elim), fun _ _ _ he => by cases he⟩
  | interrupt d l =>
    obtain ⟨-, -, rfl⟩ := hstep
    refine ⟨?_, fun _ _ _ he => by cases he⟩
    by_cases hd : c = d
    · subst hd
      rw [cpu_self rfl]
      exact hb.cons _
    · rw [cpu_of_ne rfl hd]
      exact hb
  | resume d =>
    obtain ⟨l, hrun, -, pc, rest, hint, rfl⟩ := hstep
    refine ⟨?_, fun _ _ _ he => by cases he⟩
    by_cases hd : c = d
    · subst hd
      rw [cpu_self rfl]
      unfold Processor.activities at hb
      rw [hrun, hint] at hb
      exact hb.tail id
    · rw [cpu_of_ne rfl hd]
      exact hb

/-- **An interrupted owner is stuck**: once an activity waits for the lock of one that it has
interrupted, no instruction of any processor releases the lock, however the run goes on. -/
theorem interrupted_owner_stuck (h : (system C V).Reach m) (hb : Blocked (m.cpu c).activities)
    {l : List (Instr ι ℓ)} (hrun : (system C V).Run m l m') :
    spinlockIsLocked m'.locked = true ∧ ∀ e ∈ l, ∀ d l at', e ≠ .release d l at' := by
  have hex := reach_exclusive h
  clear h
  induction hrun with
  | nil m =>
    refine ⟨?_, List.forall_mem_nil _⟩
    unfold spinlockIsLocked
    rw [(hb.not_running hex).1]
    rfl
  | cons hstep _ ih =>
    obtain ⟨hb', he⟩ := hb.step hex hstep
    obtain ⟨hlocked, hrest⟩ := ih hb' (hex.step hstep)
    exact ⟨hlocked, List.forall_mem_cons.mpr ⟨he, hrest⟩⟩

/-- Looking at the lock again does not help. -/
theorem interrupted_owner_stuck_selfBlocked :
    spinlockIsLocked (selfBlocked.goTo true (.spinning none 0)).locked = true ∧
      ∀ e ∈ [Instr.look true], ∀ (d : Bool) (l at' : Nat), e ≠ .release d l at' :=
  interrupted_owner_stuck (c := true) selfBlocked_reach
    ⟨_, _, List.suffix_rfl, trivial, .inside none 0 0, List.mem_singleton.mpr rfl, trivial⟩
    (.cons (e := Instr.look true) ⟨none, 0, rfl, rfl⟩ (.nil _))

/-! ### Progress under the rule -/

/-- The processor of an instruction. -/
def Instr.cpu : Instr ι ℓ → ι
  | .free c _ _ => c
  | .begin c => c
  | .cli c => c
  | .testAndSet c => c
  | .look c => c
  | .act c => c
  | .release c _ _ => c
  | .restore c => c
  | .interrupt c _ => c
  | .resume c => c

theorem acts_run {flags : Option Bool} {l at' l' : ℓ} {s' : σ}
    (hrun : (m.cpu d).running = .inside flags l at') (hacts : C.Acts (at', m.shared) (l', s')) :
    ∃ es m', (ruled C V).Run m es m' ∧ (m'.cpu d).running = .inside flags l l' ∧ m'.shared = s' ∧
      (∀ c, c ≠ d → m'.cpu c = m.cpu c) ∧ ∀ e ∈ es, e.cpu = d := by
  generalize hp : (at', m.shared) = p at hacts
  induction hacts using Relation.ReflTransGen.head_induction_on generalizing m at' with
  | refl =>
    cases hp
    exact ⟨[], m, .nil m, hrun, rfl, fun _ _ => rfl, List.forall_mem_nil _⟩
  | @head p q hpq _ ih =>
    subst hp
    obtain ⟨l₁, s₁⟩ := q
    let m₁ : State ι ℓ σ := { m.goTo d (.inside flags l l₁) with shared := s₁ }
    have hcpu : m₁.cpu = Function.update m.cpu d { m.cpu d with running := .inside flags l l₁ } :=
      rfl
    have hstep : (ruled C V).step m (.act d) m₁ := ⟨trivial, flags, l, at', l₁, s₁, hrun, hpq, rfl⟩
    obtain ⟨es, m', hes, hrun', hs', hother, hall⟩ :=
      ih (m := m₁) (congrArg Processor.running (cpu_self hcpu)) rfl
    refine ⟨.act d :: es, m', .cons hstep hes, hrun', hs', fun c hc => ?_,
      List.forall_mem_cons.mpr ⟨rfl, hall⟩⟩
    rw [hother c hc, cpu_of_ne hcpu hc]

theorem enter_run (hlocked : m.locked = 0) (hw : (m.cpu c).running.Waiting) :
    ∃ es m', (ruled C V).Run m es m' ∧ (m'.cpu c).running.Inside ∧ ∀ e ∈ es, e.cpu = c := by
  -- from the test of the exchange
  have htry : ∀ (m : State ι ℓ σ) flags l, m.locked = 0 → (m.cpu c).running = .trying flags l →
      ∃ m', (ruled C V).step m (.testAndSet c) m' ∧ (m'.cpu c).running.Inside := by
    intro m flags l hlocked hrun
    let m' : State ι ℓ σ := { m.goTo c (.inside flags l l) with locked := (testAndSet m.locked).2 }
    have hcpu : m'.cpu = Function.update m.cpu c { m.cpu c with running := .inside flags l l } :=
      rfl
    refine ⟨m', ⟨trivial, flags, l, hrun, ?_⟩, ?_⟩
    · unfold testAndSet
      rw [if_pos hlocked]
      rfl
    · rw [cpu_self hcpu]
      trivial
  cases hpc : (m.cpu c).running with
  | trying flags l =>
    obtain ⟨m', hstep, hin⟩ := htry m flags l hlocked hpc
    exact ⟨[.testAndSet c], m', .cons hstep (.nil m'), hin, by simp [Instr.cpu]⟩
  | spinning flags l =>
    let m₁ : State ι ℓ σ := m.goTo c (.trying flags l)
    have hstep₁ : (ruled C V).step m (.look c) m₁ := by
      refine ⟨trivial, flags, l, hpc, ?_⟩
      rw [if_neg (not_not.mpr hlocked)]
    obtain ⟨m', hstep, hin⟩ :=
      htry m₁ flags l hlocked (congrArg Processor.running (cpu_self (goTo_cpu ..)))
    exact ⟨[.look c, .testAndSet c], m', .cons hstep₁ (.cons hstep (.nil m')), hin,
      by simp [Instr.cpu]⟩
  | outside l =>
    rw [hpc] at hw
    exact hw.elim
  | saved flags l =>
    rw [hpc] at hw
    exact hw.elim
  | inside flags l at' =>
    rw [hpc] at hw
    exact hw.elim
  | released flags l =>
    rw [hpc] at hw
    exact hw.elim

/-- Where there is one processor, the lock is free when it is tried. -/
theorem alone_locked_zero [Subsingleton ι] (h : (ruled C V).Reach m)
    (hw : (m.cpu c).running.Waiting) :
    m.locked = 0 := by
  obtain ⟨s, hs⟩ := reach_inv h
  cases hs.owner with
  | free hlocked _ _ => exact hlocked
  | @held d _ _ _ _ hd _ _ =>
    rw [Subsingleton.elim c d, hd] at hw
    exact hw.elim

/-- **One processor never spins**: with the rule, `while (lock->locked)` is not reached there. -/
theorem alone_never_spins [Subsingleton ι] (h : (ruled C V).Reach m) (flags : Option Bool) (l : ℓ) :
    (m.cpu c).running ≠ .spinning flags l := by
  have hall : ∀ pc ∈ (m.cpu c).activities, ∀ flags l, pc ≠ .spinning flags l := by
    clear flags l
    induction h with
    | init hm =>
      obtain ⟨⟨l', hl'⟩, hint⟩ := hm.2 c
      intro pc hpc flags l he
      unfold Processor.activities at hpc
      rw [hint, hl', List.mem_singleton, he] at hpc
      cases hpc
    | @step m m' e hr hstep ih =>
      obtain ⟨hrule, hstep⟩ := hstep
      have hgo : ∀ {d : ι} {b : Bool} {pc : Pc ℓ},
          m'.cpu = Function.update m.cpu d ⟨b, pc, (m.cpu d).interrupted⟩ →
          (∀ flags l, pc ≠ .spinning flags l) →
          ∀ pc ∈ (m'.cpu c).activities, ∀ flags l, pc ≠ .spinning flags l := by
        intro d b pc hcpu hpc x hx
        rw [Subsingleton.elim d c] at hcpu
        rw [cpu_self hcpu] at hx
        rcases List.mem_cons.mp hx with rfl | hx
        · exact hpc
        · exact ih x (List.mem_cons_of_mem _ hx)
      cases e with
      | free d l l' =>
        obtain ⟨-, -, s', b, -, rfl⟩ := hstep
        exact hgo rfl fun _ _ he => by cases he
      | begin d =>
        obtain ⟨l, -, -, rfl⟩ := hstep
        refine hgo (goTo_cpu ..) fun _ _ he => ?_
        unfold beginCall at he
        split at he <;> cases he
      | cli d =>
        obtain ⟨flags, l, -, rfl⟩ := hstep
        exact hgo (goTo_setIf_cpu ..) fun _ _ he => by cases he
      | testAndSet d =>
        obtain ⟨flags, l, hrun, hm'⟩ := hstep
        have hzero : m.locked = 0 := alone_locked_zero (c := d) hr (hrun ▸ trivial)
        unfold testAndSet at hm'
        rw [if_pos hzero] at hm'
        have hcpu : m'.cpu =
            Function.update m.cpu d { m.cpu d with running := .inside flags l l } := hm' ▸ rfl
        exact hgo hcpu fun _ _ he => by cases he
      | look d =>
        obtain ⟨flags, l, hrun, -⟩ := hstep
        rw [Subsingleton.elim d c] at hrun
        exact absurd hrun (ih _ List.mem_cons_self flags l)
      | act d =>
        obtain ⟨flags, l, at', l', s', -, -, hm'⟩ := hstep
        have hcpu : m'.cpu =
            Function.update m.cpu d { m.cpu d with running := .inside flags l l' } := hm' ▸ rfl
        exact hgo hcpu fun _ _ he => by cases he
      | release d l at' =>
        obtain ⟨flags, -, -, hm'⟩ := hstep
        have hcpu : m'.cpu = Function.update m.cpu d
            { m.cpu d with running := afterRelease flags (C.leave at') } := hm' ▸ rfl
        refine hgo hcpu fun _ _ he => ?_
        cases flags <;> cases he
      | restore d =>
        obtain ⟨flags, l, -, rfl⟩ := hstep
        exact hgo (goTo_setIf_cpu ..) fun _ _ he => by cases he
      | interrupt d l =>
        obtain ⟨-, -, rfl⟩ := hstep
        intro x hx
        rw [Subsingleton.elim d c, cpu_self rfl] at hx
        rcases List.mem_cons.mp hx with rfl | hx
        · exact fun _ _ he => by cases he
        · exact ih x hx
      | resume d =>
        obtain ⟨l, -, -, pc, rest, hint, rfl⟩ := hstep
        intro x hx
        rw [Subsingleton.elim d c] at hint hx
        rw [cpu_self rfl] at hx
        refine ih x (List.mem_cons_of_mem _ ?_)
        rw [hint]
        exact hx
  exact hall _ List.mem_cons_self flags l

/-- **Progress**: a processor that waits for the lock enters its section after some instructions of
its own and of the owner, when the section that is in progress can come to its end. -/
theorem lock_progress (h : (ruled C V).Reach m) (hw : (m.cpu c).running.Waiting)
    (hends : ∀ d flags l at', (m.cpu d).running = .inside flags l at' →
      ∃ l' s', C.Whole at' m.shared l' s') :
    ∃ es m', (ruled C V).Run m es m' ∧ (m'.cpu c).running.Inside ∧
      ∀ e ∈ es, e.cpu = c ∨ (m.cpu e.cpu).running.Inside := by
  obtain ⟨s, hs⟩ := reach_inv h
  cases hs.owner with
  | free hlocked _ _ =>
    obtain ⟨es, m', hrun, hin, hall⟩ := enter_run hlocked hw
    exact ⟨es, m', hrun, hin, fun e he => .inl (hall e he)⟩
  | @held d flags l at' hlocked hd hone _ =>
    obtain ⟨l', s', hacts, hend⟩ := hends d flags l at' hd
    obtain ⟨es₁, m₁, hrun₁, hd₁, hs₁, hother₁, hall₁⟩ := acts_run (V := V) hd hacts
    have hin : (m.cpu d).running.Inside := hd ▸ trivial
    have hcd : c ≠ d := by
      rintro rfl
      rw [hd] at hw
      exact hw
    -- the owner releases the lock
    let m₂ : State ι ℓ σ :=
      { m₁.goTo d (afterRelease flags (C.leave l')) with locked := lockRelease }
    have hcpu₂ : m₂.cpu = Function.update m₁.cpu d
        { m₁.cpu d with running := afterRelease flags (C.leave l') } := rfl
    have hstep₂ : (ruled C V).step m₁ (.release d l l') m₂ := ⟨trivial, flags, hd₁, hs₁ ▸ hend, rfl⟩
    have hw₂ : (m₂.cpu c).running.Waiting := by
      rw [cpu_of_ne hcpu₂ hcd, hother₁ c hcd]
      exact hw
    obtain ⟨es₃, m₃, hrun₃, hin₃, hall₃⟩ := enter_run (C := C) (V := V) rfl hw₂
    refine ⟨es₁ ++ .release d l l' :: es₃, m₃, hrun₁.append (.cons hstep₂ hrun₃), hin₃,
      fun e he => ?_⟩
    rcases List.mem_append.mp he with he | he
    · rw [hall₁ e he]
      exact .inr hin
    · rcases List.mem_cons.mp he with rfl | he
      · exact .inr hin
      · exact .inl (hall₃ e he)

end

theorem lock_progress_contended : ∃ es m', (ruled counting (irqOnly Nat)).Run contended es m' ∧
    (m'.cpu false).running.Inside ∧ ∀ e ∈ es, e.cpu = false ∨
      (contended.cpu e.cpu).running.Inside := by
  refine lock_progress contended_reach trivial fun d flags l at' hd => ?_
  cases d with
  | false => cases hd
  | true =>
    cases hd
    exact ⟨1, 1, .single rfl, rfl⟩

end CobraOS.Sync
