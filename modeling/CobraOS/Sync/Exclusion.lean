import CobraOS.Sync.Spinlock

/-!
# Mutual exclusion, and sections that are one step

Interrupts are off from `cli` to the restoring of the flags, so an activity that is anywhere in
between is the one that runs on its processor.  Hence the owner of the lock is never interrupted,
and nothing that runs on its processor waits for the lock (`lock_safe`).

With the lock every section is one step: a run of the instructions is a run of the machine
`Sections.atomic`, with a section done where its lock is released (`sections_atomic`).  In between,
the state `s` of the invariant is the shared state as the machine has it, before the section that is
in progress.
-/

namespace CobraOS.Sync

open Base

variable {ι ℓ σ : Type*}

namespace Pc

/-- In a section. -/
def Inside : Pc ℓ → Prop
  | .inside .. => True
  | _ => False

/-- Waiting for the lock. -/
def Waiting : Pc ℓ → Prop
  | .trying .. => True
  | .spinning .. => True
  | _ => False

/-- Where the code is that calls the functions: a section has not begun before it is done. -/
def place : Pc ℓ → ℓ
  | .outside l => l
  | .saved _ l => l
  | .trying _ l => l
  | .spinning _ l => l
  | .inside _ l _ => l
  | .released _ l => l

/-- The interrupt flag as that code has it. -/
def flag (accepts : Bool) : Pc ℓ → Bool
  | .outside _ => accepts
  | .saved flags _ => flags
  | .trying flags _ => flags.getD accepts
  | .spinning flags _ => flags.getD accepts
  | .inside flags _ _ => flags.getD accepts
  | .released flags _ => flags

/-- What holds in the functions, with the interrupt flag. -/
def Ok (C : Sections ℓ σ) (accepts : Bool) : Pc ℓ → Prop
  | .outside _ => True
  | .saved flags l => flags = accepts ∧ C.enters l
  | .trying _ l => accepts = false ∧ C.enters l
  | .spinning _ l => accepts = false ∧ C.enters l
  | .inside _ l _ => accepts = false ∧ C.enters l
  | .released _ _ => accepts = false

theorem Ok.quiet {C : Sections ℓ σ} {pc : Pc ℓ} (h : pc.Ok C true) :
    ¬ pc.Inside ∧ ¬ pc.Waiting := by
  cases pc with
  | outside l => exact ⟨id, id⟩
  | saved flags l => exact ⟨id, id⟩
  | trying flags l => cases h.1
  | spinning flags l => cases h.1
  | inside flags l at' => cases h.1
  | released flags l => cases h

theorem Ok.masked {C : Sections ℓ σ} {pc : Pc ℓ} {b : Bool} (h : pc.Ok C b)
    (hpc : pc.Inside ∨ pc.Waiting) : b = false := by
  cases b with
  | false => rfl
  | true => exact absurd hpc (not_or.mpr h.quiet)

/-- An activity that can be interrupted has its own interrupt flag set. -/
theorem Ok.flag_true {C : Sections ℓ σ} {pc : Pc ℓ} (h : pc.Ok C true) : pc.flag true = true := by
  cases pc with
  | outside l => rfl
  | saved flags l => exact h.1
  | trying flags l => cases h.1
  | spinning flags l => cases h.1
  | inside flags l at' => cases h.1
  | released flags l => cases h

end Pc

/-- A processor as the code that calls the functions has it. -/
def view (p : Processor (Pc ℓ)) : Processor ℓ :=
  ⟨p.running.flag p.accepts, p.running.place, p.interrupted.map Pc.place⟩

/-- The machine with sections of one step. -/
def viewAll (m : State ι ℓ σ) (s : σ) : Processors ι ℓ σ := ⟨fun c => view (m.cpu c), s⟩

variable (C : Sections ℓ σ) (V : Variant ℓ)

section

variable (m : State ι ℓ σ) (s : σ) (c : ι)

theorem viewAll_accepts :
    ((viewAll m s).cpu c).accepts = (m.cpu c).running.flag (m.cpu c).accepts := rfl

theorem viewAll_running : ((viewAll m s).cpu c).running = (m.cpu c).running.place := rfl

theorem viewAll_interrupted :
    ((viewAll m s).cpu c).interrupted = (m.cpu c).interrupted.map Pc.place := rfl

end

/-- Either there is one processor, or the code keeps to the sections. -/
def Separate (ι : Type*) : Prop := Subsingleton ι ∨ C.Private

/-- The lock is free, or one processor is in its section, which began in the state `s`. -/
inductive Owner (m : State ι ℓ σ) (s : σ) : Prop
  | free (hlocked : m.locked = 0) (hnone : ∀ c, ¬ (m.cpu c).running.Inside)
      (hs : Separate C ι → s = m.shared)
  | held {c : ι} {flags : Option Bool} {l at' : ℓ} (hlocked : m.locked = 1)
      (hc : (m.cpu c).running = .inside flags l at') (hone : ∀ d, (m.cpu d).running.Inside → d = c)
      (hacts : Separate C ι → C.Acts (l, s) (at', m.shared))

structure Inv (m : State ι ℓ σ) (s : σ) : Prop where
  running : ∀ c, (m.cpu c).running.Ok C (m.cpu c).accepts
  interrupted : ∀ c, ∀ pc ∈ (m.cpu c).interrupted, pc.Ok C true
  owner : Owner C m s

/-- The label of the machine that an instruction stands for. -/
def shown : Instr ι ℓ → Option (Sections.Label ι ℓ)
  | .free c l l' => some (.free c l l')
  | .release c l at' => some (.whole c l at')
  | .interrupt c l => some (.interrupt c l)
  | .resume c => some (.resume c)
  | _ => none

section

variable {C V} {m m' : State ι ℓ σ} {s s' : σ} {c : ι} {p : Processor (Pc ℓ)}

theorem Owner.of_inside (h : Owner C m s) {flags : Option Bool} {l at' : ℓ}
    (hc : (m.cpu c).running = .inside flags l at') :
    m.locked = 1 ∧ (∀ d, (m.cpu d).running.Inside → d = c) ∧
      (Separate C ι → C.Acts (l, s) (at', m.shared)) := by
  have hin : (m.cpu c).running.Inside := by
    rw [hc]
    trivial
  cases h with
  | free _ hnone _ => exact absurd hin (hnone c)
  | held hl ho hone hacts =>
    obtain rfl := hone c hin
    rw [hc] at ho
    cases ho
    exact ⟨hl, hone, hacts⟩

theorem Inv.of_idle (h : Idle m) : Inv C m m.shared := by
  refine ⟨fun c => ?_, fun c => ?_, .free h.1 (fun c => ?_) fun _ => rfl⟩
  · obtain ⟨l, hl⟩ := (h.2 c).1
    rw [hl]
    trivial
  · rw [(h.2 c).2]
    exact List.forall_mem_nil _
  · obtain ⟨l, hl⟩ := (h.2 c).1
    rw [hl]
    exact id

/-! ### One processor changes -/

section

variable [DecidableEq ι]

theorem cpu_self (hcpu : m'.cpu = Function.update m.cpu c p) : m'.cpu c = p := by
  rw [hcpu, Function.update_self]

theorem cpu_of_ne (hcpu : m'.cpu = Function.update m.cpu c p) {d : ι} (hd : d ≠ c) :
    m'.cpu d = m.cpu d := by
  rw [hcpu, Function.update_of_ne hd]

theorem Inv.update (h : Inv C m s) (hcpu : m'.cpu = Function.update m.cpu c p)
    (hok : p.running.Ok C p.accepts) (hint : ∀ pc ∈ p.interrupted, pc.Ok C true)
    (howner : Owner C m' s') : Inv C m' s' := by
  refine ⟨fun d => ?_, fun d => ?_, howner⟩ <;> by_cases hd : d = c
  · rw [hd, cpu_self hcpu]
    exact hok
  · rw [cpu_of_ne hcpu hd]
    exact h.running d
  · rw [hd, cpu_self hcpu]
    exact hint
  · rw [cpu_of_ne hcpu hd]
    exact h.interrupted d

/-- The owner stays when a processor outside the section stays outside. -/
theorem Owner.update (h : Owner C m s) (hcpu : m'.cpu = Function.update m.cpu c p)
    (hlocked : m'.locked = m.locked) (hshared : Separate C ι → m'.shared = m.shared)
    (hold : ¬ (m.cpu c).running.Inside) (hnew : ¬ p.running.Inside) : Owner C m' s := by
  cases h with
  | free hl hnone hs =>
    refine .free (hlocked.trans hl) (fun d => ?_) fun hsep => (hs hsep).trans (hshared hsep).symm
    by_cases hd : d = c
    · rw [hd, cpu_self hcpu]
      exact hnew
    · rw [cpu_of_ne hcpu hd]
      exact hnone d
  | @held o flags l at' hl ho hone hacts =>
    have hoc : o ≠ c := by
      rintro rfl
      rw [ho] at hold
      exact hold trivial
    refine .held (hlocked.trans hl) ((cpu_of_ne hcpu hoc).symm ▸ ho) (fun d hd => ?_)
      (fun hsep => (hshared hsep).symm ▸ hacts hsep)
    by_cases hdc : d = c
    · rw [hdc, cpu_self hcpu] at hd
      exact absurd hd hnew
    · rw [cpu_of_ne hcpu hdc] at hd
      exact hone d hd

theorem viewAll_update (hcpu : m'.cpu = Function.update m.cpu c p) :
    viewAll m' s' = Sections.put (viewAll m s) c (view p) s' := by
  unfold viewAll Sections.put
  refine congrArg (Processors.mk · s') (funext fun d => ?_)
  by_cases hd : d = c
  · rw [hd, cpu_self hcpu, Function.update_self]
  · rw [cpu_of_ne hcpu hd, Function.update_of_ne hd]

/-- An instruction of the functions changes nothing for the code that calls them. -/
theorem viewAll_same (hcpu : m'.cpu = Function.update m.cpu c p) (hview : view p = view (m.cpu c)) :
    viewAll m' s = viewAll m s := by
  rw [viewAll_update (s := s) hcpu, hview]
  unfold Sections.put viewAll
  exact congrArg (Processors.mk · s) (Function.update_eq_self _ _)

theorem goTo_cpu (m : State ι ℓ σ) (c : ι) (pc : Pc ℓ) :
    (m.goTo c pc).cpu = Function.update m.cpu c { m.cpu c with running := pc } := rfl

theorem goTo_setIf_cpu (m : State ι ℓ σ) (c : ι) (pc : Pc ℓ) (b : Bool) :
    ((m.goTo c pc).setIf c b).cpu = Function.update m.cpu c ⟨b, pc, (m.cpu c).interrupted⟩ := by
  unfold State.setIf State.goTo
  simp only [Function.update_self, Function.update_idem]

end

/-! ### Every instruction -/

/-- What an instruction has to do: keep the invariant and match the machine. -/
def Matched [DecidableEq ι] (C : Sections ℓ σ) (start : Processors ι ℓ σ → Prop) (m : State ι ℓ σ)
    (s : σ) (e : Instr ι ℓ) (m' : State ι ℓ σ) : Prop :=
  ∃ s', Inv C m' s' ∧
    (Separate C ι → (C.atomic start).Run (viewAll m s) (shown e).toList (viewAll m' s'))

variable [DecidableEq ι] {start : Processors ι ℓ σ → Prop}

theorem Inv.quiet_step (h : Inv C m s) {e : Instr ι ℓ} {pc : Pc ℓ} {b : Bool} (he : shown e = none)
    (hcpu : m'.cpu = Function.update m.cpu c ⟨b, pc, (m.cpu c).interrupted⟩)
    (hlocked : m'.locked = m.locked) (hshared : m'.shared = m.shared)
    (hok : pc.Ok C b) (hold : ¬ (m.cpu c).running.Inside) (hnew : ¬ pc.Inside)
    (hflag : pc.flag b = (m.cpu c).running.flag (m.cpu c).accepts)
    (hplace : pc.place = (m.cpu c).running.place) : Matched C start m s e m' := by
  refine ⟨s, h.update hcpu hok (h.interrupted c)
    (h.owner.update hcpu hlocked (fun _ => hshared) hold hnew), fun _ => ?_⟩
  have hview : view ⟨b, pc, (m.cpu c).interrupted⟩ = view (m.cpu c) := by
    unfold view
    rw [hflag, hplace]
  rw [he, viewAll_same hcpu hview]
  exact .nil _

theorem Inv.free_step (h : Inv C m s) {l l' : ℓ} (hstep : step C V m (.free c l l') m') :
    Matched C start m s (.free c l l') m' := by
  obtain ⟨hrun, hent, s', b, hfree, rfl⟩ := hstep
  have hcpu : ({ m.put c ⟨b, .outside l', (m.cpu c).interrupted⟩ with shared := s' } : State ι ℓ
      σ).cpu =
      Function.update m.cpu c ⟨b, .outside l', (m.cpu c).interrupted⟩ := rfl
  have hold : ¬ (m.cpu c).running.Inside := by
    rw [hrun]
    exact id
  -- the code on `c` reads the state `s`: the lock is free, or the code leaves the state alone
  have hread : Separate C ι → C.free l s (m.cpu c).accepts l' (if m.locked = 0 then s' else s) b ∧
      (m.locked ≠ 0 → s' = m.shared) := by
    intro hsep
    cases h.owner with
    | free hl _ hs =>
      rw [if_pos hl, hs hsep]
      exact ⟨hfree, fun hn => absurd hl hn⟩
    | @held o _ _ _ hl ho _ _ =>
      have hn : m.locked ≠ 0 := by
        rw [hl]
        decide
      rw [if_neg hn]
      cases hsep with
      | inl hsub =>
        rw [hsub.elim c o, ho] at hold
        exact absurd trivial hold
      | inr hpriv =>
        obtain ⟨rfl, hany⟩ := hpriv _ _ _ _ _ _ hfree
        exact ⟨hany s, fun _ => rfl⟩
  refine ⟨if m.locked = 0 then s' else s, h.update hcpu trivial (h.interrupted c) ?_,
    fun hsep => ?_⟩
  · cases h.owner with
    | free hl hnone hs =>
      rw [if_pos hl]
      refine .free hl (fun d => ?_) fun _ => rfl
      by_cases hd : d = c
      · rw [hd, cpu_self hcpu]
        exact id
      · rw [cpu_of_ne hcpu hd]
        exact hnone d
    | held hl ho hone hacts =>
      have hn : m.locked ≠ 0 := by
        rw [hl]
        decide
      rw [if_neg hn]
      exact (Owner.held hl ho hone hacts).update hcpu rfl (fun hsep => (hread hsep).2 hn) hold id
  · rw [viewAll_update (s := s) hcpu]
    refine System.Run.single ⟨?_, hent, if m.locked = 0 then s' else s, b, ?_, ?_⟩
    · rw [viewAll_running, hrun]
      rfl
    · rw [viewAll_accepts, hrun]
      exact (hread hsep).1
    · rfl

theorem Inv.interrupt_step (h : Inv C m s) {l : ℓ} (hstep : step C V m (.interrupt c l) m') :
    Matched C start m s (.interrupt c l) m' := by
  obtain ⟨haccepts, hhandler, rfl⟩ := hstep
  have hok := h.running c
  rw [haccepts] at hok
  have hcpu : (m.put c ⟨false, .outside l, (m.cpu c).activities⟩).cpu =
      Function.update m.cpu c ⟨false, .outside l, (m.cpu c).activities⟩ := rfl
  refine ⟨s, h.update hcpu trivial ?_ (h.owner.update hcpu rfl (fun _ => rfl) hok.quiet.1 id),
    fun _ => ?_⟩
  · intro pc hpc
    rcases List.mem_cons.mp hpc with rfl | hpc
    · exact hok
    · exact h.interrupted c pc hpc
  · rw [viewAll_update (s := s) hcpu]
    refine System.Run.single ⟨?_, hhandler, rfl⟩
    rw [viewAll_accepts, haccepts]
    exact hok.flag_true

theorem Inv.resume_step (h : Inv C m s) (hstep : step C V m (.resume c) m') :
    Matched C start m s (.resume c) m' := by
  obtain ⟨l, hrun, hfin, pc, rest, hint, rfl⟩ := hstep
  have hold : ¬ (m.cpu c).running.Inside := by
    rw [hrun]
    exact id
  have hall := h.interrupted c
  rw [hint] at hall
  obtain ⟨hpc, hrest⟩ := List.forall_mem_cons.mp hall
  have hcpu : (m.put c ⟨true, pc, rest⟩).cpu = Function.update m.cpu c ⟨true, pc, rest⟩ := rfl
  refine ⟨s, h.update hcpu hpc hrest (h.owner.update hcpu rfl (fun _ => rfl) hold hpc.quiet.1),
    fun _ => ?_⟩
  rw [viewAll_update (s := s) hcpu]
  refine System.Run.single ⟨?_, pc.place, rest.map Pc.place, ?_, ?_⟩
  · rw [viewAll_running, hrun]
    exact hfin
  · rw [viewAll_interrupted, hint]
    rfl
  · unfold view
    rw [hpc.flag_true]
    rfl

theorem Inv.begin_step (h : Inv C m s) (hrule : Rule V m (.begin c))
    (hstep : step C V m (.begin c) m') :
    Matched C start m s (.begin c) m' := by
  obtain ⟨l, hrun, hent, rfl⟩ := hstep
  have hold : ¬ (m.cpu c).running.Inside := by
    rw [hrun]
    exact id
  have hflag : (m.cpu c).running.flag (m.cpu c).accepts = (m.cpu c).accepts := by rw [hrun]; rfl
  have hplace : (m.cpu c).running.place = l := by rw [hrun]; rfl
  unfold beginCall
  cases hirq : V.irq l with
  | true => exact h.quiet_step rfl rfl rfl rfl ⟨rfl, hent⟩ hold id hflag.symm hplace.symm
  | false =>
    exact h.quiet_step rfl rfl rfl rfl ⟨hrule l hrun hirq, hent⟩ hold id hflag.symm hplace.symm

theorem Inv.cli_step (h : Inv C m s) (hstep : step C V m (.cli c) m') :
    Matched C start m s (.cli c) m' := by
  obtain ⟨flags, l, hrun, rfl⟩ := hstep
  have hok := h.running c
  have hold : ¬ (m.cpu c).running.Inside := by
    rw [hrun]
    exact id
  rw [hrun] at hok
  refine h.quiet_step rfl (goTo_setIf_cpu ..) rfl rfl ⟨rfl, hok.2⟩ hold id ?_ ?_
  all_goals
    rw [hrun]
    rfl

theorem Inv.test_step (h : Inv C m s) (hstep : step C V m (.testAndSet c) m') :
    Matched C start m s (.testAndSet c) m' := by
  obtain ⟨flags, l, hrun, hm'⟩ := hstep
  have hok := h.running c
  rw [hrun] at hok
  have hold : ¬ (m.cpu c).running.Inside := by
    rw [hrun]
    exact id
  have hflag : (m.cpu c).running.flag (m.cpu c).accepts = flags.getD (m.cpu c).accepts := by
    rw [hrun]; rfl
  have hplace : (m.cpu c).running.place = l := by rw [hrun]; rfl
  unfold testAndSet at hm'
  cases h.owner with
  | free hl hnone hs =>
    rw [if_pos hl] at hm'
    have hcpu : m'.cpu = Function.update m.cpu c { m.cpu c with running := .inside flags l l } :=
      hm' ▸ rfl
    have hshared : m'.shared = m.shared := hm' ▸ rfl
    refine ⟨s, h.update hcpu hok (h.interrupted c) ?_, fun _ => ?_⟩
    · refine .held (hm' ▸ rfl) (congrArg Processor.running (cpu_self hcpu)) (fun d hd => ?_) ?_
      · by_contra hdc
        rw [cpu_of_ne hcpu hdc] at hd
        exact hnone d hd
      · intro hsep
        rw [hs hsep, hshared]
        exact .refl
    · rw [viewAll_same hcpu]
      · exact .nil _
      · unfold view
        rw [hflag, hplace]
        rfl
  | held hl ho hone hacts =>
    rw [if_neg (by rw [hl]; decide)] at hm'
    have hcpu : m'.cpu = Function.update m.cpu c { m.cpu c with running := .spinning flags l } :=
      hm' ▸ rfl
    exact h.quiet_step rfl hcpu (hm' ▸ hl.symm) (hm' ▸ rfl) hok hold id hflag.symm hplace.symm

theorem Inv.look_step (h : Inv C m s) (hstep : step C V m (.look c) m') :
    Matched C start m s (.look c) m' := by
  obtain ⟨flags, l, hrun, rfl⟩ := hstep
  have hok := h.running c
  rw [hrun] at hok
  have hold : ¬ (m.cpu c).running.Inside := by
    rw [hrun]
    exact id
  have hflag : (m.cpu c).running.flag (m.cpu c).accepts = flags.getD (m.cpu c).accepts := by
    rw [hrun]; rfl
  have hplace : (m.cpu c).running.place = l := by rw [hrun]; rfl
  split
  · exact h.quiet_step rfl rfl rfl rfl hok hold id hflag.symm hplace.symm
  · exact h.quiet_step rfl rfl rfl rfl hok hold id hflag.symm hplace.symm

theorem Inv.act_step (h : Inv C m s) (hstep : step C V m (.act c) m') :
    Matched C start m s (.act c) m' := by
  obtain ⟨flags, l, at', l', s', hrun, hact, hm'⟩ := hstep
  have hok := h.running c
  rw [hrun] at hok
  obtain ⟨hl, hone, hacts⟩ := h.owner.of_inside hrun
  have hcpu : m'.cpu = Function.update m.cpu c { m.cpu c with running := .inside flags l l' } :=
    hm' ▸ rfl
  have hshared : m'.shared = s' := hm' ▸ rfl
  refine ⟨s, h.update hcpu hok (h.interrupted c) ?_, fun _ => ?_⟩
  · refine .held (hm' ▸ hl) (congrArg Processor.running (cpu_self hcpu)) (fun d hd => ?_) ?_
    · by_contra hdc
      rw [cpu_of_ne hcpu hdc] at hd
      exact hdc (hone d hd)
    · intro hsep
      rw [hshared]
      exact (hacts hsep).tail hact
  · rw [viewAll_same hcpu]
    · exact .nil _
    · unfold view
      rw [hrun]
      rfl

theorem Inv.release_step (h : Inv C m s) {l at' : ℓ} (hstep : step C V m (.release c l at') m') :
    Matched C start m s (.release c l at') m' := by
  obtain ⟨flags, hrun, hend, hm'⟩ := hstep
  have hok := h.running c
  rw [hrun] at hok
  obtain ⟨-, hone, hacts⟩ := h.owner.of_inside hrun
  have hcpu : m'.cpu = Function.update m.cpu c
      { m.cpu c with running := afterRelease flags (C.leave at') } := hm' ▸ rfl
  have hshared : m'.shared = m.shared := hm' ▸ rfl
  have hnew : ¬ (afterRelease flags (C.leave at')).Inside := by
    cases flags <;> exact id
  have hflag : (afterRelease flags (C.leave at')).flag (m.cpu c).accepts =
      flags.getD (m.cpu c).accepts := by cases flags <;> rfl
  have hplace : (afterRelease flags (C.leave at')).place = C.leave at' := by cases flags <;> rfl
  refine ⟨m.shared, h.update hcpu ?_ (h.interrupted c) 
    (.free (hm' ▸ rfl) (fun d hd => ?_) fun _ => hshared.symm), fun hsep => ?_⟩
  · cases flags with
    | none => trivial
    | some flags => exact hok.1
  · by_cases hdc : d = c
    · rw [hdc, cpu_self hcpu] at hd
      exact hnew hd
    · rw [cpu_of_ne hcpu hdc] at hd
      exact hdc (hone d hd)
  · rw [viewAll_update (s := s) hcpu]
    refine System.Run.single ⟨?_, hok.2, m.shared, ⟨hacts hsep, hend⟩, ?_⟩
    · rw [viewAll_running, hrun]
      rfl
    · refine congrArg (Sections.put _ c · _) ?_
      show _ = (⟨((viewAll m s).cpu c).accepts, _, _⟩ : Processor ℓ)
      unfold view
      rw [hflag, hplace, viewAll_accepts, hrun]
      rfl

theorem Inv.restore_step (h : Inv C m s) (hstep : step C V m (.restore c) m') :
    Matched C start m s (.restore c) m' := by
  obtain ⟨flags, l, hrun, rfl⟩ := hstep
  have hok := h.running c
  rw [hrun] at hok
  have hold : ¬ (m.cpu c).running.Inside := by
    rw [hrun]
    exact id
  have hok' : (m.cpu c).accepts = false := hok
  refine h.quiet_step rfl (goTo_setIf_cpu ..) rfl rfl trivial hold id ?_ ?_
  · rw [hrun, hok']
    exact V.restore_false flags
  · rw [hrun]
    rfl

/-- **One instruction** keeps the invariant and is at most one step of the machine. -/
theorem Inv.step (h : Inv C m s) {e : Instr ι ℓ} (hrule : Rule V m e)
    (hstep : step C V m e m') : Matched C start m s e m' := by
  cases e with
  | free c l l' => exact h.free_step hstep
  | begin c => exact h.begin_step hrule hstep
  | cli c => exact h.cli_step hstep
  | testAndSet c => exact h.test_step hstep
  | look c => exact h.look_step hstep
  | act c => exact h.act_step hstep
  | release c l at' => exact h.release_step hstep
  | restore c => exact h.restore_step hstep
  | interrupt c l => exact h.interrupt_step hstep
  | resume c => exact h.resume_step hstep

/-! ### Runs -/

theorem reach_inv (h : (ruled C V).Reach m) : ∃ s, Inv C m s := by
  refine h.induct (P := fun m => ∃ s, Inv C m s) (fun m hm => ⟨_, .of_idle hm⟩) ?_
  rintro m e m' ⟨s, hs⟩ ⟨hrule, hstep⟩
  obtain ⟨s', hs', -⟩ : Matched C (fun _ => True) m s e m' := hs.step hrule hstep
  exact ⟨s', hs'⟩

/-- **Who is in the functions is not interrupted**: an activity that has the lock or waits for it is
the one that runs on its processor, with interrupts off, so nothing waits for the lock where its
owner is. -/
theorem lock_safe (h : (ruled C V).Reach m) {pc : Pc ℓ} (hpc : pc ∈ (m.cpu c).activities)
    (hin : pc.Inside ∨ pc.Waiting) :
    pc = (m.cpu c).running ∧ (m.cpu c).accepts = false ∧
      ∀ pc' ∈ (m.cpu c).interrupted, ¬ pc'.Inside ∧ ¬ pc'.Waiting := by
  obtain ⟨s, hs⟩ := reach_inv h
  have hquiet := fun pc' hpc' => (hs.interrupted c pc' hpc').quiet
  rcases List.mem_cons.mp hpc with rfl | hpc
  · exact ⟨rfl, (hs.running c).masked hin, hquiet⟩
  · exact absurd hin (not_or.mpr (hquiet pc hpc))

theorem lock_safe_contended : Pc.spinning (some true) 0 = (contended.cpu false).running ∧
    (contended.cpu false).accepts = false ∧
      ∀ pc' ∈ (contended.cpu false).interrupted, ¬ pc'.Inside ∧ ¬ pc'.Waiting :=
  lock_safe contended_reach List.mem_cons_self (.inr trivial)

/-- **Sections are one step**: a run of the instructions is a run of the machine with sections of
one step, each done when its lock is released and with the interrupt flag as it was before its
call. -/
theorem sections_atomic (hsep : Separate C ι) (hm : Idle m) {l : List (Instr ι ℓ)}
    (h : (ruled C V).Run m l m') : ∃ s, Inv C m' s ∧
      (C.atomic start).Run (viewAll m m.shared) (l.filterMap shown) (viewAll m' s) := by
  obtain ⟨t, hrun, s, hs, rfl⟩ := h.simulate (T := C.atomic start) shown
    (fun m t => ∃ s, Inv C m s ∧ t = viewAll m s) (fun m e m' t ht hstep => by
      obtain ⟨s, hs, rfl⟩ := ht
      obtain ⟨s', hs', hrun⟩ : Matched C start m s e m' := hs.step hstep.1 hstep.2
      exact ⟨_, hrun hsep, s', hs', rfl⟩) ⟨_, .of_idle hm, rfl⟩
  exact ⟨s, hs, hrun⟩

end

theorem counting_private : counting.Private := fun _ _ _ _ _ _ h => h.elim

example : ∃ s, Inv counting contended s ∧
    (counting.atomic (fun _ => True)).Run (viewAll twoCounting 0)
    ([] : List (Sections.Label Bool Nat)) (viewAll contended s) :=
  sections_atomic (.inr counting_private) twoCounting_idle contended_run

end CobraOS.Sync
