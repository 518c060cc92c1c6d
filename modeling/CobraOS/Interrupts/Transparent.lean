import CobraOS.Base.System
import CobraOS.Interrupts.Eoi
import CobraOS.Interrupts.Stubs

/-!
# Interrupts do not disturb what they interrupt

A program goes on by steps, and between any two of them interrupts come, in any number.  An
interrupt uses the stack below the stack pointer of the program, and its handlers work on memory of
their own.  As long as the program does not rely on what is there (`Respects`), it does not see the
interrupts: after each of its steps its registers, flags, stack and memory are those of a run
without interrupts (`interrupts_transparent`).
-/

namespace CobraOS.Interrupts

open Base Base.X86

variable {σ : Type} {t : Vectors} {own : Set Word} {depth : Nat} {p : Cpu → Cpu} {c c' c'' : Cpu}

/-- What is below the stack pointer, and not kept for the program. -/
def below (depth : Nat) (c : Cpu) : Set Word := range (c.reg .esp - BitVec.ofNat 32 depth) depth

/-- Two states that the program cannot tell apart. -/
structure Alike (own : Set Word) (depth : Nat) (c c' : Cpu) : Prop where
  reg : c'.reg = c.reg
  seg : c'.seg = c.seg
  eflags : c'.eflags = c.eflags
  eip : c'.eip = c.eip
  mem : ∀ x ∈ own, x ∉ below depth c → c'.mem x = c.mem x

theorem Alike.refl (c : Cpu) : Alike own depth c c := ⟨rfl, rfl, rfl, rfl, fun _ _ _ => rfl⟩

theorem Alike.trans (h : Alike own depth c c') (h' : Alike own depth c' c'') :
    Alike own depth c c'' := by
  refine ⟨h'.reg.trans h.reg, h'.seg.trans h.seg, h'.eflags.trans h.eflags, h'.eip.trans h.eip,
    fun x hx hb => ?_⟩
  rw [h'.mem x hx (by unfold below at *; rwa [h.reg]), h.mem x hx hb]

/-- A program that does not rely on the memory of the handlers, nor on what is below its stack
pointer. -/
def Respects (own : Set Word) (depth : Nat) (p : Cpu → Cpu) : Prop :=
  ∀ c c', Alike own depth c c' → Alike own depth (p c) (p c')

/-- The dispatcher in an interrupt of `c`: it does what `interruptDispatch` says, and it writes to
the memory of the program only below its stack pointer. -/
def Serves (σ : Type) (own : Set Word) (depth : Nat) (c : Cpu) (v : Nat)
    (f : Cpu → Option Cpu) : Prop :=
  ∀ e d, Entered c v 0 e → f e = some d →
    ∃ (handlers : Nat → Option (Handler σ)) (table : SyscallTable)
    (k k' : Kernel σ), Dispatched handlers table k k' (c.reg .esp - 68) e d ∧
      ∀ x ∈ own, x ∉ below depth c → d.mem x = e.mem x

/-- The program takes a step, or an interrupt of a line comes.  The dispatcher may do something else
each time. -/
def interrupted (σ : Type) (t : Vectors) (own : Set Word) (depth : Nat) (p : Cpu → Cpu) :
    System Cpu (Option Nat) where
  init _ := True
  step c e c' :=
    match e with
    | none => c' = p c
    | some v =>
      irqBase.toNat ≤ v ∧ v < irqBase.toNat + irqCount ∧ c.eflags.intf = true ∧ t.Loaded c.mem ∧
        ∃ f, Serves σ own depth c v f ∧ t.takes f c v none = some c'

/-- The steps that the program has taken. -/
def steps (l : List (Option Nat)) : Nat := l.countP (· == none)

/-- **One interrupt.** -/
theorem Alike.interrupt (hdepth : 72 ≤ depth) (hmax : depth ≤ 4294967296) {v : Nat}
    (h : (interrupted σ t own depth p).step c (some v) c') : Alike own depth c c' := by
  obtain ⟨hlow, hhigh, -, hloaded, f, hserves, htakes⟩ := h
  have hv : v < idtSize := by
    unfold irqCount at hhigh
    exact lt_trans hhigh (by decide)
  have herror : (none : Option Word).isSome = decide (v ∈ errorVectors) := by
    have hline : 32 ≤ v ∧ v < 48 := ⟨hlow, hhigh⟩
    refine (decide_eq_false fun hmem => ?_).symm
    unfold errorVectors at hmem
    simp only [List.mem_cons, List.not_mem_nil, or_false] at hmem
    omega
  obtain ⟨e, hentered, -, hnone, hsome⟩ := interrupt_returns (σ := σ) hloaded hv herror f
  cases hf : f e with
  | none =>
    rw [hnone hf] at htakes
    cases htakes
  | some d =>
    obtain ⟨handlers, table, k, k', hdispatched, hown⟩ := hserves e d hentered hf
    rw [hsome handlers table k k' d hf hdispatched] at htakes
    cases htakes
    have heax : eaxAfter table c v = c.reg .eax := if_neg fun hcall => by
      rw [hcall] at hhigh
      exact absurd hhigh (by decide)
    refine ⟨?_, rfl, rfl, rfl, fun x hx hb => ?_⟩
    · show Function.update c.reg .eax _ = c.reg
      rw [heax, Function.update_eq_self]
    · show d.mem x = c.mem x
      rw [hown x hx hb]
      -- the frame is below the stack pointer
      refine hentered.out x fun hframe => hb ?_
      unfold below
      rw [mem_range] at hframe ⊢
      bv_omega

/-- **Interrupts are transparent**: in every run of a program and interrupts the program is where it
is after as many steps without interrupts, as far as it can tell. -/
theorem interrupts_transparent (hp : Respects own depth p) (hdepth : 72 ≤ depth)
    (hmax : depth ≤ 4294967296) {l : List (Option Nat)}
    (hrun : (interrupted σ t own depth p).Run c l c') :
    Alike own depth (p^[steps l] c) c' := by
  have hmain : ∀ c₀, Alike own depth c₀ c → Alike own depth (p^[steps l] c₀) c' := by
    induction hrun with
    | nil c => exact fun c₀ h => h
    | cons hstep hrest ih =>
      rename_i c c₁ c' e l
      intro c₀ h
      cases e with
      | none =>
        cases hstep
        have hsteps : steps (none :: l) = steps l + 1 := List.countP_cons_of_pos rfl
        rw [hsteps, Function.iterate_succ_apply]
        exact ih _ (hp c₀ c h)
      | some v =>
        have hsteps : steps (some v :: l) = steps l := List.countP_cons_of_neg (by simp)
        rw [hsteps]
        exact ih c₀ (h.trans (Alike.interrupt hdepth hmax hstep))
  exact hmain c (.refl c)

/-- Counts in `ebx`. -/
def counting (c : Cpu) : Cpu := c.setReg .ebx (c.reg .ebx + 1)

theorem counting_respects : Respects own depth counting := by
  intro c c' h
  refine ⟨?_, h.seg, h.eflags, h.eip, h.mem⟩
  show Function.update c'.reg .ebx (c'.reg .ebx + 1) = Function.update c.reg .ebx (c.reg .ebx + 1)
  rw [h.reg]

/-- It counts, a key comes, and it counts. -/
theorem interrupts_transparent_key :
    ∃ c', (interrupted Unit tableVectors Set.univ 4096 counting).Run running
    [none, some 33, none] c' ∧ Alike Set.univ 4096 (counting^[2] running) c' := by
  have hmem : ∀ c, (counting c).mem = c.mem := fun _ => rfl
  have hloaded : tableVectors.Loaded (counting running).mem := by
    rw [hmem]
    exact running_loaded
  have hserves : Serves Unit Set.univ 4096 (counting running) 33 some := by
    rintro e d hentered hed
    obtain rfl := Option.some.inj hed
    have hresult :
        Dispatched (σ := Unit) (fun _ => some fun k _ => some k) (fun _ => none) quietKernel
        (picSendEoi quietKernel 1) ((counting running).reg .esp - 68) e e := by
      exact ⟨rfl, fun _ _ _ => rfl, ⟨registersOf (counting running) 33, 2, 0, Keyboard.ready 0x1E⟩,
        registersOf (counting running) 33, hentered.registers.symm, rfl,
          hentered.word (i := 11) rfl⟩
    exact ⟨_, _, _, _, hresult, fun _ _ _ => rfl⟩
  have herror : (none : Option Word).isSome = decide (33 ∈ errorVectors) := by decide
  obtain ⟨e, hentered, -, -, hsome⟩ := interrupt_returns (σ := Unit) hloaded (by decide) herror some
  obtain ⟨handlers, table, k, k', hdispatched, -⟩ := hserves e e hentered rfl
  have htakes := hsome handlers table k k' e rfl hdispatched
  have hrun : (interrupted Unit tableVectors Set.univ 4096 counting).Run running
      [none, some 33, none] _ :=
    .cons rfl (.cons ⟨by decide, by decide, rfl, hloaded, some, hserves, htakes⟩
      (.cons rfl (.nil _)))
  exact ⟨_, hrun, interrupts_transparent counting_respects (by decide) (by decide) hrun⟩

end CobraOS.Interrupts
