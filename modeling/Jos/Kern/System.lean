import Jos.Kern.Effects

/-!
# The machine

The kernel runs under one lock, so what the machine does is a sequence of
whole kernel entries, from any CPU in any order, with stores by user programs
in between. A run goes on only after the kernel has been left for user mode or
the idle loop; a panic and the monitor end it.
-/

namespace Jos

open Lib

inductive Event
  | start (c : Nat)
  /-- A trap from user mode, or an interrupt that wakes a halted CPU. -/
  | trap (c : Nat) (tf : Trapframe) (cr2 : Word)
  | create (binary : Elf) (type : EnvType)
  | store (c : Nat) (va : Word) (b : BitVec 8)
  /-- The stack slots of the kernel hold something else. -/
  | stack (v : Nat)
  | card (i : Nat)

def Event.cpu : Event → Option Nat
  | .start c | .trap c _ _ | .store c _ _ => some c
  | .create _ _ | .stack _ | .card _ => none

/-- The kernel is left for user mode or the idle loop. -/
inductive Exit.GoesOn : Exit → Prop
  | run : Exit.GoesOn (.run e)
  | halt : Exit.GoesOn .halt

/-- A trap that the hardware can raise: from an environment that runs, or on a
halted CPU. -/
def Kernel.CanTrap (k : Kernel) (c : Nat) (tf : Trapframe) : Prop :=
  (tf.cs &&& 3 = 3 ∧ ∃ e, k.curenv c = some e) ∨
    (tf.cs &&& 3 ≠ 3 ∧ (k.cpus c).status = .halted ∧ k.curenv c = none)

inductive Step (k : Kernel) : Event → Kernel → Prop
  | start : (k.cpus c).status = .unused → k.curenv c = none →
      exec (schedYield c) (k.awake c) = (.error x, k') → x.GoesOn → Step k (.start c) k'
  | trap : k.CanTrap c tf → exec (trap c tf cr2) k = (.error x, k') → x.GoesOn → Step k (.trap c tf cr2) k'
  | create : exec (envCreate binary type) k = (.ok (), k') → Step k (.create binary type) k'
  | store : k.curenv c = some e → translate k.pmap.mem (k.envs e).pgdir va = some (p, f) →
      userCanWrite k.pmap.mem (k.envs e).pgdir va = true →
      Step k (.store c va b)
        (k.withPmap { k.pmap with mem := Function.update k.pmap.mem (physical p va) b })
  | stack : v ≠ 0 → Step k (.stack v) (k.withPmap { k.pmap with uninit := v })
  | card : Step k (.card i) { k with tx := { k.tx with done := Function.update k.tx.done i true } }

/-- Runs every step of which meets `ok`. -/
def Runs (ok : Kernel → Event → Kernel → Prop) : Kernel → Kernel → Prop :=
  Relation.ReflTransGen fun k k' => ∃ ev, Step k ev k' ∧ ok k ev k'

theorem Runs.invariant {ok : Kernel → Event → Kernel → Prop} {I : Kernel → Prop} (hr : Runs ok k0 k) (h0 : I k0)
    (hs : ∀ k ev k', I k → Step k ev k' → ok k ev k' → I k') : I k := by
  induction hr with
  | refl => exact h0
  | tail _ hstep ih =>
    obtain ⟨ev, hst, hok⟩ := hstep
    exact hs _ ev _ ih hst hok

/-- What a step does, with the kernel entries taken apart. -/
inductive StepDoes (k : Kernel) : Event → Kernel → Prop
  | start : k.curenv c = none → Exits (k.awake c) c (x, k') → x.GoesOn → StepDoes k (.start c) k'
  | trap : Ready c tf k k1 → Exits k1 c (x, k') → x.GoesOn → StepDoes k (.trap c tf cr2) k'
  | create : exec (envCreate binary type) k = (.ok (), k.created e s pgdir binary.entry type) →
      k.envFreeList = some e → StepDoes k (.create binary type) (k.created e s pgdir binary.entry type)
  | store : k.curenv c = some e → translate k.pmap.mem (k.envs e).pgdir va = some (p, f) →
      userCanWrite k.pmap.mem (k.envs e).pgdir va = true →
      StepDoes k (.store c va b)
        (k.withPmap { k.pmap with mem := Function.update k.pmap.mem (physical p va) b })
  | stack : v ≠ 0 → StepDoes k (.stack v) (k.withPmap { k.pmap with uninit := v })
  | card : StepDoes k (.card i) { k with tx := { k.tx with done := Function.update k.tx.done i true } }

theorem Step.does (h : Step k ev k') : StepDoes k ev k' := by
  cases h with
  | start _ hnone hexec hx =>
    rw [exec_schedYield] at hexec
    obtain ⟨hexit, rfl⟩ := Prod.mk.inj hexec
    obtain rfl := Except.error.inj hexit
    exact .start hnone (.sched (yields _ _)) hx
  | trap _ hexec hx =>
    obtain ⟨p, rfl⟩ | rfl | ⟨k1, hr, he⟩ := (trap_ends k _ _ _).error hexec
    · cases hx
    · cases hx
    · exact .trap hr he hx
  | create hexec =>
    obtain ⟨e, s, pgdir, s1, s2, hf, -, -, -, rfl⟩ := (envCreate_cases k _ _).ok hexec
    exact .create hexec hf
  | store hc ht hw => exact .store hc ht hw
  | stack hv => exact .stack hv
  | card => exact .card

theorem Step.curenv_of_ne (h : Step k ev k') (hne : ev.cpu ≠ some c) : k'.curenv c = k.curenv c := by
  cases h.does with
  | start _ he _ => exact (he.curenv_of_ne fun h => hne (congrArg some h.symm)).trans awake_curenv
  | @trap c' _ _ _ _ _ hr he _ =>
    have hc : c ≠ c' := fun h => hne (congrArg some h.symm)
    exact (he.curenv_of_ne hc).trans (hr.curenv_of_ne hc)
  | create _ _ | store _ _ _ | stack _ | card => rfl

end Jos
