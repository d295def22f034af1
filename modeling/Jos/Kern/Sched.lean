import Jos.Kern.Env

/-!
# The scheduler (`kern/sched.c`)

Round-robin choice of the next environment, and the functions that end in it.
-/

namespace Jos

open Lib

def offsetStatus : Nat := 84
def envRunnable : Word := 2

/-- `envs[i].env_status == ENV_RUNNABLE`. The scan reaches `i = NENV`, one past
the table, and there reads whatever memory follows it. -/
def Kernel.runnableAt (k : Kernel) (i : Nat) : Bool :=
  if h : i < nenv then (k.envs ⟨i, h⟩).status = .runnable
  else k.pmap.mem.read32 (k.pmap.layout.envs + i * sizeofEnv + offsetStatus) = envRunnable

def Kernel.schedScan (k : Kernel) : Nat → Nat → Option Nat
  | 0, _ => none
  | n + 1, idle =>
    if k.runnableAt idle then some idle
    else k.schedScan n (if idle ≥ nenv then 0 else idle + 1)

/-- Never returns. -/
def schedHalt (c : Nat) : KernelM Unit := do
  let k ← get
  if ∀ e : EnvPtr, (k.envs e).status = .free ∨ (k.envs e).status = .notRunnable then throw .monitor
  else
    setCurenv c none
    modify fun k => k.setCpu c { k.cpus c with status := .halted }
    throw .halt

def Kernel.firstSlot (k : Kernel) (c : Nat) : Nat :=
  match k.curenv c with
  | none => 0
  | some cur => cur.1 + 1

/-- Never returns. -/
def schedYield (c : Nat) : KernelM Unit := do
  let k ← get
  match k.schedScan 1024 (k.firstSlot c) with
  | some i => if h : i < nenv then envRun c ⟨i, h⟩ else throw .wild
  | none =>
    match k.curenv c with
    | some cur => if (k.envs cur).status = .running then envRun c cur else schedHalt c
    | none => schedHalt c

def envDestroy (c : Nat) (e : EnvPtr) : KernelM Unit := do
  let k ← get
  if (k.envs e).status = .running ∧ k.curenv c ≠ some e then
    modifyEnv e fun env => { env with status := .dying }
  else
    envFree e
    if k.curenv c = some e then
      setCurenv c none
      schedYield c

def userMemAssert (c : Nat) (cur : EnvPtr) (va len perm : Word) : KernelM Unit := do
  let pgdir := ((← get).envs cur).pgdir
  if (← liftPmap (userMemCheck pgdir va len (perm ||| pteU))) < 0 then envDestroy c cur

end Jos
