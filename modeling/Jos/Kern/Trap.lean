import Jos.Kern.Syscall

/-!
# Traps (`kern/trap.c`)

Every entry into the kernel. `trap` never returns: it leaves the kernel for
user mode or for the idle loop.
-/

namespace Jos

open Lib

def trapPgflt : Word := 14
def trapBrkpt : Word := 3
def trapSyscall : Word := 48
def irqOffset : Word := 32
def irqTimer : Word := 0
def irqKbd : Word := 1
def irqSerial : Word := 4
def irqSpurious : Word := 7

def sizeofUTrapframe : Word := 52

def timeTick : KernelM Unit := do
  modify fun k => { k with ticks := k.ticks + 1 }
  let ticks := (← get).ticks
  if ticks * 10 < ticks then throw (.panic .timeOverflowed)

/-- The words of the `struct UTrapframe` pushed for a fault at `faultVa`. -/
def utrapframe (tf : Trapframe) (faultVa : Word) : List Word :=
  [faultVa, tf.err, tf.regs.edi, tf.regs.esi, tf.regs.ebp, tf.regs.oesp, tf.regs.ebx, tf.regs.edx,
    tf.regs.ecx, tf.regs.eax, tf.eip, tf.eflags, tf.esp]

def vstoreWords (pgdir : Nat) : Word → List Word → PmapM Unit
  | _, [] => return
  | va, w :: ws => do
    vstore32 pgdir va w
    vstoreWords pgdir (va + 4) ws

/-- A fault of the environment `cur`, whose registers are `tf`. -/
def pageFaultHandler (c : Nat) (cur : EnvPtr) (tf : Trapframe) (faultVa : Word) : KernelM Unit := do
  let upcall := ((← get).envs cur).pgfaultUpcall
  if upcall = 0 then envDestroy c cur
  else
    let uxtop := if tf.esp < ustacktop then uxstacktop - sizeofUTrapframe
      else tf.esp - sizeofUTrapframe - 4
    let len := if tf.esp < ustacktop then sizeofUTrapframe else sizeofUTrapframe + 4
    userMemAssert c cur uxtop len (pteW ||| pteP)
    liftPmap (vstoreWords (← envPgdir cur) uxtop (utrapframe tf faultVa))
    modifyEnv cur fun env => { env with tf := { env.tf with esp := uxtop, eip := upcall } }
    envRun c cur

/-- `user` is the environment whose saved registers `tf` are, if the trap came
from one. -/
def trapDispatch (c : Nat) (user : Option EnvPtr) (tf : Trapframe) (cr2 : Word) : KernelM Unit := do
  if tf.trapno = irqOffset + irqSpurious then return
  else if tf.trapno = irqOffset + irqTimer then
    timeTick
    schedYield c
  else if tf.trapno = irqOffset + irqKbd ∨ tf.trapno = irqOffset + irqSerial then return
  else if tf.trapno = trapPgflt then
    match user with
    | none => throw (.panic .kernelFault)
    | some cur => pageFaultHandler c cur tf cr2
  else if tf.trapno = trapBrkpt then throw .monitor
  else
    match user with
    | none => throw (.panic .unhandledTrap)
    | some cur =>
      if tf.trapno = trapSyscall then
        let r ← syscall c cur tf.regs.eax tf.regs.edx tf.regs.ecx tf.regs.ebx tf.regs.edi tf.regs.esi
        modifyEnv cur fun env => { env with tf := { env.tf with regs := { env.tf.regs with eax := r } } }
      else envDestroy c cur

def trapReturn (c : Nat) : KernelM Unit := do
  let k ← get
  match k.curenv c with
  | some cur => if (k.envs cur).status = .running then envRun c cur else schedYield c
  | none => schedYield c

def trap (c : Nat) (tf : Trapframe) (cr2 : Word) : KernelM Unit := do
  modify fun k => k.setCpu c { k.cpus c with status := .started }
  if tf.cs &&& 3 = 3 then
    match (← get).curenv c with
    | none => throw (.panic .noCurenv)
    | some cur =>
      if ((← get).envs cur).status = .dying then
        envFree cur
        setCurenv c none
        schedYield c
      else
        modifyEnv cur fun env => { env with tf := tf }
        trapDispatch c (some cur) tf cr2
  else trapDispatch c none tf cr2
  trapReturn c

end Jos
