import Jos.Kern.Sched

/-!
# System calls (`kern/syscall.c`)

`c` is the CPU the call is made on and `cur` its `curenv`.
-/

namespace Jos

open Lib

/-- `perm` as `sys_page_alloc` and its kin require it: `PTE_U` and `PTE_P`, and
nothing outside `PTE_SYSCALL`. -/
def badPerm (perm : Word) : Prop :=
  perm &&& pteU ≠ pteU ∨ perm &&& pteP ≠ pteP ∨ perm &&& ~~~pteSyscall ≠ 0

instance (perm : Word) : Decidable (badPerm perm) := by
  unfold badPerm
  infer_instance

def badVa (va : Word) : Prop := utop ≤ va ∨ va % 4096 ≠ 0

instance (va : Word) : Decidable (badVa va) := by
  unfold badVa
  infer_instance

def envPgdir (e : EnvPtr) : KernelM Nat := do
  return ((← get).envs e).pgdir

/-- What `cprintf("%.*s", len, s)` reads: characters up to a `NUL`, at most `n`. -/
def readChars (pgdir : Nat) : Nat → Word → PmapM Unit
  | 0, _ => return
  | n + 1, p => do
    if (← vload8 pgdir p) = 0#8 then return
    else readChars pgdir n (p + 1)

/-- `vprintfmt` loads a character before it looks at the precision, so it reads
one more than it prints, and a negative precision bounds nothing. -/
def charsRead (len : Word) : Nat := if len.toInt < 0 then 2 ^ 32 else len.toNat + 1

def sysCputs (c : Nat) (cur : EnvPtr) (s len : Word) : KernelM Unit := do
  userMemAssert c cur s len pteU
  if s ≠ 0 then liftPmap (readChars (← envPgdir cur) (charsRead len) s)

def sysGetenvid (cur : EnvPtr) : KernelM Word := do
  return ((← get).envs cur).id

def sysEnvDestroy (c : Nat) (cur : EnvPtr) (envid : Word) : KernelM Int := do
  match ← envid2env cur envid true with
  | none => return -eBadEnv
  | some e =>
    envDestroy c e
    return 0

def sysExofork (cur : EnvPtr) : KernelM Word := do
  match ← envAlloc ((← get).envs cur).id with
  | .inl r => return BitVec.ofInt 32 r
  | .inr e =>
    let tf := ((← get).envs cur).tf
    modifyEnv e fun env => { env with
      status := .notRunnable
      tf := { tf with regs := { tf.regs with eax := 0 } } }
    return ((← get).envs e).id

def statusOf (status : Word) : Option EnvStatus :=
  if status = 2 then some .runnable else if status = 4 then some .notRunnable else none

def sysEnvSetStatus (cur : EnvPtr) (envid status : Word) : KernelM Int := do
  match statusOf status with
  | none => return -eInval
  | some st =>
    match ← envid2env cur envid true with
    | none => return -eBadEnv
    | some e =>
      modifyEnv e fun env => { env with status := st }
      return 0

/-- `*tf` for a `struct Trapframe` at linear address `tf`, word by word. -/
def vloadTrapframe (pgdir : Nat) (tf : Word) : PmapM Trapframe := do
  let word (k : Nat) := vload32 pgdir (tf + BitVec.ofNat 32 (4 * k))
  let regs : PushRegs := {
    edi := ← word 0, esi := ← word 1, ebp := ← word 2, oesp := ← word 3
    ebx := ← word 4, edx := ← word 5, ecx := ← word 6, eax := ← word 7 }
  return {
    regs := regs
    es := (← word 8).truncate 16
    ds := (← word 9).truncate 16
    trapno := ← word 10
    err := ← word 11
    eip := ← word 12
    cs := (← word 13).truncate 16
    eflags := ← word 14
    esp := ← word 15
    ss := (← word 16).truncate 16 }

def sysEnvSetTrapframe (cur : EnvPtr) (envid tf : Word) : KernelM Int := do
  match ← envid2env cur envid true with
  | none => throw (.panic .trapframeEnv)
  | some e =>
    if tf = 0 then throw (.panic .trapframeNull)
    else
      let frame ← liftPmap (vloadTrapframe (← envPgdir cur) tf)
      modifyEnv e fun env => { env with tf := frame }
      return 0

def sysEnvSetPgfaultUpcall (cur : EnvPtr) (envid func : Word) : KernelM Int := do
  match ← envid2env cur envid true with
  | none => return -eBadEnv
  | some e =>
    modifyEnv e fun env => { env with pgfaultUpcall := func }
    return 0

def pageAllocAt (pgdir : Nat) (va perm : Word) : PmapM Int := do
  match ← pageAlloc true with
  | none => return -eNoMem
  | some pp =>
    if (← pageInsert pgdir pp va perm) = 0 then return 0
    else
      pageFree pp
      return -eNoMem

def sysPageAlloc (cur : EnvPtr) (envid va perm : Word) : KernelM Int := do
  if badVa va then return -eInval
  else if badPerm perm then return -eInval
  else
    match ← envid2env cur envid true with
    | none => return -eBadEnv
    | some e => liftPmap (pageAllocAt (← envPgdir e) va perm)

def pageMapAt (src : Nat) (srcva : Word) (dst : Nat) (dstva perm : Word) : PmapM Int := do
  match ← pageLookup src srcva (← get).uninit with
  | (none, _) => return -eInval
  | (some pp, pte) =>
    if perm &&& pteW ≠ 0 then
      -- `*pte` through a null pointer, when the lookup stored nothing.
      if pte = 0 then throw .kernelFault
      else if (← load pte) &&& pteW = 0 then return -eInval
      else return if (← pageInsert dst pp dstva perm) < 0 then -eNoMem else 0
    else return if (← pageInsert dst pp dstva perm) < 0 then -eNoMem else 0

def sysPageMap (cur : EnvPtr) (srcenvid srcva dstenvid dstva perm : Word) : KernelM Int := do
  if badVa srcva ∨ badVa dstva then return -eInval
  else if badPerm perm then return -eInval
  else
    match ← envid2env cur srcenvid true with
    | none => return -eBadEnv
    | some src =>
      match ← envid2env cur dstenvid true with
      | none => return -eBadEnv
      | some dst => liftPmap (pageMapAt (← envPgdir src) srcva (← envPgdir dst) dstva perm)

def sysPageUnmap (cur : EnvPtr) (envid va : Word) : KernelM Int := do
  if badVa va then return -eInval
  else
    match ← envid2env cur envid true with
    | none => return -eBadEnv
    | some e =>
      liftPmap (pageRemove (← envPgdir e) va)
      return 0

def ipcPageAt (src : Nat) (srcva : Word) (dst : Nat) (dstva perm : Word) : PmapM (Option Int) := do
  match ← pageLookup src srcva (← get).uninit with
  | (none, _) => return some (-eInval)
  | (some pp, pte) =>
    if perm &&& pteW = 0 then return some (-eInval)
    else if pte = 0 then throw .kernelFault
    else if (← load pte) &&& pteW = 0 then return some (-eInval)
    else if (← pageInsert dst pp dstva perm) < 0 then return some (-eNoMem)
    else return none

def sysIpcTrySend (cur : EnvPtr) (envid value srcva perm : Word) : KernelM Int := do
  match ← envid2env cur envid false with
  | none => return -eBadEnv
  | some target =>
    let env := (← get).envs target
    if env.ipcRecving = false then return -eIpcNotRecv
    else if srcva < utop ∧ srcva % 4096 ≠ 0 then return -eInval
    else
      let deliver (perm : Word) : KernelM Int := do
        let from_ := ((← get).envs cur).id
        modifyEnv target fun env => { env with
          ipcPerm := perm
          ipcRecving := false
          ipcValue := value
          ipcFrom := from_
          status := .runnable
          tf := { env.tf with regs := { env.tf.regs with eax := 0 } } }
        return 0
      if env.ipcDstva < utop ∧ srcva < utop then
        if badPerm perm then return -eInval
        else
          match ← liftPmap (ipcPageAt (← envPgdir cur) srcva (← envPgdir target) env.ipcDstva perm) with
          | some r => return r
          | none => deliver perm
      else deliver 0

def sysIpcRecv (c : Nat) (cur : EnvPtr) (dstva : Word) : KernelM Int := do
  if dstva < utop ∧ dstva % 4096 ≠ 0 then return -eInval
  else
    modifyEnv cur fun env => { env with ipcDstva := dstva, ipcRecving := true, status := .notRunnable }
    schedYield c
    return 0

def sysTimeMsec : KernelM Word := do
  return (← get).ticks * 10

def dataSize : Word := 4096
def txringLen : Nat := 64

def e1000Transmit (cur : EnvPtr) (addr length : Word) : KernelM Int := do
  let tail := (← get).tx.tdt
  if length > dataSize then throw (.panic .packetSize)
  else if (← get).tx.done tail = false then return -1
  else
    let pgdir ← envPgdir cur
    liftPmap ((List.range length.toNat).forM fun k => do
      let _ ← vload8 pgdir (addr + BitVec.ofNat 32 k))
    modify fun k => { k with tx :=
      { tdt := (tail + 1) % txringLen, done := Function.update k.tx.done tail false } }
    return 0

def sysE1000Transmit (c : Nat) (cur : EnvPtr) (addr length : Word) : KernelM Int := do
  userMemAssert c cur addr length pteW
  e1000Transmit cur addr length

/-- The dispatcher; system calls are numbered as in `inc/syscall.h`. -/
def syscall (c : Nat) (cur : EnvPtr) (syscallno a1 a2 a3 a4 a5 : Word) : KernelM Word := do
  let int (m : KernelM Int) : KernelM Word := do return BitVec.ofInt 32 (← m)
  match syscallno.toNat with
  | 0 =>
    sysCputs c cur a1 a2
    return 0
  | 1 => return 0
  | 2 => sysGetenvid cur
  | 3 => int (sysEnvDestroy c cur a1)
  | 4 => int (sysPageAlloc cur a1 a2 a3)
  | 5 => int (sysPageMap cur a1 a2 a3 a4 a5)
  | 6 => int (sysPageUnmap cur a1 a2)
  | 7 => sysExofork cur
  | 8 => int (sysEnvSetStatus cur a1 a2)
  | 9 => int (sysEnvSetTrapframe cur a1 a2)
  | 10 => int (sysEnvSetPgfaultUpcall cur a1 a2)
  | 11 =>
    schedYield c
    return 0
  | 12 => int (sysIpcTrySend cur a1 a2 a3 a4)
  | 13 => int (sysIpcRecv c cur a1)
  | 14 => sysTimeMsec
  | 15 => int (sysE1000Transmit c cur a1 a2)
  | 16 => return 0
  | _ => return BitVec.ofInt 32 (-eInval)

end Jos
