import Jos.Kern.Walk

/-!
# Environments (`kern/env.c`, `inc/env.h`, `inc/trap.h`)

The table of environments, their creation and their release. A kernel
function either returns or leaves the kernel for good (`Exit`): into an
environment, into the idle loop of a halted CPU, into the monitor, or by a
panic.
-/

namespace Jos

open Lib

/-! ## Saved registers -/

structure PushRegs where
  edi : Word
  esi : Word
  ebp : Word
  oesp : Word
  ebx : Word
  edx : Word
  ecx : Word
  eax : Word
  deriving DecidableEq, Repr

structure Trapframe where
  regs : PushRegs
  es : BitVec 16
  ds : BitVec 16
  trapno : Word
  err : Word
  eip : Word
  cs : BitVec 16
  eflags : Word
  esp : Word
  ss : BitVec 16
  deriving DecidableEq, Repr

def PushRegs.zero : PushRegs := ⟨0, 0, 0, 0, 0, 0, 0, 0⟩

def gdUT : BitVec 16 := 0x18#16
def gdUD : BitVec 16 := 0x20#16
def flIF : Word := 0x200#32
def flIOPL3 : Word := 0x3000#32

/-! ## The environment table -/

def nenv : Nat := 1024
def sizeofEnv : Nat := 124

theorem nenv_pos : 0 < nenv := by decide

abbrev EnvPtr := Fin nenv

inductive EnvStatus
  | free
  | dying
  | runnable
  | running
  | notRunnable
  deriving DecidableEq, Repr

inductive EnvType
  | user
  | fs
  | ns
  deriving DecidableEq, Repr

structure Env where
  tf : Trapframe
  link : Option EnvPtr
  id : Word
  parentId : Word
  type : EnvType
  status : EnvStatus
  runs : Word
  cpunum : Nat
  pgdir : Nat
  pgfaultUpcall : Word
  ipcRecving : Bool
  ipcDstva : Word
  ipcValue : Word
  ipcFrom : Word
  ipcPerm : Word

inductive CpuStatus
  | unused
  | started
  | halted
  deriving DecidableEq, Repr

structure CpuInfo where
  status : CpuStatus
  env : Option EnvPtr

/-- The transmit ring of the network card: the tail register and which
descriptors the card has finished with. -/
structure TxRing where
  tdt : Nat
  done : Nat → Bool

structure Kernel where
  pmap : Pmap
  envs : EnvPtr → Env
  envFreeList : Option EnvPtr
  cpus : Nat → CpuInfo
  ticks : Word
  tx : TxRing

/-- How the kernel is left. `wild` is a jump into memory that holds no
environment, after which the kernel's code decides nothing any more. -/
inductive Exit
  | run (e : EnvPtr)
  | halt
  | monitor
  | panic (p : Panic)
  | wild
  deriving DecidableEq, Repr

abbrev KernelM := M Kernel Exit

def liftPmap (m : PmapM α) : KernelM α := do
  let k ← get
  match exec m k.pmap with
  | (.ok a, s) =>
    set { k with pmap := s }
    return a
  | (.error p, s) =>
    set { k with pmap := s }
    throw (.panic p)

def Kernel.setEnv (k : Kernel) (e : EnvPtr) (env : Env) : Kernel :=
  { k with envs := Function.update k.envs e env }

def modifyEnv (e : EnvPtr) (f : Env → Env) : KernelM Unit :=
  modify fun k => k.setEnv e (f (k.envs e))

def Kernel.curenv (k : Kernel) (c : Nat) : Option EnvPtr := (k.cpus c).env

def Kernel.setCpu (k : Kernel) (c : Nat) (cpu : CpuInfo) : Kernel :=
  { k with cpus := Function.update k.cpus c cpu }

def setCurenv (c : Nat) (e : Option EnvPtr) : KernelM Unit :=
  modify fun k => k.setCpu c { k.cpus c with env := e }

def envx (envid : Word) : EnvPtr :=
  ⟨(envid &&& 1023#32).toNat, by
    rw [BitVec.toNat_and]
    exact Nat.lt_of_le_of_lt Nat.and_le_right (by decide)⟩

/-- `cur` is the caller's `curenv`, which a system call always has. -/
def envid2env (cur : EnvPtr) (envid : Word) (checkperm : Bool) : KernelM (Option EnvPtr) := do
  let k ← get
  if envid = 0 then return some cur
  else
    let e := envx envid
    if (k.envs e).status = .free ∨ (k.envs e).id ≠ envid then return none
    else if checkperm ∧ e ≠ cur ∧ (k.envs e).parentId ≠ (k.envs cur).id then return none
    else return some e

def envInit : KernelM Unit :=
  modify fun k => { k with
    envs := fun i => { k.envs i with
      status := .free
      id := 0
      link := if h : i.1 + 1 < nenv then some ⟨i.1 + 1, h⟩ else none }
    envFreeList := some ⟨0, nenv_pos⟩ }

/-! ## Creating an environment -/

/-- Returns the new page directory. -/
def envSetupVm : PmapM (Option Nat) := do
  match ← pageAlloc true with
  | none => return none
  | some p =>
    modify fun s => s.incref p
    let pgdir ← page2kva p
    (List.range pdxUtop).forM fun i => store (pgdir + 4 * i) 0#32
    let kernPgdir := (← get).layout.kernPgdir
    (List.range' pdxUtop (npdentries - pdxUtop)).forM fun i => do
      store (pgdir + 4 * i) (← load (kernPgdir + 4 * i))
    store (pgdir + 4 * pdx uvpt) (BitVec.ofNat 32 pgdir ||| pteP ||| pteU)
    return some pgdir

def envgenshift : Nat := 12

def nextEnvId (id : Word) (e : EnvPtr) : Word :=
  let generation := (id + 1#32 <<< envgenshift) &&& ~~~1023#32
  let generation := if generation.toInt ≤ 0 then 1#32 <<< envgenshift else generation
  generation ||| BitVec.ofNat 32 e.1

def initialTf : Trapframe :=
  { regs := .zero, es := gdUD ||| 3#16, ds := gdUD ||| 3#16, trapno := 0, err := 0, eip := 0
    cs := gdUT ||| 3#16, eflags := flIF, esp := ustacktop, ss := gdUD ||| 3#16 }

def envAlloc (parentId : Word) : KernelM (Int ⊕ EnvPtr) := do
  match (← get).envFreeList with
  | none => return .inl (-eNoFreeEnv)
  | some e =>
    match ← liftPmap envSetupVm with
    | none => return .inl (-eNoMem)
    | some pgdir =>
      modifyEnv e fun env => { env with
        pgdir := pgdir
        id := nextEnvId env.id e
        parentId := parentId
        type := .user
        status := .runnable
        runs := 0
        tf := initialTf
        pgfaultUpcall := 0
        ipcRecving := false }
      modify fun k => { k with envFreeList := (k.envs e).link }
      return .inr e

theorem regionAlloc_step {start fin : Word} (h : start < fin) (hf : fin ≤ utop) :
    (start + 4096).toNat = start.toNat + 4096 := by
  rw [BitVec.lt_def] at h
  rw [BitVec.le_def, utop_toNat] at hf
  rw [BitVec.toNat_add]
  simp only [BitVec.ofNat_eq_ofNat, BitVec.toNat_ofNat]
  omega

def regionAllocLoop (pgdir : Nat) (fin : Word) (hf : fin ≤ utop) (start : Word) : PmapM Unit :=
  if h : start < fin then do
    match ← pageAlloc false with
    | none => throw .regionAllocMemory
    | some page =>
      if (← pageInsert pgdir page start (pteW ||| pteU)) ≠ 0 then throw .regionAllocInsert
      else regionAllocLoop pgdir fin hf (start + 4096)
  else return
termination_by fin.toNat - start.toNat
decreasing_by
  have hs := regionAlloc_step h hf
  rw [BitVec.lt_def] at h
  omega

def regionAlloc (pgdir : Nat) (va len : Word) : PmapM Unit :=
  if hf : roundup (va + len) 4096 ≤ utop then
    regionAllocLoop pgdir (roundup (va + len) 4096) hf (rounddown va 4096)
  else throw .regionAllocUtop

structure Proghdr where
  type : Word
  va : Word
  filesz : Word
  memsz : Word
  /-- The bytes of the image from `p_offset` on. -/
  data : Nat → BitVec 8

structure Elf where
  magic : Word
  entry : Word
  ph : List Proghdr

def elfMagic : Word := 0x464C457F#32
def elfProgLoad : Word := 1

def loadSegment (pgdir : Nat) (ph : Proghdr) : PmapM Unit :=
  if ph.type = elfProgLoad then
    if ph.filesz ≤ ph.memsz then do
      regionAlloc pgdir ph.va ph.memsz
      vstoreBytes pgdir ph.va ph.memsz.toNat fun _ => 0#8
      vstoreBytes pgdir ph.va ph.filesz.toNat ph.data
    else throw .fileszGtMemsz
  else return

def loadIcode (e : EnvPtr) (binary : Elf) : KernelM Unit := do
  if binary.magic ≠ elfMagic then throw (.panic .notElf)
  else
    let pgdir := ((← get).envs e).pgdir
    binary.ph.forM fun ph => liftPmap (loadSegment pgdir ph)
    modifyEnv e fun env => { env with tf := { env.tf with eip := binary.entry } }
    liftPmap (regionAlloc pgdir (ustacktop - 4096) 4096)

def envCreate (binary : Elf) (type : EnvType) : KernelM Unit := do
  match ← envAlloc 0 with
  | .inl _ => throw (.panic .envAlloc)
  | .inr e =>
    loadIcode e binary
    modifyEnv e fun env => { env with type := type }
    if type = .fs then
      modifyEnv e fun env => { env with tf := { env.tf with eflags := env.tf.eflags ||| flIOPL3 } }

/-! ## Releasing and running an environment -/

/-- Unmaps everything the table behind entry `pdeno` maps, then gives up the table. -/
def envFreeTable (pgdir pdeno : Nat) : PmapM Unit := do
  let pde ← load (pgdir + 4 * pdeno)
  if pde &&& pteP = pteP then
    let pa := pteAddr pde
    let pt ← kaddr pa
    (List.range nptentries).forM fun pteno => do
      if (← load (pt + 4 * pteno)) &&& pteP = pteP then pageRemove pgdir (pgaddr pdeno pteno 0)
    store (pgdir + 4 * pdeno) 0#32
    pageDecref (← pa2page pa)

def envFreeSpace (pgdir : Nat) : PmapM Unit := do
  (List.range pdxUtop).forM fun pdeno => envFreeTable pgdir pdeno
  pageDecref (← pa2page (BitVec.ofNat 32 pgdir))

def envFree (e : EnvPtr) : KernelM Unit := do
  let pgdir := ((← get).envs e).pgdir
  liftPmap (envFreeSpace pgdir)
  modify fun k => { k.setEnv e { k.envs e with pgdir := 0, status := .free, link := k.envFreeList } with
    envFreeList := some e }

/-- Never returns: `env_pop_tf` leaves for user mode. -/
def envRun (c : Nat) (e : EnvPtr) : KernelM Unit := do
  let k ← get
  if k.curenv c ≠ some e then
    match k.curenv c with
    | some old =>
      if (k.envs old).status = .running then
        modifyEnv old fun env => { env with status := .runnable }
    | none => pure ()
    setCurenv c (some e)
    modifyEnv e fun env => { env with status := .running, runs := env.runs + 1 }
  modifyEnv e fun env => { env with cpunum := c }
  throw (.run e)

end Jos
