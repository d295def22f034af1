import Jos.Lib.Chain
import Jos.Kern.Env

/-!
# Starting up (`mem_init` in `kern/pmap.c`, `i386_init` in `kern/init.c`)

From the memory the firmware leaves to a kernel without environments. The
functions that only test the allocator put back what they take; `Tested` says
in which state they may leave it.
-/

namespace Jos

open Lib

/-- What `mem_init` finds: the kilobytes of memory the NVRAM reports, and where
the linker put the end of the kernel and its stacks. -/
structure Machine where
  basemem : BitVec 16
  extmem : BitVec 16
  kernelEnd : Nat
  bootstack : Word
  percpuKstacks : Nat → Word
  kernelEnd_ge : 0x100000 ≤ kernelEnd
  /-- `entry_pgdir` maps no more. -/
  kernelEnd_le : kernelEnd ≤ 0x400000
  percpuKstacks_aligned : ∀ i, (percpuKstacks i).toNat % 4096 = 0

def Machine.npages (mach : Machine) : Nat :=
  if mach.extmem.toNat * 1024 / pgsize ≠ 0 then 0x100000 / pgsize + mach.extmem.toNat * 1024 / pgsize
  else mach.basemem.toNat * 1024 / pgsize

theorem Machine.npages_le (mach : Machine) : mach.npages ≤ 16639 := by
  have h := mach.basemem.isLt
  have h' := mach.extmem.isLt
  unfold Machine.npages pgsize
  split <;> omega

theorem Machine.npages_fits (mach : Machine) : mach.npages ≤ 65536 :=
  Nat.le_trans mach.npages_le (by decide)

/-- The static variables of `boot_alloc` and `mmio_map_region` beside the rest. -/
structure Boot where
  pmap : Pmap
  nextfree : Nat
  base : Word

abbrev BootM := M Boot Panic

def liftBoot (m : PmapM α) : BootM α := do
  let b ← get
  match exec m b.pmap with
  | (.ok a, s) =>
    set { b with pmap := s }
    return a
  | (.error p, s) =>
    set { b with pmap := s }
    throw p

def modifyPmap (f : Pmap → Pmap) : BootM Unit := modify fun b => { b with pmap := f b.pmap }

def roundupPage (a : Nat) : Nat := (a + pgsize - 1) / pgsize * pgsize

def bootAlloc (mach : Machine) (n : Nat) : BootM Nat := do
  modify fun b => if b.nextfree = 0 then { b with nextfree := roundupPage mach.kernelEnd } else b
  let result := (← get).nextfree
  if n > 0 then
    let nextfree := roundupPage (result + n)
    modify fun b => { b with nextfree := nextfree }
    if nextfree > (← get).pmap.layout.npages * pgsize then throw .bootAlloc
  return result

def pageInit (mach : Machine) : BootM Unit := do
  (List.range (← get).pmap.layout.npages).forM fun i => do
    let first ← bootAlloc mach 0
    let used : Bool := i = 0 ∨ (0x0A0000 / pgsize ≤ i ∧ i < 0x100000 / pgsize) ∨
      (0x100000 / pgsize ≤ i ∧ i < first / pgsize) ∨ i = 0x7000 / pgsize
    if used then modifyPmap fun s => s.setPage i ⟨none, 0#16⟩
    else modifyPmap fun s => { s.setPage i ⟨s.pageFreeList, 0#16⟩ with pageFreeList := some i }

/-- One page of `boot_map_region`; without memory for a table it is skipped. -/
def bootMapPage (pgdir : Nat) (va pa perm : Word) : PmapM Unit := do
  match ← pgdirWalk pgdir va true with
  | none => return
  | some ptep =>
    store ptep (pa ||| perm ||| pteP)
    store (pgdir + 4 * pdx va) ((← load (pgdir + 4 * pdx va)) ||| (perm ||| pteP))

def bootMapRegion (pgdir : Nat) (va size pa perm : Word) : PmapM Unit :=
  if va + size < va then throw .bootMapRegion
  else (List.range ((size.toNat + pgsize - 1) / pgsize)).forM fun j =>
    bootMapPage pgdir (va + BitVec.ofNat 32 (pgsize * j)) (pa + BitVec.ofNat 32 (pgsize * j)) perm

def mmioMapRegion (pa size : Word) : BootM Word := do
  let size := roundup size 4096
  let base := (← get).base
  if base + size > mmiolim then throw .mmioMapRegion
  else
    liftBoot (bootMapRegion (← get).pmap.layout.kernPgdir base size pa (ptePCD ||| ptePWT ||| pteW))
    modify fun b => { b with base := base + size }
    return base

def ncpu : Nat := 8

def memInitMp (mach : Machine) : PmapM Unit := do
  let kernPgdir := (← get).layout.kernPgdir
  (List.range ncpu).forM fun i =>
    bootMapRegion kernPgdir (kstacktop - BitVec.ofNat 32 i * (kstksize + kstkgap) - kstksize) kstksize
      (mach.percpuKstacks i) (pteW ||| pteP)

def checkVa2pa (pgdir : Nat) (va : Word) : PmapM Word := do
  let pde ← load (pgdir + 4 * pdx va)
  if pde &&& pteP = 0 then return 0xFFFFFFFF
  else
    let pte ← load ((← kaddr (pteAddr pde)) + 4 * ptx va)
    if pte &&& pteP = 0 then return 0xFFFFFFFF else return pteAddr pte

def assertKernPgdir (p : Bool) : PmapM Unit := if p then return else throw .kernPgdir

def checkRange (pgdir : Nat) (va pa : Word) (n : Nat) : PmapM Unit :=
  (List.range n).forM fun i => do
    assertKernPgdir ((← checkVa2pa pgdir (va + BitVec.ofNat 32 (pgsize * i))) == pa + BitVec.ofNat 32 (pgsize * i))

def kernPdeOk (i : Nat) (pde : Word) : Bool :=
  if i = pdx uvpt ∨ i = pdx (kstacktop - 1) ∨ i = pdx upages ∨ i = pdx uenvs ∨ i = pdx mmiobase then
    pde &&& pteP ≠ 0
  else if i ≥ pdx kernbase then pde &&& pteP ≠ 0 ∧ pde &&& pteW ≠ 0
  else pde = 0

def sizeofPageInfo : Nat := 8

def checkKernPgdir (mach : Machine) : PmapM Unit := do
  let layout := (← get).layout
  let pgdir := layout.kernPgdir
  checkRange pgdir upages (BitVec.ofNat 32 layout.pages) (roundupPage (layout.npages * sizeofPageInfo) / pgsize)
  checkRange pgdir uenvs (BitVec.ofNat 32 layout.envs) (roundupPage (nenv * sizeofEnv) / pgsize)
  checkRange pgdir kernbase 0 layout.npages
  (List.range ncpu).forM fun n => do
    let base := kstacktop - (kstksize + kstkgap) * BitVec.ofNat 32 (n + 1)
    checkRange pgdir (base + kstkgap) (mach.percpuKstacks n) 8
    (List.range 8).forM fun i => do
      assertKernPgdir ((← checkVa2pa pgdir (base + BitVec.ofNat 32 (pgsize * i))) == 0xFFFFFFFF)
  (List.range npdentries).forM fun i => do
    assertKernPgdir (kernPdeOk i (← load (pgdir + 4 * i)))

/-- `mem_init` up to `page_init`. -/
def memInitPages (mach : Machine) : BootM Unit := do
  let kernPgdir ← bootAlloc mach pgsize
  modifyPmap fun s => { s with
    layout := { s.layout with kernPgdir := kernPgdir }
    mem := s.mem.fill kernPgdir pgsize 0#8 }
  liftBoot (store (kernPgdir + 4 * pdx uvpt) (BitVec.ofNat 32 kernPgdir ||| pteU ||| pteP))
  let pages ← bootAlloc mach ((← get).pmap.layout.npages * sizeofPageInfo)
  modifyPmap fun s => { s with layout := { s.layout with pages := pages }, pages := fun _ => ⟨none, 0#16⟩ }
  let envs ← bootAlloc mach (nenv * sizeofEnv)
  modifyPmap fun s => { s with layout := { s.layout with envs := envs } }
  pageInit mach

/-- The end of `check_page`: two regions mapped and unmapped again, which leaves
the table behind `MMIOBASE`. -/
def checkMmio : BootM Unit := do
  let mm1 ← mmioMapRegion 0 4097
  let mm2 ← mmioMapRegion 0 4096
  let kernPgdir := (← get).pmap.layout.kernPgdir
  [mm1, mm1 + 4096, mm2].forM fun va => liftBoot do
    match ← pgdirWalk kernPgdir va false with
    | none => throw .kernelFault
    | some ptep => store ptep 0#32

/-- `mem_init` from the mapping of `pages` to `check_kern_pgdir`. -/
def memInitMaps (mach : Machine) : BootM Unit := liftBoot do
  let layout := (← get).layout
  let pgdir := layout.kernPgdir
  bootMapRegion pgdir upages ptsize (BitVec.ofNat 32 layout.pages) pteU
  bootMapRegion pgdir uenvs ptsize (BitVec.ofNat 32 layout.envs) pteU
  bootMapRegion pgdir (kstacktop - kstksize) kstksize mach.bootstack (pteW ||| pteP)
  bootMapRegion pgdir kernbase (0xFFFFFFFF - kernbase) 0 (pteW ||| pteP)
  memInitMp mach
  checkKernPgdir mach

/-- What `check_page_free_list`, `check_page_alloc` and the like leave: the same
pages on `page_free_list`, in some order and with some contents. -/
structure Tested (s s' : Pmap) : Prop where
  layout : s'.layout = s.layout
  uninit : s'.uninit ≠ 0
  ref : ∀ p, (s'.pages p).ppRef = (s.pages p).ppRef
  free : ∃ l l', Chain (fun p => (s.pages p).ppLink) s.pageFreeList l ∧
    Chain (fun p => (s'.pages p).ppLink) s'.pageFreeList l' ∧ l'.Perm l ∧
    (∀ p, p ∉ l → (s'.pages p).ppLink = (s.pages p).ppLink) ∧ ∀ a, a / pgsize ∉ l → s'.mem a = s.mem a

/-- The machine before `mem_init`: any memory, and the globals zero. -/
def Machine.start (mach : Machine) (m : Mem) : Boot where
  pmap := {
    layout := { npages := mach.npages, npages_le := mach.npages_fits, kernPgdir := 0, pages := 0, envs := 0 }
    mem := m
    pages := fun _ => ⟨none, 0#16⟩
    pageFreeList := none
    userMemCheckAddr := 0
    uninit := 1 }
  nextfree := 0
  base := mmiobase

def zeroEnv : Env where
  tf := ⟨.zero, 0, 0, 0, 0, 0, 0, 0, 0, 0⟩
  link := none
  id := 0
  parentId := 0
  type := .user
  status := .free
  runs := 0
  cpunum := 0
  pgdir := 0
  pgfaultUpcall := 0
  ipcRecving := false
  ipcDstva := 0
  ipcValue := 0
  ipcFrom := 0
  ipcPerm := 0

/-- The kernel when `mem_init` has returned, with no environment and no CPU in
the scheduler. -/
def Boot.kernel (b : Boot) : Kernel where
  pmap := b.pmap
  envs := fun _ => zeroEnv
  envFreeList := none
  cpus := fun _ => ⟨.unused, none⟩
  ticks := 0
  tx := ⟨0, fun _ => true⟩

/-- `i386_init` up to the creation of the first environment, on memory `m`:
`mem_init`, `env_init`, and the devices' registers mapped one after the other. -/
inductive Boots (mach : Machine) (k : Kernel) : Prop
  | intro (m : Mem) (b1 b2 b3 b4 : Boot) (s1 s3 : Pmap) (devices : List (Word × Word)) :
      exec (memInitPages mach) (mach.start m) = (.ok (), b1) →
      Tested b1.pmap s1 →
      exec (do checkMmio; memInitMaps mach) { b1 with pmap := s1 } = (.ok (), b2) →
      Tested b2.pmap s3 →
      b3 = { b2 with pmap := s3 } →
      exec (devices.forM fun d => do let _ ← mmioMapRegion d.1 d.2) b3 = (.ok ⟨⟩, b4) →
      exec envInit b4.kernel = (.ok (), k) → Boots mach k

end Jos
