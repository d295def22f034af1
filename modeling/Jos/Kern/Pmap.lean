import Jos.Lib.Memory
import Jos.Lib.Triple
import Jos.Kern.Mmu

/-!
# Physical memory and page tables (`kern/pmap.c`)

The page allocator and the two-level page tables. Page tables live in the
same physical memory as everything else: a directory or a table is a page,
an entry is a word of it. A `struct PageInfo *` is a page number; any other
kernel pointer is the physical address behind it, with `0` for `NULL`.
-/

namespace Jos

open Lib

/-- The reasons the kernel stops for good: its panics, a page fault in kernel
mode, and a store over the kernel's own memory, after which its code decides
nothing any more. -/
inductive Panic
  | kaddr
  | pa2page
  | pageFree
  | bootAlloc
  | bootMapRegion
  | mmioMapRegion
  | kernPgdir
  | kernelFault
  | wildStore
  | unhandledTrap
  | regionAllocUtop
  | regionAllocMemory
  | regionAllocInsert
  | notElf
  | fileszGtMemsz
  | envAlloc
  | trapframeEnv
  | trapframeNull
  | timeOverflowed
  | noCurenv
  | packetSize
  deriving DecidableEq, Repr

structure PageInfo where
  ppLink : Option Nat
  ppRef : BitVec 16

/-- The globals `mem_init` sets once: the number of pages, and where the
kernel's page directory and the `pages` and `envs` arrays are. All of physical
memory is mapped above `KERNBASE`, which leaves room for 256MB. -/
structure Layout where
  npages : Nat
  npages_le : npages ≤ 65536
  kernPgdir : Nat
  pages : Nat
  envs : Nat

/-- `uninit` is what the stack slot of an uninitialised local happens to hold. -/
structure Pmap where
  layout : Layout
  mem : Mem
  pages : Nat → PageInfo
  pageFreeList : Option Nat
  userMemCheckAddr : Word
  uninit : Nat

abbrev PmapM := M Pmap Panic

def load (a : Nat) : PmapM Word := do
  return (← get).mem.read32 a

def store (a : Nat) (w : Word) : PmapM Unit :=
  if a = 0 then throw .kernelFault else modify fun s => { s with mem := s.mem.write32 a w }

def Pmap.setPage (s : Pmap) (pp : Nat) (info : PageInfo) : Pmap :=
  { s with pages := Function.update s.pages pp info }

def Pmap.incref (s : Pmap) (pp : Nat) : Pmap :=
  s.setPage pp { s.pages pp with ppRef := (s.pages pp).ppRef + 1#16 }

def Pmap.decref (s : Pmap) (pp : Nat) : Pmap :=
  s.setPage pp { s.pages pp with ppRef := (s.pages pp).ppRef - 1#16 }

def Pmap.unlink (s : Pmap) (pp : Nat) : Pmap :=
  { s with
    pageFreeList := (s.pages pp).ppLink
    pages := Function.update s.pages pp { s.pages pp with ppLink := none } }

def Pmap.link (s : Pmap) (pp : Nat) : Pmap :=
  { s with
    pageFreeList := some pp
    pages := Function.update s.pages pp { s.pages pp with ppLink := s.pageFreeList } }

/-! ## Addresses (`kern/pmap.h`) -/

def page2pa (pp : Nat) : Word := BitVec.ofNat 32 pp <<< 12

def kaddr (pa : Word) : PmapM Nat := do
  if pgnum pa ≥ (← get).layout.npages then throw .kaddr else return pa.toNat

def pa2page (pa : Word) : PmapM Nat := do
  if pgnum pa ≥ (← get).layout.npages then throw .pa2page else return pgnum pa

def page2kva (pp : Nat) : PmapM Nat := kaddr (page2pa pp)

/-! ## The page allocator -/

/-- `ALLOC_ZERO` is the only flag. -/
def pageAlloc (zero : Bool) : PmapM (Option Nat) := do
  match (← get).pageFreeList with
  | none => return none
  | some pp =>
    modify fun s => s.unlink pp
    if zero then
      let kva ← page2kva pp
      modify fun s => { s with mem := s.mem.fill kva pgsize 0#8 }
    return some pp

def pageFree (pp : Nat) : PmapM Unit := do
  let info := (← get).pages pp
  if info.ppLink ≠ none ∨ info.ppRef ≠ 0#16 then throw .pageFree
  else modify fun s => s.link pp

def pageDecref (pp : Nat) : PmapM Unit := do
  modify fun s => s.decref pp
  if ((← get).pages pp).ppRef = 0#16 then pageFree pp

/-! ## Page tables -/

/-- The address of the entry for `va` in the table its directory entry names. -/
def tableEntry (pgdir : Nat) (va : Word) : PmapM (Option Nat) := do
  let pde ← load (pgdir + 4 * pdx va)
  let ptep ← kaddr (pteAddr pde)
  return some (ptep + 4 * ptx va)

def pgdirWalk (pgdir : Nat) (va : Word) (create : Bool) : PmapM (Option Nat) := do
  if (← load (pgdir + 4 * pdx va)) &&& pteP ≠ pteP then
    if create then
      match ← pageAlloc true with
      | none => return none
      | some newPgTable =>
        modify fun s => s.incref newPgTable
        store (pgdir + 4 * pdx va) (page2pa newPgTable ||| pteP)
        tableEntry pgdir va
    else return none
  else tableEntry pgdir va

/-- `cell` is the caller's pointer before the call; the address of the entry
is stored in it only when it is not already null. -/
def pageLookup (pgdir : Nat) (va : Word) (cell : Nat) : PmapM (Option Nat × Nat) := do
  match ← pgdirWalk pgdir va false with
  | none => return (none, cell)
  | some ptep =>
    let pte ← load ptep
    if pte &&& pteP ≠ pteP then return (none, cell)
    else
      let pp ← pa2page (pteAddr pte)
      return (some pp, if cell ≠ 0 then ptep else cell)

def pageRemove (pgdir : Nat) (va : Word) : PmapM Unit := do
  match ← pageLookup pgdir va (← get).uninit with
  | (none, _) => return
  | (some pp, ptep) =>
    pageDecref pp
    store ptep 0#32

def pageInsert (pgdir pp : Nat) (va perm : Word) : PmapM Int := do
  match ← pgdirWalk pgdir va true with
  | none => return -eNoMem
  | some ptep =>
    modify fun s => s.incref pp
    if (← load ptep) &&& pteP = pteP then pageRemove pgdir va
    store ptep (page2pa pp ||| perm ||| pteP)
    store (pgdir + 4 * pdx va) ((← load (pgdir + 4 * pdx va)) ||| perm)
    return 0

/-! ## Checking user pointers -/

theorem nextPage_toNat (h : a < ulim) :
    (rounddown a 4096 + 4096).toNat = a.toNat / 4096 * 4096 + 4096 := by
  rw [BitVec.lt_def, ulim_toNat] at h
  unfold rounddown
  have hm : (a % 4096).toNat = a.toNat % 4096 := BitVec.toNat_umod
  rw [BitVec.toNat_add, BitVec.toNat_sub, hm]
  bv_omega

def userMemFault (a : Word) : PmapM Int := do
  modify fun s => { s with userMemCheckAddr := a }
  return -eFault

def userMemCheckLoop (pgdir : Nat) (memEnd perm memStart : Word) : PmapM Int :=
  if h : memStart < memEnd then
    if hu : ulim ≤ memStart then userMemFault memStart
    else do
      match ← pgdirWalk pgdir memStart false with
      | none => userMemFault memStart
      | some pte =>
        if (← load pte) &&& perm ≠ perm then userMemFault memStart
        else userMemCheckLoop pgdir memEnd perm (rounddown memStart 4096 + 4096)
  else return 0
termination_by memEnd.toNat - memStart.toNat
decreasing_by
  have hn := nextPage_toNat (BitVec.not_le.mp hu)
  rw [BitVec.lt_def] at h
  omega

def userMemCheck (pgdir : Nat) (va len perm : Word) : PmapM Int :=
  userMemCheckLoop pgdir (roundup (va + len) 4096) (perm ||| pteP) va

end Jos
