import Jos.Kern.Pmap

/-!
# The hardware's walk of the page tables

What the x86 does with a linear address: two table look-ups, and an access
allowed only by permissions that both entries grant. Kernel code that uses a
user's pointer goes through the same walk, with `CR0.WP` set.
-/

namespace Jos

open Lib

/-- The frame of a linear address and the permissions granted by both its
directory and its table entry. -/
def translate (m : Mem) (pgdir : Nat) (va : Word) : Option (Nat × Word) :=
  let pde := m.read32 (pgdir + 4 * pdx va)
  match entryPage pde with
  | none => none
  | some pt =>
    let pte := m.read32 (pt * pgsize + 4 * ptx va)
    match entryPage pte with
    | none => none
    | some p => some (p, pde &&& pte &&& 0xFFF#32)

def userCanRead (m : Mem) (pgdir : Nat) (va : Word) : Bool :=
  match translate m pgdir va with
  | none => false
  | some (_, flags) => flags &&& pteU == pteU

def userCanWrite (m : Mem) (pgdir : Nat) (va : Word) : Bool :=
  match translate m pgdir va with
  | none => false
  | some (_, flags) => flags &&& (pteU ||| pteW) == pteU ||| pteW

def physical (p : Nat) (va : Word) : Nat := p * pgsize + pgoff va

/-! ## Kernel accesses through linear addresses -/

def vload8 (pgdir : Nat) (va : Word) : PmapM (BitVec 8) := do
  let m := (← get).mem
  match translate m pgdir va with
  | none => throw .kernelFault
  | some (p, _) => return m (physical p va)

def vload32 (pgdir : Nat) (va : Word) : PmapM Word := do
  let b0 ← vload8 pgdir va
  let b1 ← vload8 pgdir (va + 1)
  let b2 ← vload8 pgdir (va + 2)
  let b3 ← vload8 pgdir (va + 3)
  return b3 ++ b2 ++ b1 ++ b0

/-- Above `ULIM` is the kernel itself. -/
def vstore8 (pgdir : Nat) (va : Word) (b : BitVec 8) : PmapM Unit := do
  if ulim ≤ va then throw .wildStore
  else
    match translate (← get).mem pgdir va with
    | none => throw .kernelFault
    | some (p, flags) =>
      if flags &&& pteW = pteW then
        modify fun s => { s with mem := Function.update s.mem (physical p va) b }
      else throw .kernelFault

def vstore32 (pgdir : Nat) (va w : Word) : PmapM Unit :=
  (List.range 4).forM fun k =>
    vstore8 pgdir (va + BitVec.ofNat 32 k) (w.extractLsb' (8 * k) 8)

def vstoreBytes (pgdir : Nat) (va : Word) (n : Nat) (bytes : Nat → BitVec 8) : PmapM Unit :=
  (List.range n).forM fun k => vstore8 pgdir (va + BitVec.ofNat 32 k) (bytes k)

end Jos
