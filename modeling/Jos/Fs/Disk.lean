import Jos.Lib.Memory
import Jos.Lib.Triple
import Jos.Kern.Mmu

/-!
# The disk and its free blocks (`inc/fs.h`, `fs/bc.c`, `fs/fs.c`)

The file server sees the disk as memory: block `b` is the page at
`DISKMAP + b * BLKSIZE`, whether the block cache already holds it or reads it
on the first access. Addresses are those of the server's own address space.
`moves` is not part of the server: it lists the `memmove` calls made between
the blocks and a caller's buffer.
-/

namespace Jos.Fs

open Lib

/-! ## Layout -/

def blksize : Nat := 4096
def blkbitsize : Nat := 32768
def maxnamelen : Nat := 128
def maxpathlen : Nat := 1024
def ndirect : Nat := 10
def nindirect : Nat := 1024
def maxfilesize : Nat := (ndirect + nindirect) * blksize
def blkfiles : Nat := 16

def ftypeReg : Word := 0
def ftypeDir : Word := 1

def diskmap : Nat := 0x10000000
def disksize : Nat := 0xC0000000

/-- `super` and `bitmap`, as `fs_init` sets them. -/
def superAddr : Nat := diskmap + blksize
def bitmapAddr : Nat := diskmap + 2 * blksize

-- Fields of `struct Super` and `struct File`.
def sNblocks : Nat := superAddr + 4
def sRoot : Nat := superAddr + 8
def sizeofFile : Nat := 256
def fSize (f : Nat) : Nat := f + 128
def fType (f : Nat) : Nat := f + 132
def fDirect (f n : Nat) : Nat := f + 136 + 4 * n
def fIndirect (f : Nat) : Nat := f + 176

def eNoDisk : Int := 9
def eMaxOpen : Int := 10
def eNotFound : Int := 11
def eBadPath : Int := 12
def eFileExists : Int := 13

/-! ## The server's state -/

structure Move where
  dst : Nat
  src : Nat
  len : Nat
deriving DecidableEq, Repr

/-- `struct OpenFile`, with the seek position in its `Fd` page and the number
of address spaces that map this page (`pageref`). -/
structure OpenFile where
  fileid : Word
  file : Nat
  fdOffset : Word
  fdRef : Nat

structure Fs where
  mem : Mem
  moves : List Move
  opentab : Nat → OpenFile

inductive Panic where
  | badBlock (blockno : Word)
  | freeZeroBlock
  | flushBadVa
  | assertDirSize
  | uninitialized
  | spin
deriving DecidableEq

abbrev FsM := M Fs Panic

def load (a : Nat) : FsM Word := do
  return (← get).mem.read32 a

def store (a : Nat) (w : Word) : FsM Unit :=
  modify fun s => { s with mem := s.mem.write32 a w }

def memmove (dst src len : Nat) : FsM Unit :=
  modify fun s => { s with mem := s.mem.move dst src len, moves := s.moves ++ [⟨dst, src, len⟩] }

/-! ## `bc.c` -/

def blockAddr (blockno : Word) : Nat := (BitVec.ofNat 32 diskmap + blockno * 4096#32).toNat

def diskaddr (blockno : Word) : FsM Nat := do
  let nblocks ← load sNblocks
  if blockno = 0 ∨ nblocks ≤ blockno then
    throw (.badBlock blockno)
  return blockAddr blockno

/-- The block goes out to the disk; what the server reads stays the same. -/
def flushBlock (addr : Nat) : FsM Unit := do
  if addr < diskmap ∨ diskmap + disksize ≤ addr then
    throw .flushBadVa

/-! ## The free block bitmap -/

def bitmapWord (blockno : Nat) : Nat := bitmapAddr + 4 * (blockno / 32)

def blockIsFree (m : Mem) (blockno : Nat) : Bool :=
  blockno < (m.read32 sNblocks).toNat && (m.read32 (bitmapWord blockno)).getLsbD (blockno % 32)

def freeBlock (blockno : Word) : FsM Unit := do
  if blockno = 0 then
    throw .freeZeroBlock
  let word ← load (bitmapWord blockno.toNat)
  store (bitmapWord blockno.toNat) (word ||| 1#32 <<< (blockno.toNat % 32))

/-- The search from `blockno`; each round moves on by at least one block. -/
def allocFrom : Nat → Nat → FsM Int
  | 0, _ => return -eNoDisk
  | k + 1, blockno => do
    let nblocks ← load sNblocks
    if nblocks.toNat ≤ blockno then
      return -eNoDisk
    let word ← load (bitmapWord blockno)
    if word = 0 then
      allocFrom k (blockno + 32)
    else if word.getLsbD (blockno % 32) then
      store (bitmapWord blockno) (word &&& ~~~(1#32 <<< (blockno % 32)))
      flushBlock (bitmapWord blockno)
      return blockno
    else
      allocFrom k (blockno + 1)

def allocBlock : FsM Int := do
  let nblocks ← load sNblocks
  allocFrom nblocks.toNat 0

end Jos.Fs
