import Jos.Fs.Disk

/-!
# Files and directories (`fs/fs.c`)

A `struct File *` is the address of the structure. `off_t` is a signed word
and `size_t` an unsigned one; where the source mixes them the comparison is
made on unsigned words, as C makes it. A result `.error r` is a negative
return value `r`, a result `.ok x` is a return value 0 with `x` stored through
the pointer argument.
-/

namespace Jos.Fs

open Lib

/-! ## Blocks of a file -/

def fileBlockWalk (f : Nat) (filebno : Word) (alloc : Bool) : FsM (Except Int Nat) := do
  if ndirect + nindirect ≤ filebno.toNat then
    return .error (-eInval)
  if filebno.toNat < ndirect then
    return .ok (fDirect f filebno.toNat)
  let indirect ← load (fIndirect f)
  if indirect ≠ 0 then
    let table ← diskaddr indirect
    return .ok (table + 4 * (filebno.toNat - ndirect))
  else if alloc then
    -- `ret` is a `uint32_t`, so the test `ret < 0` never holds.
    let ret ← allocBlock
    store (fIndirect f) (BitVec.ofInt 32 ret)
    let table ← diskaddr (← load (fIndirect f))
    return .ok (table + 4 * (filebno.toNat - ndirect))
  else
    return .error (-eNotFound)

def fileGetBlock (f : Nat) (filebno : Word) : FsM (Except Int Nat) := do
  if ndirect + nindirect ≤ filebno.toNat then
    return .error (-eInval)
  -- As above, neither result of `file_block_walk` nor of `alloc_block` tests negative.
  match ← fileBlockWalk f filebno true with
  | .error _ => throw .uninitialized
  | .ok slot =>
    let block ← load slot
    if block ≠ 0 then
      return .ok (← diskaddr block)
    else
      let ret ← allocBlock
      store slot (BitVec.ofInt 32 ret)
      return .ok (← diskaddr (← load slot))

def fileFreeBlock (f : Nat) (filebno : Word) : FsM Int := do
  match ← fileBlockWalk f filebno false with
  | .error r => return r
  | .ok slot =>
    let block ← load slot
    if block ≠ 0 then
      freeBlock block
      store slot 0
    return 0

/-- `(size + BLKSIZE - 1) / BLKSIZE`, a division of signed words. -/
def nblocksOf (size : Word) : Word := (size + 4096#32 - 1#32).sdiv 4096#32

def fileTruncateBlocks (f : Nat) (newsize : Word) : FsM Unit := do
  let size ← load (fSize f)
  let old := (nblocksOf size).toNat
  let new := (nblocksOf newsize).toNat
  (List.range' new (old - new)).forM fun bno => do
    -- A failure is printed as a warning.
    let _ ← fileFreeBlock f (BitVec.ofNat 32 bno)
  let indirect ← load (fIndirect f)
  if new ≤ ndirect ∧ indirect ≠ 0 then
    freeBlock indirect
    store (fIndirect f) 0

def fileSetSize (f : Nat) (newsize : Word) : FsM Int := do
  let size ← load (fSize f)
  if newsize.toInt < size.toInt then
    fileTruncateBlocks f newsize
  store (fSize f) newsize
  flushBlock f
  return 0

def fileFlush (f : Nat) : FsM Unit := do
  let size ← load (fSize f)
  (List.range (nblocksOf size).toInt.toNat).forM fun i => do
    match ← fileBlockWalk f (BitVec.ofNat 32 i) false with
    | .error _ => return
    | .ok slot =>
      let block ← load slot
      if block ≠ 0 then
        flushBlock (← diskaddr block)
  flushBlock f
  let indirect ← load (fIndirect f)
  if indirect ≠ 0 then
    flushBlock (← diskaddr indirect)

/-! ## Reading and writing -/

/-- `MIN` of two words of which one is unsigned. -/
def minWord (a b : Word) : Word := if a ≤ b then a else b

/-- The loop of `file_read` and of `file_write`, which differ in the direction
of the copy: `stop` is `offset + count`. Each round copies at least one byte,
so `stop - pos + 1` rounds are enough. -/
def copyBlocks (toDisk : Bool) (f : Nat) (stop : Word) : Nat → Nat → Word → FsM (Except Int Unit)
  | 0, _, _ => throw .spin
  | k + 1, buf, pos => do
    if pos < stop then
      match ← fileGetBlock f (pos.sdiv 4096#32) with
      | .error r => return .error r
      | .ok blk =>
        let bn := minWord (4096#32 - pos.srem 4096#32) (stop - pos)
        let data := (BitVec.ofNat 32 blk + pos.srem 4096#32).toNat
        if toDisk then
          memmove data buf bn.toNat
        else
          memmove buf data bn.toNat
        copyBlocks toDisk f stop k (buf + bn.toNat) (pos + bn)
    else
      return .ok ()

def fileRead (f buf : Nat) (count offset : Word) : FsM Int := do
  let size ← load (fSize f)
  if size.toInt ≤ offset.toInt then
    return 0
  let count := minWord count (size - offset)
  match ← copyBlocks false f (offset + count) (count.toNat + 1) buf offset with
  | .error r => return r
  | .ok _ => return count.toInt

def fileWrite (f buf : Nat) (count offset : Word) : FsM Int := do
  let size ← load (fSize f)
  if size < offset + count then
    let _ ← fileSetSize f (offset + count)
  match ← copyBlocks true f (offset + count) (count.toNat + 1) buf offset with
  | .error r => return r
  | .ok _ => return count.toInt

/-! ## Directories -/

/-- A string without its terminating NUL. -/
abbrev Name := List (BitVec 8)

def strEq (m : Mem) (a : Nat) (name : Name) : Bool :=
  (List.range name.length).all (fun i => m (a + i) == name.getD i 0) && m (a + name.length) == 0

def strcpy (a : Nat) (name : Name) : FsM Unit :=
  modify fun s => { s with mem := fun x =>
    if a ≤ x ∧ x ≤ a + name.length then name.getD (x - a) 0 else s.mem x }

/-- The loop of `dir_lookup` and of `dir_alloc_file` over the entries of a
directory, from block `i`: the first entry that passes the test. -/
def dirScan (dir : Nat) (test : Mem → Nat → Bool) : Nat → Nat → FsM (Except Int (Option Nat))
  | 0, _ => return .ok none
  | k + 1, i => do
    match ← fileGetBlock dir (BitVec.ofNat 32 i) with
    | .error r => return .error r
    | .ok blk =>
      let m := (← get).mem
      match (List.range blkfiles).find? fun j => test m (blk + sizeofFile * j) with
      | some j => return .ok (some (blk + sizeofFile * j))
      | none => dirScan dir test k (i + 1)

/-- Every walk over a directory first asserts that its size is whole blocks. -/
def dirBlocks (dir : Nat) : FsM Nat := do
  let size ← load (fSize dir)
  if size.srem 4096#32 ≠ 0 then
    throw .assertDirSize
  return (size.sdiv 4096#32).toNat

def dirLookup (dir : Nat) (name : Name) : FsM (Except Int Nat) := do
  let nblock ← dirBlocks dir
  match ← dirScan dir (fun m a => strEq m a name) nblock 0 with
  | .error r => return .error r
  | .ok (some f) => return .ok f
  | .ok none => return .error (-eNotFound)

def dirAllocFile (dir : Nat) : FsM (Except Int Nat) := do
  let nblock ← dirBlocks dir
  match ← dirScan dir (fun m a => m a == 0) nblock 0 with
  | .error r => return .error r
  | .ok (some f) => return .ok f
  | .ok none =>
    store (fSize dir) ((← load (fSize dir)) + 4096#32)
    fileGetBlock dir (BitVec.ofNat 32 nblock)

/-! ## Paths -/

def slash : BitVec 8 := 0x2F#8

/-- The path's elements: runs of slashes count as one, and those at the ends as none. -/
def elements (path : Name) : List Name := (path.splitOn slash).filter (· ≠ [])

/-- What `walk_path` returns and stores: its return value, `*pdir`, `*pf` and
`lastelem`. -/
structure Walk where
  r : Int
  dir : Option Nat
  file : Option Nat
  last : Name

def walkFrom (f : Nat) (dir : Option Nat) : List Name → FsM Walk
  | [] => return ⟨0, dir, some f, []⟩
  | name :: rest => do
    if maxnamelen ≤ name.length then
      return ⟨-eBadPath, none, none, []⟩
    let type ← load (fType f)
    if type ≠ ftypeDir then
      return ⟨-eNotFound, none, none, []⟩
    match ← dirLookup f name with
    | .error r =>
      if r = -eNotFound ∧ rest = [] then
        return ⟨r, some f, none, name⟩
      else
        return ⟨r, none, none, []⟩
    | .ok g => walkFrom g (some f) rest

def walkPath (path : Name) : FsM Walk := walkFrom sRoot none (elements path)

def fileCreate (path : Name) : FsM (Except Int Nat) := do
  let walk ← walkPath path
  if walk.r = 0 then
    return .error (-eFileExists)
  match walk.dir with
  | none => return .error walk.r
  | some dir =>
    if walk.r ≠ -eNotFound then
      return .error walk.r
    match ← dirAllocFile dir with
    | .error r => return .error r
    | .ok f =>
      strcpy f walk.last
      fileFlush dir
      return .ok f

def fileOpen (path : Name) : FsM (Except Int Nat) := do
  let walk ← walkPath path
  match walk.file with
  | some f => return .ok f
  | none => return .error walk.r

end Jos.Fs
