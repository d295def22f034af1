import Jos.Fs.Files

/-!
# The formatter (`fs/fsformat.c`)

`fsformat` writes its input files into a new image, one after the other, and
then the root directory. The image is mapped at `diskmap` here, where the file
server maps it too; the directory entries are collected in memory from
`malloc`, at `ents`, of which nothing is known beforehand.
-/

namespace Jos.Fs.Format

open Lib

/-! ## The program -/

inductive Refusal where
  | usage
  | cannotOpen
  | tooLarge
  | outOfBlocks
  | tooManyEntries
deriving DecidableEq

structure Disk where
  nblocks : Nat
  diskpos : Nat
  super : Nat
  bitmap : Nat
  mem : Mem

abbrev FormatM := M Disk Refusal

structure Input where
  path : Name
  data : List (BitVec 8)

def Input.last (f : Input) : Name := (f.path.reverse.takeWhile (· ≠ slash)).reverse

/-- The host opens no file with a longer name. -/
def nameMax : Nat := 255

def maxDirEnts : Nat := 128
def fsMagic : Word := 0x4A0530AE#32

/-- `ROUNDUP` of an unsigned word. -/
def roundup (n v : Word) : Word := n - 1 + v - (n - 1) % v

/-- `ROUNDUP` of an `int`: the remainder takes the sign of the dividend. -/
def roundupInt (n v : Int) : Int := n - 1 + v - (n - 1).tmod v

def ents : Nat := 0

def blockof (pos : Nat) : Nat := (pos - diskmap) / blksize

def change (f : Mem → Mem) : FormatM Unit := modify fun d => { d with mem := f d.mem }

def alloc (bytes : Word) : FormatM Nat := do
  let start := (← get).diskpos
  modify fun d => { d with diskpos := d.diskpos + (roundup bytes 4096#32).toNat }
  let d ← get
  if d.nblocks ≤ blockof d.diskpos then
    throw .outOfBlocks
  return start

def opendisk (nblocks : Nat) : FormatM Unit := do
  -- The file is truncated, so it reads as zeros.
  modify fun d => { d with nblocks := nblocks, diskpos := diskmap, mem := d.mem.fill diskmap (nblocks * blksize) 0#8 }
  let _ ← alloc 4096#32
  let super ← alloc 4096#32
  change (·.write32 super fsMagic)
  change (·.write32 (super + 4) (BitVec.ofNat 32 nblocks))
  change (·.write32 (fType (super + 8)) ftypeDir)
  change (·.put (super + 8) [slash, 0#8])
  let nbitblocks := (nblocks + (blkbitsize - 1)) / blkbitsize
  let bitmap ← alloc (BitVec.ofNat 32 (nbitblocks * blksize))
  change (·.fill bitmap (nbitblocks * blksize) 0xFF#8)
  modify fun d => { d with super := super, bitmap := bitmap }

def finishdisk : FormatM Unit := do
  let d ← get
  change fun m => (List.range (blockof d.diskpos)).foldl (fun m i =>
    m.write32 (d.bitmap + 4 * (i / 32)) (m.read32 (d.bitmap + 4 * (i / 32)) &&& ~~~(1#32 <<< (i % 32)))) m

def finishfile (f : Nat) (start len : Word) : FormatM Unit := do
  change (·.write32 (fSize f) len)
  let n := (roundup len 4096#32).toNat / blksize
  change (·.writeWords (fDirect f 0) (fun i => start + BitVec.ofNat 32 i) (List.range (min n ndirect)))
  if ndirect ≤ n then
    let ind ← alloc 4096#32
    change (·.write32 (fIndirect f) (BitVec.ofNat 32 (blockof ind)))
    change (·.writeWords ind (fun i => start + BitVec.ofNat 32 (ndirect + i)) (List.range (n - ndirect)))

def diradd (n : Nat) (type : Word) (name : Name) : FormatM Nat := do
  let out := ents + sizeofFile * n
  if maxDirEnts < n + 1 then
    throw .tooManyEntries
  change (·.put out (name ++ [0#8]))
  change (·.write32 (fType out) type)
  return out

def finishdir (n : Nat) : FormatM Unit := do
  let size : Int := n * sizeofFile
  let start ← alloc (BitVec.ofInt 32 size)
  change (·.move start ents size.toNat)
  let d ← get
  finishfile (d.super + 8) (BitVec.ofNat 32 (blockof start)) (BitVec.ofInt 32 (roundupInt size blksize))

def writefile (n : Nat) (f : Input) : FormatM Unit := do
  if nameMax < f.last.length then
    throw .cannotOpen
  if maxfilesize ≤ f.data.length then
    throw .tooLarge
  let out ← diradd n ftypeReg f.last
  let start ← alloc (BitVec.ofNat 32 f.data.length)
  change (·.put start f.data)
  finishfile out (BitVec.ofNat 32 (blockof start)) (BitVec.ofNat 32 f.data.length)

def writefiles : List Input → Nat → FormatM Unit
  | [], _ => return ()
  | f :: files, n => do
    writefile n f
    writefiles files (n + 1)

def main (nblocks : Nat) (files : List Input) : FormatM Unit := do
  if nblocks < 2 ∨ 1024 < nblocks then
    throw .usage
  opendisk nblocks
  writefiles files 0
  finishdir files.length
  finishdisk

/-- `fsformat` before it starts; `heap` is what `malloc` will hand out. -/
def unformatted (heap : Mem) : Disk := ⟨0, 0, 0, 0, heap⟩

/-! ## Placement -/

def blockPos (b : Nat) : Nat := diskmap + blksize * b

namespace Input

def dataBlocks (f : Input) : Nat := blocksFor f.data.length

def blocks (f : Input) : Nat := f.dataBlocks + if ndirect ≤ f.dataBlocks then 1 else 0

structure Accepted (f : Input) : Prop where
  name : f.last.length ≤ nameMax
  size : f.data.length < maxfilesize

/-- A word of entry `k` before the file's own fields are set: the name may reach
beyond its field, and the rest is what the memory held. -/
def stale (f : Input) (heap : Mem) (k off : Nat) : Word :=
  (heap.put (ents + sizeofFile * k) (f.last ++ [0#8])).read32 (ents + sizeofFile * k + off)

end Input

def next (files : List Input) : Nat := 3 + (files.map Input.blocks).sum

def startOf (files : List Input) (k : Nat) : Nat := next (files.take k)

/-- The entry of file number `k`, at address `e`. -/
structure Entry (heap m : Mem) (k : Nat) (f : Input) (start e : Nat) : Prop where
  name : ∀ i < maxnamelen, i ≤ f.last.length → m (e + i) = f.last.getD i 0
  size : m.read32 (fSize e) = BitVec.ofNat 32 f.data.length
  type : m.read32 (fType e) = ftypeReg
  direct : ∀ j < ndirect, m.read32 (fDirect e j) =
    if j < f.dataBlocks then BitVec.ofNat 32 (start + j) else f.stale heap k (136 + 4 * j)
  indirect : m.read32 (fIndirect e) =
    if ndirect ≤ f.dataBlocks then BitVec.ofNat 32 (start + f.dataBlocks) else f.stale heap k 176

structure Content (m : Mem) (f : Input) (start : Nat) : Prop where
  data : ∀ i < blksize * f.dataBlocks, m (blockPos start + i) = f.data.getD i 0
  cells : ndirect ≤ f.dataBlocks → ∀ i < nindirect, m.read32 (blockPos (start + f.dataBlocks) + 4 * i) =
    if ndirect + i < f.dataBlocks then BitVec.ofNat 32 (start + (ndirect + i)) else 0

theorem Entry.congr (h : Entry heap m k f start e) (hm : ∀ i < sizeofFile, m' (e' + i) = m (e + i)) :
    Entry heap m' k f start e' := by
  have hword : ∀ off, off + 4 ≤ sizeofFile → m'.read32 (e' + off) = m.read32 (e + off) := by
    intro off hoff
    unfold Mem.read32
    rw [Nat.add_assoc e', Nat.add_assoc e', Nat.add_assoc e', hm _ (by omega), hm _ (by omega), hm _ (by omega),
      hm _ (by omega), Nat.add_assoc e, Nat.add_assoc e, Nat.add_assoc e]
  refine ⟨fun i hi hl => ?_, ?_, ?_, fun j hj => ?_, ?_⟩
  · rw [hm i (by unfold maxnamelen at hi; unfold sizeofFile; omega)]
    exact h.name i hi hl
  · exact (hword 128 (by decide)).trans h.size
  · exact (hword 132 (by decide)).trans h.type
  · rw [← h.direct j hj]
    unfold fDirect
    rw [Nat.add_assoc e', Nat.add_assoc e]
    exact hword _ (by unfold ndirect at hj; unfold sizeofFile; omega)
  · exact (hword 176 (by decide)).trans h.indirect

theorem Content.congr (h : Content m f start)
    (hm : ∀ x, blockPos start ≤ x → x < blockPos (start + f.blocks) → m' x = m x) : Content m' f start := by
  refine ⟨fun i hi => ?_, fun hn i hi => ?_⟩
  · rw [hm _ (by omega)]
    · exact h.data i hi
    · unfold blockPos Input.blocks blksize at *
      omega
  · rw [Mem.read32_congr (m := m)]
    · exact h.cells hn i hi
    · intro x h₁ h₂
      have hb : f.blocks = f.dataBlocks + 1 := congrArg (f.dataBlocks + ·) (if_pos hn)
      refine hm x ?_ ?_ <;> rw [hb] at * <;> unfold blockPos nindirect blksize at * <;> omega

theorem next_append (files : List Input) (f : Input) : next (files ++ [f]) = next files + f.blocks := by
  simp [next, Nat.add_assoc]

theorem startOf_append (hk : k ≤ files.length) : startOf (files ++ [f]) k = startOf files k := by
  unfold startOf
  rw [List.take_append_of_le_length hk]

theorem startOf_length (files : List Input) : startOf files files.length = next files := by
  unfold startOf
  rw [List.take_length]

theorem startOf_end (hk : files[k]? = some f) : startOf files k + f.blocks ≤ next files := by
  obtain ⟨hlt, hf⟩ := List.getElem?_eq_some_iff.1 hk
  have hsplit : files = files.take k ++ (f :: files.drop (k + 1)) := by
    rw [← hf, List.getElem_cons_drop, List.take_append_drop]
  unfold startOf
  conv_rhs => rw [hsplit]
  simp [next]
  omega

theorem three_le_next (files : List Input) : 3 ≤ next files := Nat.le_add_right ..

/-! ## Blocks and files -/

theorem roundup_toNat {n : Word} (h : n.toNat ≤ 2 ^ 31) : (roundup n 4096#32).toNat = blksize * blocksFor n.toNat := by
  unfold roundup blocksFor blksize
  by_cases h0 : n = 0
  · subst h0
    decide
  · have hpos : 0 < n.toNat := Nat.pos_of_ne_zero fun hz => h0 (BitVec.eq_of_toNat_eq hz)
    have h1 : (1 : Word).toNat = 1 := rfl
    have h4 : (4096#32).toNat = 4096 := rfl
    have hpred : (n - 1).toNat = n.toNat - 1 := by
      rw [BitVec.toNat_sub_of_le (by rw [BitVec.le_def]; omega), h1]
    have hmod : ((n - 1) % 4096#32).toNat = (n.toNat - 1) % 4096 := by rw [BitVec.toNat_umod, hpred, h4]
    have hadd : (n - 1 + 4096#32).toNat = n.toNat + 4095 := by
      rw [BitVec.toNat_add_of_lt (by omega), hpred, h4]
      omega
    rw [BitVec.toNat_sub_of_le (by rw [BitVec.le_def]; omega), hadd, hmod]
    omega

theorem blockof_blockPos (b : Nat) : blockof (blockPos b) = b := by
  unfold blockof blockPos blksize
  omega

theorem blockPos_add (b n : Nat) : blockPos b + blksize * n = blockPos (b + n) := by
  unfold blockPos
  rw [Nat.mul_add, Nat.add_assoc]

theorem blockPos_mono (h : a ≤ b) : blockPos a ≤ blockPos b :=
  Nat.add_le_add_left (Nat.mul_le_mul_left _ h) _

theorem alloc_ok {d : Disk} (hp : d.diskpos = blockPos b) (h : bytes.toNat ≤ 2 ^ 31) :
    Triple (alloc bytes) d (fun start t => start = blockPos b ∧
      t = { d with diskpos := blockPos (b + blocksFor bytes.toNat) } ∧ b + blocksFor bytes.toNat < d.nblocks)
      fun _ _ => True := by
  have hpos : d.diskpos + (roundup bytes 4096#32).toNat = blockPos (b + blocksFor bytes.toNat) := by
    rw [hp, roundup_toNat h, blockPos_add]
  refine .get_bind ?_
  refine .bind (.modify (Q := fun _ u => u = { d with diskpos := blockPos (b + blocksFor bytes.toNat) }) ?_) ?_
  · rw [hpos]
  rintro _ _ rfl
  refine .get_bind ?_
  refine .guard (fun _ => trivial) fun hfull => .pure ⟨hp, rfl, ?_⟩
  rw [blockof_blockPos] at hfull
  exact Nat.not_le.1 hfull

def recorded (m : Mem) (f start : Nat) (len : Word) : Mem :=
  (m.write32 (fSize f) len).writeWords (fDirect f 0) (fun i => BitVec.ofNat 32 (start + i))
    (List.range (min (blocksFor len.toNat) ndirect))

/-- The memory after `finishfile`, which takes block `b` for the pointers that
do not fit into the file. -/
def filed (m : Mem) (f start : Nat) (len : Word) (b : Nat) : Mem :=
  if ndirect ≤ blocksFor len.toNat then
    ((recorded m f start len).write32 (fIndirect f) (BitVec.ofNat 32 b)).writeWords (blockPos b)
      (fun i => BitVec.ofNat 32 (start + (ndirect + i))) (List.range (blocksFor len.toNat - ndirect))
  else
    recorded m f start len

theorem finishfile_ok {d : Disk} (hp : d.diskpos = blockPos b) (hb : b < d.nblocks) (hlen : len.toNat ≤ maxfilesize) :
    Triple (finishfile f (BitVec.ofNat 32 start) len) d (fun _ t =>
      t = { d with
        diskpos := blockPos (b + if ndirect ≤ blocksFor len.toNat then 1 else 0)
        mem := filed d.mem f start len b } ∧
      (b + if ndirect ≤ blocksFor len.toNat then 1 else 0) < d.nblocks) fun _ _ => True := by
  have hn : (roundup len 4096#32).toNat / blksize = blocksFor len.toNat := by
    rw [roundup_toNat (by unfold maxfilesize ndirect nindirect blksize at hlen; omega)]
    exact Nat.mul_div_cancel_left _ (by decide)
  have hone : blocksFor (4096#32).toNat = 1 := by decide
  unfold finishfile filed
  simp only [hn, ← BitVec.ofNat_add]
  refine .modify_bind ?_
  refine .modify_bind ?_
  refine .ite (fun hind => ?_) fun hind => .pure ?_
  · rw [if_pos hind, if_pos hind]
    refine .bind (alloc_ok hp (by decide)) ?_
    rintro _ _ ⟨rfl, rfl, hroom⟩
    rw [hone, blockof_blockPos]
    rw [hone] at hroom
    refine .modify_bind ?_
    exact .modify ⟨rfl, hroom⟩
  · rw [if_neg hind, if_neg hind, Nat.add_zero, ← hp]
    exact ⟨rfl, hb⟩

section

variable {m : Mem} {f start b x i j : Nat} {len : Word}

theorem recorded_of_outside (h : x < f + 128 ∨ f + 176 ≤ x) : recorded m f start len x = m x := by
  refine (Mem.writeWords_of_outside fun i hi => ?_).trans (Mem.write32_of_outside (by unfold fSize; omega))
  have hi' := List.mem_range.1 hi
  unfold fDirect ndirect at *
  omega

theorem recorded_size : (recorded m f start len).read32 (fSize f) = len := by
  refine (Mem.read32_congr fun x h₁ h₂ => Mem.writeWords_of_outside fun i _ => ?_).trans (Mem.read32_write32_self ..)
  unfold fSize fDirect at *
  omega

theorem recorded_type : (recorded m f start len).read32 (fType f) = m.read32 (fType f) := by
  refine Mem.read32_congr fun x h₁ h₂ => (Mem.writeWords_of_outside fun i _ => ?_).trans (Mem.write32_of_outside ?_)
  · unfold fType fDirect at *
    omega
  · unfold fType fSize at *
    omega

theorem recorded_direct (hj : j < ndirect) : (recorded m f start len).read32 (fDirect f j) =
    if j < blocksFor len.toNat then BitVec.ofNat 32 (start + j) else m.read32 (fDirect f j) := by
  have hword := Mem.read32_writeWords (m.write32 (fSize f) len) (fDirect f 0) (fun i => BitVec.ofNat 32 (start + i))
    (List.range (min (blocksFor len.toNat) ndirect)) j
  rw [show fDirect f 0 + 4 * j = fDirect f j from rfl] at hword
  unfold recorded
  rw [hword, Mem.read32_write32_of_disjoint m (by unfold fSize fDirect; omega)]
  by_cases h : j < blocksFor len.toNat
  · rw [if_pos h, if_pos (List.mem_range.2 (by omega))]
  · rw [if_neg h, if_neg fun hin => h (by have hlt := List.mem_range.1 hin; omega)]

theorem filed_of_outside (hlen : len.toNat ≤ maxfilesize) (h : x < f + 128 ∨ f + 180 ≤ x)
    (hb : ndirect ≤ blocksFor len.toNat → x < blockPos b ∨ blockPos (b + 1) ≤ x) : filed m f start len b x = m x := by
  unfold filed
  split
  · rename_i hn
    refine (Mem.writeWords_of_outside fun i hi => ?_).trans ((Mem.write32_of_outside ?_).trans ?_)
    · have hi' := List.mem_range.1 hi
      unfold maxfilesize ndirect nindirect blksize at hlen
      unfold blocksFor ndirect blockPos blksize at *
      omega
    · unfold fIndirect
      omega
    · exact recorded_of_outside (by omega)
  · exact recorded_of_outside (by omega)

section
variable (hlen : len.toNat ≤ maxfilesize) (hf : f + 180 ≤ blockPos b ∨ blockPos (b + 1) ≤ f + 128)
include hlen hf

theorem filed_read
    (h₁ : f + 128 ≤ x) (h₂ : x + 4 ≤ f + 176) : (filed m f start len b).read32 x = (recorded m f start len).read32 x := by
  unfold filed
  split
  · refine Mem.read32_congr fun y h₃ h₄ => (Mem.writeWords_of_outside fun i hi => ?_).trans (Mem.write32_of_outside ?_)
    · have hi' := List.mem_range.1 hi
      unfold maxfilesize ndirect nindirect blksize at hlen
      unfold blocksFor ndirect blockPos blksize at *
      omega
    · unfold fIndirect
      omega
  · rfl

theorem filed_indirect : (filed m f start len b).read32 (fIndirect f) =
      if ndirect ≤ blocksFor len.toNat then BitVec.ofNat 32 b else m.read32 (fIndirect f) := by
  unfold filed
  split
  · refine (Mem.read32_congr fun y h₃ h₄ => Mem.writeWords_of_outside fun i hi => ?_).trans (Mem.read32_write32_self ..)
    have hi' := List.mem_range.1 hi
    unfold maxfilesize ndirect nindirect blksize at hlen
    unfold blocksFor ndirect blockPos blksize fIndirect at *
    omega
  · exact Mem.read32_congr fun y h₃ h₄ => recorded_of_outside (by unfold fIndirect at *; omega)

end

theorem filed_cells (hn : ndirect ≤ blocksFor len.toNat) (hf : f + 180 ≤ blockPos b ∨ blockPos (b + 1) ≤ f + 128)
    (hi : i < nindirect) : (filed m f start len b).read32 (blockPos b + 4 * i) =
      if ndirect + i < blocksFor len.toNat then BitVec.ofNat 32 (start + (ndirect + i))
      else m.read32 (blockPos b + 4 * i) := by
  unfold filed
  rw [if_pos hn, Mem.read32_writeWords]
  have hkeep : ((recorded m f start len).write32 (fIndirect f) (BitVec.ofNat 32 b)).read32 (blockPos b + 4 * i) =
      m.read32 (blockPos b + 4 * i) := by
    have hfield : fIndirect f = f + 176 := rfl
    unfold nindirect at hi
    unfold blockPos blksize at *
    exact Mem.read32_congr fun y h₁ h₂ => (Mem.write32_of_outside (by omega)).trans (recorded_of_outside (by omega))
  rw [hkeep]
  by_cases h : ndirect + i < blocksFor len.toNat
  · rw [if_pos h, if_pos (List.mem_range.2 (by omega))]
  · rw [if_neg h, if_neg fun hin => h (by have hlt := List.mem_range.1 hin; omega)]

end

/-! ## The files one after the other -/

def opened (heap : Mem) (nblocks : Nat) : Mem :=
  let m := heap.fill diskmap (nblocks * blksize) 0#8
  let m := (m.write32 superAddr fsMagic).write32 sNblocks (BitVec.ofNat 32 nblocks)
  ((m.write32 (fType sRoot) ftypeDir).put sRoot [slash, 0#8]).fill bitmapAddr blksize 0xFF#8

/-- The given files have been written. -/
structure Laid (heap : Mem) (nblocks : Nat) (files : List Input) (d : Disk) : Prop where
  size : d.nblocks = nblocks
  super : d.super = superAddr
  bitmap : d.bitmap = bitmapAddr
  pos : d.diskpos = blockPos (next files)
  room : next files < nblocks
  few : files.length ≤ maxDirEnts
  accepted : ∀ f ∈ files, f.Accepted
  entry : ∀ k f, files[k]? = some f → Entry heap d.mem k f (startOf files k) (ents + sizeofFile * k)
  content : ∀ k f, files[k]? = some f → Content d.mem f (startOf files k)
  low : ∀ x, blockPos 0 ≤ x → x < blockPos 3 → d.mem x = opened heap nblocks x
  fresh : ∀ x, blockPos (next files) ≤ x → x < blockPos nblocks → d.mem x = 0
  rest : ∀ x, ents + sizeofFile * files.length ≤ x → x < ents + sizeofFile * maxDirEnts → d.mem x = heap x

def added (m : Mem) (k b : Nat) (f : Input) : Mem :=
  let e := ents + sizeofFile * k
  let m := ((m.put e (f.last ++ [0#8])).write32 (fType e) ftypeReg).put (blockPos b) f.data
  filed m e b (BitVec.ofNat 32 f.data.length) (b + f.dataBlocks)

theorem toNat_length {f : Input} (h : f.data.length < maxfilesize) :
    (BitVec.ofNat 32 f.data.length).toNat = f.data.length := by
  rw [BitVec.toNat_ofNat]
  unfold maxfilesize ndirect nindirect blksize at h
  omega

theorem writefile_eq {d : Disk} (hp : d.diskpos = blockPos b) :
    Triple (writefile k f) d (fun _ t => f.Accepted ∧ k < maxDirEnts ∧ b + f.blocks < d.nblocks ∧
      t = { d with diskpos := blockPos (b + f.blocks), mem := added d.mem k b f }) fun _ _ => True := by
  unfold writefile
  refine .guard (fun _ => trivial) fun hname => .guard (fun _ => trivial) fun hsize => ?_
  have hlen := toNat_length (Nat.not_le.1 hsize)
  have hle : f.data.length ≤ maxfilesize := Nat.le_of_lt (Nat.not_le.1 hsize)
  refine .bind (Q := fun out t => out = ents + sizeofFile * k ∧ k < maxDirEnts ∧ t = { d with
    mem := (d.mem.put out (f.last ++ [0#8])).write32 (fType out) ftypeReg }) ?_ ?_
  · refine .guard (fun _ => trivial) fun hfew => ?_
    refine .modify_bind ?_
    refine .modify_bind ?_
    exact .pure ⟨rfl, by omega, rfl⟩
  rintro _ _ ⟨rfl, hk, rfl⟩
  refine .bind (alloc_ok hp ?_) ?_
  · rw [hlen]
    unfold maxfilesize ndirect nindirect blksize at hle
    omega
  rintro _ _ ⟨rfl, rfl, hroom⟩
  rw [hlen] at hroom ⊢
  rw [blockof_blockPos]
  refine .modify_bind ?_
  refine .mono (finishfile_ok rfl ?_ ?_) ?_ fun _ _ h => h
  · exact hroom
  · rw [hlen]
    exact hle
  rintro _ _ ⟨rfl, hroom'⟩
  rw [hlen] at hroom' ⊢
  refine ⟨⟨Nat.not_lt.1 hname, Nat.not_le.1 hsize⟩, hk, ?_, ?_⟩
  · unfold Input.blocks
    rw [← Nat.add_assoc]
    exact hroom'
  · unfold Input.blocks
    rw [← Nat.add_assoc]
    rfl

section

variable {m heap : Mem} {k b x : Nat} {f : Input}

theorem data_le (f : Input) : f.data.length ≤ blksize * f.dataBlocks := by
  unfold Input.dataBlocks blocksFor blksize
  omega

section
variable (hf : f.Accepted)
include hf

theorem length_le : (BitVec.ofNat 32 f.data.length).toNat ≤ maxfilesize := by
  rw [toNat_length hf.size]
  exact Nat.le_of_lt hf.size

theorem blocksFor_length : blocksFor (BitVec.ofNat 32 f.data.length).toNat = f.dataBlocks := by
  rw [toNat_length hf.size, Input.dataBlocks]

theorem added_of_outside (he : x < ents + sizeofFile * k ∨ ents + sizeofFile * (k + 1) ≤ x)
    (hb : x < blockPos b ∨ blockPos (b + f.blocks) ≤ x) : added m k b f x = m x := by
  have hname := hf.name
  have hdata := data_le f
  unfold sizeofFile at he
  unfold nameMax at hname
  unfold blockPos Input.blocks at hb
  refine (filed_of_outside (length_le hf) ?_ fun hn => ?_).trans ((Mem.put_of_outside ?_).trans
    ((Mem.write32_of_outside ?_).trans (Mem.put_of_outside ?_)))
  · unfold sizeofFile
    omega
  · rw [blocksFor_length hf] at hn
    rw [if_pos hn] at hb
    unfold blockPos blksize at *
    omega
  · unfold blockPos blksize at *
    omega
  · unfold fType sizeofFile
    omega
  · simp only [List.length_append, List.length_singleton]
    unfold sizeofFile
    omega

theorem added_entry (hk : k < maxDirEnts)
    (hm : ∀ i < sizeofFile, m (ents + sizeofFile * k + i) = heap (ents + sizeofFile * k + i)) :
    Entry heap (added m k b f) k f b (ents + sizeofFile * k) := by
  have hlen := length_le hf
  have hblocks := blocksFor_length hf
  have hlow : ∀ b, ents + sizeofFile * k + sizeofFile ≤ blockPos b := by
    intro b
    unfold ents sizeofFile maxDirEnts blockPos diskmap at *
    omega
  have hstale : ∀ off, f.stale heap k off =
      (heap.put (ents + sizeofFile * k) (f.last ++ [0#8])).read32 (ents + sizeofFile * k + off) := fun _ => rfl
  unfold added
  generalize ents + sizeofFile * k = e at *
  have hb := hlow b
  have hind := hlow (b + f.dataBlocks)
  unfold sizeofFile at hb hind hm
  -- The fields that are not set keep what the name and the memory put there.
  have hkeep : ∀ off, 136 ≤ off → off + 4 ≤ 256 →
      (((m.put e (f.last ++ [0#8])).write32 (fType e) ftypeReg).put (blockPos b) f.data).read32 (e + off) =
        f.stale heap k off := by
    intro off h₁ h₂
    rw [hstale]
    refine Mem.read32_congr fun x h₃ h₄ => (Mem.put_of_outside (by omega)).trans
      ((Mem.write32_of_outside (by unfold fType; omega)).trans ?_)
    have hx := hm (x - e) (by omega)
    rw [show e + (x - e) = x by omega] at hx
    unfold Mem.put
    rw [hx]
  have hfar : e + 180 ≤ blockPos (b + f.dataBlocks) ∨ blockPos (b + f.dataBlocks + 1) ≤ e + 128 := .inl (by omega)
  refine ⟨fun i hi hl => ?_, ?_, ?_, fun j hj => ?_, ?_⟩
  · unfold maxnamelen at hi
    rw [filed_of_outside hlen (by omega) (fun _ => by omega), Mem.put_of_outside (by omega),
      Mem.write32_of_outside (by unfold fType; omega), Mem.put_of_inside (by simp; omega)]
    rcases Nat.lt_or_eq_of_le hl with hlt | rfl
    · exact List.getD_append _ _ _ _ hlt
    · simp
  · rw [filed_read hlen hfar (by unfold fSize; omega) (by unfold fSize; omega), recorded_size]
  · rw [filed_read hlen hfar (by unfold fType; omega) (by unfold fType; omega), recorded_type]
    refine (Mem.read32_congr fun x h₁ h₂ => Mem.put_of_outside ?_).trans (Mem.read32_write32_self ..)
    unfold fType at h₂
    omega
  · have hj' := hj
    unfold ndirect at hj'
    rw [filed_read hlen hfar (by unfold fDirect; omega) (by unfold fDirect; omega), recorded_direct hj, hblocks]
    refine if_congr Iff.rfl rfl ?_
    unfold fDirect
    rw [Nat.add_assoc]
    exact hkeep _ (by omega) (by omega)
  · rw [filed_indirect hlen hfar, hblocks]
    exact if_congr Iff.rfl rfl (hkeep 176 (by decide) (by decide))

theorem added_content (hk : k < maxDirEnts)
    (hm : ∀ x, blockPos b ≤ x → x < blockPos (b + f.blocks) → m x = 0) : Content (added m k b f) f b := by
  have hlen := length_le hf
  have hblocks := blocksFor_length hf
  have hlow : ∀ b, ents + sizeofFile * k + sizeofFile ≤ blockPos b := by
    intro b
    unfold ents sizeofFile maxDirEnts blockPos diskmap at *
    omega
  have hdata := data_le f
  have hname : (f.last ++ [0#8]).length ≤ sizeofFile := by
    have hle := hf.name
    unfold nameMax at hle
    rw [List.length_append, List.length_singleton]
    unfold sizeofFile
    omega
  unfold added
  generalize ents + sizeofFile * k = e at *
  have hb := hlow b
  have hind := hlow (b + f.dataBlocks)
  have hzero : ∀ x, blockPos b ≤ x → x < blockPos (b + f.blocks) →
      (m.put e (f.last ++ [0#8])).write32 (fType e) ftypeReg x = 0 := by
    intro x h₁ h₂
    rw [Mem.write32_of_outside (by unfold fType sizeofFile at *; omega), Mem.put_of_outside (by omega)]
    exact hm x h₁ h₂
  unfold sizeofFile at hb hind
  refine ⟨fun i hi => ?_, fun hn i hi => ?_⟩
  · have hin : blockPos b + i < blockPos (b + f.dataBlocks) := by
      unfold blockPos blksize at *
      omega
    rw [filed_of_outside hlen (by omega) (fun _ => .inl hin)]
    by_cases hd : i < f.data.length
    · exact Mem.put_of_inside hd
    · rw [Mem.put_of_outside (by omega), hzero _ (by omega), List.getD_eq_default _ _ (by omega)]
      unfold Input.blocks blockPos blksize at *
      omega
  · have hone : f.blocks = f.dataBlocks + 1 := congrArg (f.dataBlocks + ·) (if_pos hn)
    rw [filed_cells (hblocks ▸ hn) (.inl (by omega)) hi, hblocks]
    refine if_congr Iff.rfl rfl ?_
    unfold nindirect at hi
    refine Mem.read32_eq_zero fun x h₁ h₂ => (Mem.put_of_outside ?_).trans (hzero x ?_ ?_)
    all_goals
      unfold blockPos blksize at *
      omega

end

end

theorem getElem?_append_singleton {files : List Input} (h : (files ++ [f])[k]? = some g) :
    files[k]? = some g ∧ k < files.length ∨ k = files.length ∧ g = f := by
  rcases Nat.lt_or_ge k files.length with hlt | hge
  · rw [List.getElem?_append_left hlt] at h
    exact .inl ⟨h, hlt⟩
  · rw [List.getElem?_append_right hge] at h
    have hz : k - files.length = 0 := by
      by_contra hne
      rw [List.getElem?_eq_none (by simp; omega)] at h
      cases h
    rw [hz] at h
    exact .inr ⟨by omega, (Option.some.inj h).symm⟩

theorem Laid.add (h : Laid heap nblocks files d) (hf : f.Accepted) (hk : files.length < maxDirEnts)
    (hroom : next files + f.blocks < nblocks) :
    Laid heap nblocks (files ++ [f]) { d with
      diskpos := blockPos (next files + f.blocks)
      mem := added d.mem files.length (next files) f } := by
  have hthree := three_le_next files
  -- Where the file is written, and where it is not.
  have hheap : ∀ x b, x < ents + sizeofFile * maxDirEnts → x < blockPos b := by
    intro x b hx
    unfold ents sizeofFile maxDirEnts blockPos diskmap at *
    omega
  have hdisk : ∀ x b, blockPos b ≤ x → ents + sizeofFile * (files.length + 1) ≤ x := by
    intro x b hx
    unfold ents sizeofFile maxDirEnts blockPos diskmap at *
    omega
  refine ⟨h.size, h.super, h.bitmap, by rw [next_append], by rw [next_append]; exact hroom, ?_, fun g hg => ?_,
    fun k g hg => ?_, fun k g hg => ?_, fun x h₁ h₂ => ?_, fun x h₁ h₂ => ?_, fun x h₁ h₂ => ?_⟩
  · rw [List.length_append, List.length_singleton]
    exact hk
  · rcases List.mem_append.1 hg with hg | hg
    · exact h.accepted g hg
    · exact List.mem_singleton.1 hg ▸ hf
  · rcases getElem?_append_singleton hg with ⟨hg, hlt⟩ | ⟨rfl, rfl⟩
    · rw [startOf_append (Nat.le_of_lt hlt)]
      refine (h.entry k g hg).congr fun i hi => added_of_outside hf (.inl ?_) (.inl (hheap _ _ ?_))
      all_goals
        unfold sizeofFile at *
        omega
    · rw [startOf_append (Nat.le_refl _), startOf_length]
      refine added_entry hf hk fun i hi => h.rest _ (Nat.le_add_right ..) ?_
      unfold sizeofFile at *
      omega
  · rcases getElem?_append_singleton hg with ⟨hg, hlt⟩ | ⟨rfl, rfl⟩
    · rw [startOf_append (Nat.le_of_lt hlt)]
      refine (h.content k g hg).congr fun x h₁ h₂ => added_of_outside hf (.inr (hdisk _ _ h₁)) (.inl ?_)
      exact Nat.lt_of_lt_of_le h₂ (blockPos_mono (startOf_end hg))
    · rw [startOf_append (Nat.le_refl _), startOf_length]
      exact added_content hf hk fun x h₁ h₂ => h.fresh x h₁ (Nat.lt_of_lt_of_le h₂ (blockPos_mono (Nat.le_of_lt hroom)))
  · refine (added_of_outside hf (.inr (hdisk _ _ h₁)) (.inl ?_)).trans (h.low x h₁ h₂)
    exact Nat.lt_of_lt_of_le h₂ (blockPos_mono hthree)
  · rw [next_append] at h₁
    refine (added_of_outside hf (.inr (hdisk _ _ h₁)) (.inr h₁)).trans (h.fresh x ?_ h₂)
    exact Nat.le_trans (blockPos_mono (Nat.le_add_right ..)) h₁
  · rw [List.length_append, List.length_singleton] at h₁
    refine (added_of_outside hf (.inr h₁) (.inl (hheap _ _ h₂))).trans (h.rest x ?_ h₂)
    unfold sizeofFile at *
    omega

theorem writefiles_ok {d : Disk} (h : Laid heap nblocks done d) :
    Triple (writefiles files done.length) d (fun _ t => Laid heap nblocks (done ++ files) t) fun _ _ => True := by
  induction files generalizing done d with
  | nil =>
    rw [List.append_nil]
    exact .pure h
  | cons f files ih =>
    refine .bind (writefile_eq h.pos) ?_
    rintro _ _ ⟨hf, hk, hroom, rfl⟩
    have hadd := ih (h.add hf hk (h.size ▸ hroom))
    rw [List.length_append, List.append_assoc] at hadd
    exact hadd

/-! ## The finished image -/

section

variable {heap : Mem} {nblocks x i b : Nat}

theorem opened_of_outside (h : x < blockPos 1 ∨ blockPos 3 ≤ x) :
    opened heap nblocks x = heap.fill diskmap (nblocks * blksize) 0#8 x := by
  have h1 : superAddr = blockPos 1 := rfl
  have h2 : bitmapAddr = blockPos 1 + blksize := rfl
  have h3 : blockPos 3 = blockPos 1 + 2 * blksize := by decide
  have hnb : sNblocks = superAddr + 4 := rfl
  have hroot : sRoot = superAddr + 8 := rfl
  unfold blksize at h2 h3
  refine (Mem.fill_of_outside (by unfold blksize; omega)).trans ((Mem.put_of_outside ?_).trans
    ((Mem.write32_of_outside ?_).trans ((Mem.write32_of_outside (by omega)).trans (Mem.write32_of_outside (by omega)))))
  · simp only [List.length_cons, List.length_nil]
    omega
  · unfold fType
    omega

theorem opened_fresh (h₁ : blockPos 3 ≤ x) (h₂ : x < blockPos nblocks) : opened heap nblocks x = 0 := by
  unfold blockPos at h₁ h₂
  rw [opened_of_outside (.inr h₁)]
  refine Mem.fill_of_inside (by omega) ?_
  rw [Nat.mul_comm]
  exact h₂

theorem opened_super (h₁ : blockPos 1 ≤ x) (h₂ : x < blockPos 2) : opened heap nblocks x =
    ((((heap.fill diskmap (nblocks * blksize) 0#8).write32 superAddr fsMagic).write32 sNblocks
      (BitVec.ofNat 32 nblocks)).write32 (fType sRoot) ftypeDir).put sRoot [slash, 0#8] x :=
  Mem.fill_of_outside (.inl h₂)

theorem opened_magic : (opened heap nblocks).read32 superAddr = fsMagic := by
  unfold opened
  rw [Mem.read32_fill_of_disjoint _ (by decide), Mem.read32_put_of_disjoint _ (by decide),
    Mem.read32_write32_of_disjoint _ (by decide), Mem.read32_write32_of_disjoint _ (by decide), Mem.read32_write32_self]

theorem opened_nblocks : (opened heap nblocks).read32 sNblocks = BitVec.ofNat 32 nblocks := by
  unfold opened
  rw [Mem.read32_fill_of_disjoint _ (by decide), Mem.read32_put_of_disjoint _ (by decide),
    Mem.read32_write32_of_disjoint _ (by decide), Mem.read32_write32_self]

theorem opened_rootType : (opened heap nblocks).read32 (fType sRoot) = ftypeDir := by
  unfold opened
  rw [Mem.read32_fill_of_disjoint _ (by decide), Mem.read32_put_of_disjoint _ (by decide), Mem.read32_write32_self]

theorem opened_rootName (hi : i < 2) : opened heap nblocks (sRoot + i) = [slash, 0#8].getD i 0 := by
  have hbegin : blockPos 1 = superAddr := rfl
  have hend : superAddr + 4096 = blockPos 2 := by decide
  have hroot : sRoot = superAddr + 8 := rfl
  exact (opened_super (by omega) (by omega)).trans (Mem.put_of_inside hi)

theorem opened_rootPtrs (hn : 2 ≤ nblocks) (h₁ : sRoot + 136 ≤ x) (h₂ : x < sRoot + 180) : opened heap nblocks x = 0 := by
  have hbegin : blockPos 1 = superAddr := rfl
  have hbegin' : superAddr = diskmap + 4096 := rfl
  have hend : superAddr + 4096 = blockPos 2 := by decide
  have hroot : sRoot = superAddr + 8 := rfl
  have hnb : sNblocks = superAddr + 4 := rfl
  have htype : fType sRoot = superAddr + 140 := rfl
  have hlen : [slash, 0#8].length = 2 := rfl
  refine (opened_super (by omega) (by omega)).trans ((Mem.put_of_outside (by omega)).trans
    ((Mem.write32_of_outside (by omega)).trans ((Mem.write32_of_outside (by omega)).trans
      ((Mem.write32_of_outside (by omega)).trans (Mem.fill_of_inside (by omega) ?_)))))
  unfold blksize
  omega

theorem opened_bitmap (hb : b < blkbitsize) : Words.free (opened heap nblocks).words b = true := by
  have hword : (opened heap nblocks).words (bitmapIx b) = 0xFFFFFFFF#32 := by
    have hin : ∀ k < 4, opened heap nblocks (4 * bitmapIx b + k) = 0xFF#8 := by
      intro k hk
      refine Mem.fill_of_inside ?_ ?_
      all_goals
        unfold blkbitsize at hb
        unfold bitmapAddr bitmapIx blockIx diskmap blksize
        omega
    unfold Mem.words Mem.read32
    rw [hin 3 (by omega), hin 2 (by omega), hin 1 (by omega), ← Nat.add_zero (4 * bitmapIx b), hin 0 (by omega)]
    decide
  unfold Words.free
  rw [hword]
  have hbits : ∀ i : Fin 32, (0xFFFFFFFF#32).getLsbD i = true := by decide
  exact hbits ⟨b % 32, Nat.mod_lt _ (by decide)⟩

theorem opened_heap (h : x < blockPos 0) : opened heap nblocks x = heap x := by
  unfold blockPos at h
  rw [opened_of_outside (.inl (by unfold blockPos; omega))]
  exact Mem.fill_of_outside (.inl h)

end

theorem opendisk_ok (hn : 2 ≤ nblocks) (hn' : nblocks ≤ 1024) :
    Triple (opendisk nblocks) (unformatted heap) (fun _ t => Laid heap nblocks [] t) fun _ _ => True := by
  have hone : blocksFor (4096#32).toNat = 1 := by decide
  have hbits : (nblocks + (blkbitsize - 1)) / blkbitsize = 1 := by
    unfold blkbitsize
    omega
  unfold opendisk
  simp only [hbits, Nat.one_mul]
  refine .bind (.modify (Q := fun _ t => t.nblocks = nblocks ∧ t.diskpos = blockPos 0 ∧
    t.mem = heap.fill diskmap (nblocks * blksize) 0#8) ⟨rfl, rfl, rfl⟩) ?_
  rintro _ d ⟨hsize, hpos, hmem⟩
  refine .bind (alloc_ok hpos (by decide)) ?_
  rintro _ _ ⟨rfl, rfl, -⟩
  refine .bind (alloc_ok rfl (by decide)) ?_
  rintro _ _ ⟨rfl, rfl, -⟩
  rw [hone]
  refine .modify_bind ?_
  refine .modify_bind ?_
  refine .modify_bind ?_
  refine .modify_bind ?_
  refine .bind (alloc_ok rfl (by decide)) ?_
  rintro _ _ ⟨rfl, rfl, hroom⟩
  refine .modify_bind ?_
  refine .modify ?_
  have hroom : 3 < nblocks := hsize ▸ hroom
  generalize hd : Disk.mk _ _ _ _ _ = t
  have ht : t.mem = opened heap nblocks := by
    rw [← hd, opened, ← hmem]
    rfl
  refine ⟨hd ▸ hsize, hd ▸ rfl, hd ▸ rfl, hd ▸ rfl, hroom, Nat.zero_le _, nofun, nofun, nofun, fun x _ _ => by rw [ht],
    fun x h₁ h₂ => ?_, fun x h₁ h₂ => ?_⟩
  · rw [ht]
    exact opened_fresh h₁ h₂
  · rw [ht]
    exact opened_heap (Nat.lt_of_lt_of_le h₂ (by decide))

def entBlocks (files : List Input) : Nat := blocksFor (sizeofFile * files.length)

def rootBlocks (files : List Input) : Nat := if files = [] then 1 else entBlocks files

def used (files : List Input) : Nat := next files + entBlocks files

/-- The image that `fsformat` leaves. -/
structure Formatted (heap : Mem) (nblocks : Nat) (files : List Input) (m : Mem) : Prop where
  bound : nblocks ≤ 1024
  room : used files < nblocks
  few : files.length ≤ maxDirEnts
  accepted : ∀ f ∈ files, f.Accepted
  magic : m.read32 superAddr = fsMagic
  nblocks : m.read32 sNblocks = BitVec.ofNat 32 nblocks
  rootName : m sRoot = slash ∧ m (sRoot + 1) = 0
  rootType : m.read32 (fType sRoot) = ftypeDir
  rootSize : m.read32 (fSize sRoot) = BitVec.ofNat 32 (blksize * rootBlocks files)
  rootDirect : ∀ j < ndirect, m.read32 (fDirect sRoot j) =
    if j < rootBlocks files then BitVec.ofNat 32 (next files + j) else 0
  rootIndirect : m.read32 (fIndirect sRoot) = 0
  entry : ∀ k f, files[k]? = some f → Entry heap m k f (startOf files k) (blockPos (next files) + sizeofFile * k)
  content : ∀ k f, files[k]? = some f → Content m f (startOf files k)
  padding : ∀ i, sizeofFile * files.length ≤ i → i < blksize * rootBlocks files →
    m (blockPos (next files) + i) = 0
  bitmap : ∀ b < blkbitsize, Words.free m.words b = decide (used files ≤ b)

section

variable {m : Mem} {k x : Nat}

def marked (m : Mem) (k : Nat) : Mem :=
  (List.range k).foldl (fun m i =>
    m.write32 (bitmapWord i) (m.read32 (bitmapWord i) &&& ~~~(1#32 <<< (i % 32)))) m

theorem marked_succ (m : Mem) (k : Nat) : (marked m (k + 1)).words = Words.markUsed (marked m k).words k := by
  unfold marked
  rw [List.range_succ, List.foldl_append, List.foldl_cons, List.foldl_nil, bitmapWord_eq, Mem.words_write32,
    Mem.read32_four_mul]
  rfl

theorem marked_free (m : Mem) (k b : Nat) :
    Words.free (marked m k).words b = (Words.free m.words b && decide (k ≤ b)) := by
  induction k with
  | zero => simp [marked]
  | succ k ih =>
    rw [marked_succ, Words.free_markUsed, ih, Bool.and_assoc, ← Bool.decide_and]
    exact congrArg _ (decide_eq_decide.2 (by omega))

theorem marked_of_outside (hk : k ≤ blkbitsize) (h : x < blockPos 2 ∨ blockPos 3 ≤ x) : marked m k x = m x := by
  induction k with
  | zero => rfl
  | succ k ih =>
    refine (Mem.byte_of_words ?_).trans (ih (by omega))
    rw [marked_succ]
    refine Function.update_of_ne ?_ ..
    unfold blkbitsize at hk
    unfold bitmapIx blockIx
    unfold blockPos blksize diskmap at h
    omega

end

theorem rootBlocks_le (h : files.length ≤ maxDirEnts) : rootBlocks files ≤ 8 ∧ entBlocks files ≤ rootBlocks files := by
  unfold rootBlocks entBlocks
  unfold maxDirEnts at h
  split
  · rename_i hnil
    rw [hnil]
    decide
  · unfold blocksFor sizeofFile blksize
    omega

/-- The size that the root directory is given: no entries make one block, because
the remainder of `-1` is `-1`. -/
theorem roundupInt_size (files : List Input) :
    roundupInt (files.length * sizeofFile) blksize = (blksize * rootBlocks files : Nat) := by
  cases files with
  | nil => decide
  | cons f files =>
    have hmod : ((f :: files).length * sizeofFile - 1 : Int).tmod blksize =
        ((f :: files).length * sizeofFile - 1 : Int) % blksize := by
      refine Int.tmod_eq_emod_of_nonneg ?_
      rw [List.length_cons]
      unfold sizeofFile
      omega
    unfold roundupInt
    rw [hmod]
    unfold rootBlocks entBlocks blocksFor
    rw [if_neg (List.cons_ne_nil f files), List.length_cons]
    unfold sizeofFile blksize
    omega

def withRoot (m : Mem) (files : List Input) : Mem :=
  filed (m.move (blockPos (next files)) ents (sizeofFile * files.length)) sRoot (next files)
    (BitVec.ofNat 32 (blksize * rootBlocks files)) (used files)

theorem toNat_rootSize (h : files.length ≤ maxDirEnts) :
    (BitVec.ofNat 32 (blksize * rootBlocks files)).toNat = blksize * rootBlocks files := by
  have hle := (rootBlocks_le h).1
  rw [BitVec.toNat_ofNat]
  unfold blksize
  omega

theorem blocksFor_rootSize (h : files.length ≤ maxDirEnts) :
    blocksFor (BitVec.ofNat 32 (blksize * rootBlocks files)).toNat = rootBlocks files := by
  rw [toNat_rootSize h]
  unfold blocksFor blksize
  omega

theorem finishdir_ok {d : Disk} (h : Laid heap nblocks files d) :
    Triple (finishdir files.length) d (fun _ t => used files < nblocks ∧
      t = { d with diskpos := blockPos (used files), mem := withRoot d.mem files }) fun _ _ => True := by
  have hfew := h.few
  have hle := rootBlocks_le hfew
  have hcast : (files.length * sizeofFile : Int) = (sizeofFile * files.length : Nat) := by
    rw [Nat.mul_comm]
    rfl
  have hsize : (BitVec.ofInt 32 (files.length * sizeofFile : Int)).toNat = sizeofFile * files.length := by
    rw [hcast, BitVec.ofInt_natCast, BitVec.toNat_ofNat]
    unfold maxDirEnts at hfew
    unfold sizeofFile
    omega
  unfold finishdir
  refine .bind (alloc_ok h.pos ?_) ?_
  · rw [hsize]
    unfold maxDirEnts at hfew
    unfold sizeofFile
    omega
  rintro _ _ ⟨rfl, rfl, hroom⟩
  rw [hsize] at hroom ⊢
  refine .modify_bind ?_
  refine .bind (.get (Q := fun r t => r.super = superAddr ∧ t = _) ⟨h.super, rfl⟩) ?_
  rintro r _ ⟨hr, rfl⟩
  rw [hr, blockof_blockPos, roundupInt_size, BitVec.ofInt_natCast]
  have hnone : ¬ ndirect ≤ blocksFor (BitVec.ofNat 32 (blksize * rootBlocks files)).toNat := by
    rw [blocksFor_rootSize hfew]
    unfold ndirect
    omega
  refine .mono (finishfile_ok rfl ?_ ?_) ?_ fun _ _ h => h
  · exact hroom
  · rw [toNat_rootSize hfew]
    unfold maxfilesize ndirect nindirect blksize
    omega
  rintro _ _ ⟨rfl, hroom'⟩
  rw [if_neg hnone]
  refine ⟨h.size ▸ hroom, ?_⟩
  rw [hcast]
  rfl

section

variable {m : Mem} {files : List Input} {x i j k : Nat}

section
variable (hfew : files.length ≤ maxDirEnts)
include hfew

theorem withRoot_of_move (h : x < sRoot + 128 ∨ sRoot + 180 ≤ x) :
    withRoot m files x = m.move (blockPos (next files)) ents (sizeofFile * files.length) x := by
  have hle := rootBlocks_le hfew
  refine filed_of_outside ?_ h fun hn => ?_
  · rw [toNat_rootSize hfew]
    unfold maxfilesize ndirect nindirect blksize
    omega
  · rw [blocksFor_rootSize hfew] at hn
    unfold ndirect at hn
    omega

theorem withRoot_of_outside (h : x < sRoot + 128 ∨ sRoot + 180 ≤ x)
    (hd : x < blockPos (next files) ∨ blockPos (next files) + sizeofFile * files.length ≤ x) :
    withRoot m files x = m x :=
  (withRoot_of_move hfew h).trans (Mem.move_of_outside hd)

theorem withRoot_ents (hi : i < sizeofFile * files.length) :
    withRoot m files (blockPos (next files) + i) = m (ents + i) := by
  have hthree := three_le_next files
  refine (withRoot_of_move hfew ?_).trans ?_
  · have hroot : sRoot + 180 ≤ blockPos 3 := by decide
    have hpos := blockPos_mono hthree
    omega
  · unfold Mem.move
    rw [if_pos (by omega), Nat.add_sub_cancel_left]

theorem withRoot_fields (h₁ : sRoot + 128 ≤ x) (h₂ : x + 4 ≤ sRoot + 176) : (withRoot m files).read32 x =
      (recorded (m.move (blockPos (next files)) ents (sizeofFile * files.length)) sRoot (next files)
        (BitVec.ofNat 32 (blksize * rootBlocks files))).read32 x := by
  have hle := rootBlocks_le hfew
  have hthree := three_le_next files
  refine filed_read ?_ (.inl ?_) h₁ h₂
  · rw [toNat_rootSize hfew]
    unfold maxfilesize ndirect nindirect blksize
    omega
  · have hroot : sRoot + 180 ≤ blockPos 3 := by decide
    have hpos : blockPos 3 ≤ blockPos (used files) := blockPos_mono (Nat.le_trans hthree (Nat.le_add_right ..))
    omega

end

end

theorem Laid.formatted {d : Disk} (h : Laid heap nblocks files d) (hlow : 2 ≤ nblocks) (hbound : nblocks ≤ 1024)
    (hroom : used files < nblocks) : Formatted heap nblocks files (marked (withRoot d.mem files) (used files)) := by
  have hfew := h.few
  have hle := rootBlocks_le hfew
  have hthree := three_le_next files
  have hk : used files ≤ blkbitsize := by
    unfold blkbitsize
    omega
  have hroot : blockPos 1 ≤ sRoot ∧ sRoot + 180 ≤ blockPos 2 := by decide
  have h23 : blockPos 2 ≤ blockPos 3 := by decide
  have hpos := blockPos_mono hthree
  have h01 : blockPos 0 ≤ blockPos 1 := by decide
  generalize hm : marked (withRoot d.mem files) (used files) = m
  have hmark : ∀ x, x < blockPos 2 ∨ blockPos 3 ≤ x → m x = withRoot d.mem files x := by
    intro x hx
    rw [← hm]
    exact marked_of_outside hk hx
  -- The super block outside the root directory's own fields, and those that are not set.
  have hsuper : ∀ x, blockPos 1 ≤ x → x < blockPos 2 → x < sRoot + 128 ∨ sRoot + 180 ≤ x →
      m x = opened heap nblocks x := by
    intro x h₁ h₂ h₃
    rw [hmark x (.inl h₂), withRoot_of_outside hfew h₃ (.inl (by omega))]
    exact h.low x (by omega) (by omega)
  have hmoved : ∀ x, blockPos 1 ≤ x → x < blockPos 2 →
      d.mem.move (blockPos (next files)) ents (sizeofFile * files.length) x = opened heap nblocks x := by
    intro x h₁ h₂
    rw [Mem.move_of_outside (.inl (by omega))]
    exact h.low x (by omega) (by omega)
  have hfield : ∀ x, sRoot + 128 ≤ x → x + 4 ≤ sRoot + 180 → m.read32 x = (withRoot d.mem files).read32 x :=
    fun x h₁ h₂ => Mem.read32_congr fun y h₃ h₄ => hmark y (.inl (by omega))
  refine ⟨hbound, hroom, hfew, h.accepted, ?_, ?_, ⟨?_, ?_⟩, ?_, ?_, fun j hj => ?_, ?_, fun k f hf => ?_,
    fun k f hf => ?_, fun i h₁ h₂ => ?_, fun b hb => ?_⟩
  · have hbegin : superAddr = blockPos 1 := rfl
    refine (Mem.read32_congr fun x h₁ h₂ => hsuper x ?_ ?_ (.inl ?_)).trans opened_magic <;> omega
  · have hbegin : sNblocks = blockPos 1 + 4 := rfl
    refine (Mem.read32_congr fun x h₁ h₂ => hsuper x ?_ ?_ (.inl ?_)).trans opened_nblocks <;> omega
  · rw [hsuper _ (by omega) (by omega) (by omega), ← Nat.add_zero sRoot, opened_rootName (by omega)]
    rfl
  · rw [hsuper _ (by omega) (by omega) (by omega), opened_rootName (by omega)]
    rfl
  · have hbegin : fType sRoot = sRoot + 132 := rfl
    rw [hfield _ (by omega) (by omega), withRoot_fields hfew (by omega) (by omega), recorded_type]
    refine (Mem.read32_congr fun x h₁ h₂ => hmoved x ?_ ?_).trans opened_rootType <;> omega
  · have hbegin : fSize sRoot = sRoot + 128 := rfl
    rw [hfield _ (by omega) (by omega), withRoot_fields hfew (by omega) (by omega), recorded_size]
  · have hbegin : fDirect sRoot j = sRoot + 136 + 4 * j := rfl
    have hj' := hj
    unfold ndirect at hj'
    rw [hfield _ (by omega) (by omega), withRoot_fields hfew (by omega) (by omega), recorded_direct hj,
      blocksFor_rootSize hfew]
    refine if_congr Iff.rfl rfl (Mem.read32_eq_zero fun x h₁ h₂ => (hmoved x ?_ ?_).trans (opened_rootPtrs hlow ?_ ?_))
    all_goals omega
  · have hbegin : fIndirect sRoot = sRoot + 176 := rfl
    have hnone : ¬ ndirect ≤ rootBlocks files := by
      unfold ndirect
      omega
    have hlen : (BitVec.ofNat 32 (blksize * rootBlocks files)).toNat ≤ maxfilesize := by
      rw [toNat_rootSize hfew]
      unfold maxfilesize ndirect nindirect blksize
      omega
    have hused : blockPos 3 ≤ blockPos (used files) := blockPos_mono (Nat.le_trans hthree (Nat.le_add_right ..))
    rw [hfield _ (by omega) (by omega), withRoot, filed_indirect hlen (.inl (by omega)), blocksFor_rootSize hfew,
      if_neg hnone]
    refine Mem.read32_eq_zero fun x h₁ h₂ => (hmoved x ?_ ?_).trans (opened_rootPtrs hlow ?_ ?_) <;> omega
  · have hlt := (List.getElem?_eq_some_iff.1 hf).1
    refine (h.entry k f hf).congr fun i hi => ?_
    have hin : sizeofFile * k + i < sizeofFile * files.length := by
      unfold sizeofFile at *
      omega
    rw [hmark _ (.inr (by omega)), Nat.add_assoc, withRoot_ents hfew hin, Nat.add_assoc]
  · have hend := blockPos_mono (startOf_end hf)
    have hstart : blockPos 3 ≤ blockPos (startOf files k) := blockPos_mono (three_le_next _)
    refine (h.content k f hf).congr fun x h₁ h₂ => ?_
    rw [hmark x (.inr (by omega)), withRoot_of_outside hfew (.inr (by omega)) (.inl (by omega))]
  · rw [hmark _ (.inr (by omega)), withRoot_of_outside hfew (.inr (by omega)) (.inr (by omega))]
    refine h.fresh _ (by omega) ?_
    have hfit : next files + rootBlocks files ≤ nblocks := by
      unfold used rootBlocks at *
      split <;> omega
    have hend := blockPos_mono hfit
    rw [← blockPos_add] at hend
    omega
  · have hold : Words.free (withRoot d.mem files).words b = true := by
      have hall : Words.free (opened heap nblocks).words b = true := opened_bitmap hb
      rw [← hall]
      refine congrArg (BitVec.getLsbD · (b % 32)) (Mem.words_congr fun x h₁ h₂ => ?_)
      have hin : blockPos 2 ≤ x ∧ x < blockPos 3 := by
        unfold blkbitsize at hb
        unfold bitmapIx blockIx at h₁ h₂
        unfold blockPos diskmap blksize
        omega
      rw [withRoot_of_outside hfew (.inr (by omega)) (.inl (by omega))]
      exact h.low x (by omega) hin.2
    rw [← hm, marked_free, hold, Bool.true_and]

theorem main_ok : Triple (main nblocks files) (unformatted heap)
    (fun _ t => Formatted heap nblocks files t.mem ∧ t.diskpos = blockPos (used files)) fun _ _ => True := by
  refine .guard (fun _ => trivial) fun hrange => ?_
  refine .bind (opendisk_ok (by omega) (by omega)) fun _ d hd => ?_
  refine .bind (writefiles_ok hd) fun _ d (hd : Laid heap nblocks files d) => ?_
  refine .bind (finishdir_ok hd) fun _ t ht => ?_
  have hbitmap : t.bitmap = bitmapAddr := by
    rw [ht.2]
    exact hd.bitmap
  refine .get_bind ?_
  rw [hbitmap]
  refine .modify ⟨?_, by rw [ht.2]⟩
  have hpos : blockof t.diskpos = used files := by rw [ht.2, blockof_blockPos]
  have hmem : t.mem = withRoot d.mem files := by rw [ht.2]
  rw [hpos, hmem]
  exact hd.formatted (by omega) (by omega) ht.1

/-! ## The block numbers in an image -/

/-- The `struct File`s of an image: the root directory's and those in its blocks. -/
inductive Record (w : Words) : Nat → Prop
  | root : Record w rootIx
  | entry : i < (w (rootIx + 32)).toNat / blksize → j < blkfiles → Record w (blockIx (w.ptr rootIx i).toNat + 64 * j)

/-- The block numbers stored in files and in indirect blocks. -/
inductive Stored (w : Words) : Word → Prop
  | direct : Record w x → j < ndirect → Stored w (w (x + (34 + j)))
  | indirect : Record w x → Stored w (w.table x)
  | cell : Record w x → w.table x ≠ 0 → i < nindirect → Stored w (w (blockIx (w.table x).toNat + i))

def Disk.Allocated (d : Disk) (b : Word) : Prop :=
  b.toNat < blockof d.diskpos ∧ Words.free d.mem.words b.toNat = false

theorem used_lt (h : Formatted heap nblocks files m) (hb : b ≤ used files) : (BitVec.ofNat 32 b).toNat = b := by
  have hroom := h.room
  have hbound := h.bound
  bv_omega

theorem blockPos_eq (b : Nat) : blockPos b = 4 * blockIx b := by
  unfold blockPos blockIx diskmap blksize
  omega

theorem Entry.direct_word (h : Entry heap m k f start (4 * x)) (hj : j < ndirect) : m.words (x + (34 + j)) =
    if j < f.dataBlocks then BitVec.ofNat 32 (start + j) else f.stale heap k (136 + 4 * j) := by
  rw [← h.direct j hj, fDirect_eq, Nat.add_assoc]
  rfl

theorem Entry.table_word (h : Entry heap m k f start (4 * x)) : Words.table m.words x =
    if ndirect ≤ f.dataBlocks then BitVec.ofNat 32 (start + f.dataBlocks) else f.stale heap k 176 :=
  h.indirect

namespace Formatted

variable {heap m : Mem} {nblocks : Nat} {files : List Input}

section
variable (h : Formatted heap nblocks files m)
include h

theorem entryAt (hf : files[k]? = some f) :
    Entry heap m k f (startOf files k) (4 * (blockIx (next files) + 64 * k)) := by
  have he := h.entry k f hf
  rwa [blockPos_eq, show 4 * blockIx (next files) + sizeofFile * k = 4 * (blockIx (next files) + 64 * k) by
    unfold sizeofFile; omega] at he

theorem root_word (hj : j < ndirect) : m.words (rootIx + (34 + j)) =
    if j < rootBlocks files then BitVec.ofNat 32 (next files + j) else 0 := by
  rw [← h.rootDirect j hj, sRoot_eq, fDirect_eq, Nat.add_assoc]
  rfl

theorem root_table : Words.table m.words rootIx = 0 := h.rootIndirect

theorem root_size : (m.words (rootIx + 32)).toNat = blksize * rootBlocks files :=
  (congrArg BitVec.toNat h.rootSize).trans (toNat_rootSize h.few)

theorem root_ptr (hi : i < rootBlocks files) : (Words.ptr m.words rootIx i).toNat = next files + i := by
  have hle := rootBlocks_le h.few
  have hroom := h.room
  have hbound := h.bound
  have hi' : i < ndirect := by
    unfold ndirect
    omega
  rw [Words.ptr_direct hi', h.root_word hi', if_pos hi, BitVec.toNat_ofNat]
  unfold used at hroom
  omega

/-- The entries in the directory's blocks: those of the files, and empty ones. -/
theorem record_cases (hx : Record m.words x) :
    x = rootIx ∨ (∃ k f, files[k]? = some f ∧ x = blockIx (next files) + 64 * k) ∨ ∀ off < 64, m.words (x + off) = 0 := by
  cases hx with
  | root => exact .inl rfl
  | @entry i j hi hj =>
    rw [h.root_size, Nat.mul_div_cancel_left _ (by decide)] at hi
    rw [h.root_ptr hi]
    unfold blkfiles at hj
    have hx : blockIx (next files + i) + 64 * j = blockIx (next files) + 64 * (16 * i + j) := by
      unfold blockIx
      omega
    rw [hx]
    rcases Nat.lt_or_ge (16 * i + j) files.length with hlt | hge
    · exact .inr (.inl ⟨_, files[16 * i + j], List.getElem?_eq_getElem hlt, rfl⟩)
    · refine .inr (.inr fun off hoff => Mem.read32_eq_zero fun y h₁ h₂ => ?_)
      have hpad := h.padding (y - blockPos (next files))
      rw [blockPos_eq] at hpad
      rw [show y = 4 * blockIx (next files) + (y - 4 * blockIx (next files)) by omega]
      refine hpad ?_ ?_
      all_goals
        unfold sizeofFile blksize at *
        omega

theorem record_entry (hf : files[k]? = some f) : Record m.words (blockIx (next files) + 64 * k) := by
  have hlt := (List.getElem?_eq_some_iff.1 hf).1
  have hin : k / 16 < rootBlocks files := by
    unfold rootBlocks entBlocks blocksFor
    rw [if_neg (List.ne_nil_of_length_pos (by omega))]
    unfold sizeofFile blksize
    omega
  have hrec := Record.entry (w := m.words) (i := k / 16) (j := k % 16)
    (by rwa [h.root_size, Nat.mul_div_cancel_left _ (by decide)]) (Nat.mod_lt _ (by decide))
  rwa [h.root_ptr hin, show blockIx (next files + k / 16) + 64 * (k % 16) = blockIx (next files) + 64 * k by
    unfold blockIx; omega] at hrec

end

end Formatted

/-- The pointers of entry `k` that its file does not set name allocated blocks;
in `f_indirect` moreover one whose words all do. -/
structure Disk.Clean (d : Disk) (heap : Mem) (k : Nat) (f : Input) : Prop where
  direct : ∀ j < ndirect, f.dataBlocks ≤ j → (f.stale heap k (136 + 4 * j)).toNat < blockof d.diskpos
  indirect : f.dataBlocks < ndirect → (f.stale heap k 176).toNat < blockof d.diskpos
  cells : f.dataBlocks < ndirect → f.stale heap k 176 ≠ 0 → ∀ i < nindirect,
    (d.mem.words (blockIx (f.stale heap k 176).toNat + i)).toNat < blockof d.diskpos

theorem stored_lt {d : Disk} (h : Formatted heap nblocks files d.mem) (hp : d.diskpos = blockPos (used files))
    (hne : files ≠ []) (hclean : ∀ k f, files[k]? = some f → d.Clean heap k f) (hb : Stored d.mem.words b) :
    b.toNat < used files := by
  have hpos : blockof d.diskpos = used files := by rw [hp, blockof_blockPos]
  have hthree : 3 ≤ used files := Nat.le_trans (three_le_next files) (Nat.le_add_right ..)
  have hroot : rootBlocks files = entBlocks files := if_neg hne
  -- Blocks of the files and of the directory.
  have hfile : ∀ {k f}, files[k]? = some f → startOf files k + f.blocks ≤ used files :=
    fun hf => Nat.le_trans (startOf_end hf) (Nat.le_add_right ..)
  have hnum : ∀ {n}, n < used files → (BitVec.ofNat 32 n).toNat < used files := by
    intro n hn
    rwa [used_lt h (Nat.le_of_lt hn)]
  cases hb with
  | @direct x j hx hj =>
    rcases h.record_cases hx with rfl | ⟨k, f, hf, rfl⟩ | hzero
    · rw [h.root_word hj]
      split
      · exact hnum (by unfold used; omega)
      · exact Nat.lt_of_lt_of_le (by decide) hthree
    · rw [(h.entryAt hf).direct_word hj]
      split
      · have hle := hfile hf
        unfold Input.blocks at hle
        exact hnum (by omega)
      · rw [← hpos]
        exact (hclean k f hf).direct j hj (by omega)
    · rw [hzero _ (by unfold ndirect at hj; omega)]
      exact Nat.lt_of_lt_of_le (by decide) hthree
  | @indirect x hx =>
    rcases h.record_cases hx with rfl | ⟨k, f, hf, rfl⟩ | hzero
    · rw [h.root_table]
      exact Nat.lt_of_lt_of_le (by decide) hthree
    · rw [(h.entryAt hf).table_word]
      split
      · rename_i hn
        have hle := hfile hf
        rw [show f.blocks = f.dataBlocks + 1 from congrArg (f.dataBlocks + ·) (if_pos hn)] at hle
        exact hnum (by omega)
      · rw [← hpos]
        exact (hclean k f hf).indirect (by omega)
    · rw [Words.table, hzero _ (by decide)]
      exact Nat.lt_of_lt_of_le (by decide) hthree
  | @cell x i hx hne hi =>
    rcases h.record_cases hx with rfl | ⟨k, f, hf, rfl⟩ | hzero
    · exact absurd h.root_table hne
    · rw [(h.entryAt hf).table_word] at hne ⊢
      split at hne
      · rename_i hn
        have hle := hfile hf
        rw [show f.blocks = f.dataBlocks + 1 from congrArg (f.dataBlocks + ·) (if_pos hn)] at hle
        have hcell := (h.content k f hf).cells hn i hi
        rw [blockPos_eq, ← Nat.mul_add, Mem.read32_four_mul] at hcell
        rw [if_pos hn, used_lt h (by omega), hcell]
        split
        · exact hnum (by omega)
        · exact Nat.lt_of_lt_of_le (by decide) hthree
      · rename_i hn
        rw [if_neg hn, ← hpos]
        exact (hclean k f hf).cells (by omega) hne i hi
    · exact absurd (hzero 44 (by decide)) hne

def emptyFile : Input := ⟨[0x61#8], []⟩

theorem stale_zero {f : Input} (hname : f.last.length < off) (hoff : off + 4 ≤ sizeofFile) :
    f.stale (fun _ => 0) k off = 0 := by
  refine Mem.read32_eq_zero fun x h₁ h₂ => Mem.put_of_outside ?_
  rw [List.length_append, List.length_singleton]
  omega

end Jos.Fs.Format
