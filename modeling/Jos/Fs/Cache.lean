import Jos.Fs.Disk

/-!
# The block cache (`fs/bc.c`)

A block of the disk is read into its page on the first access, by the page
fault handler, and written back by `flush_block`. The page tables tell which
pages are mapped and which are dirty: a store sets `PTE_D`, and so does
reading a block in, and `sys_page_map` of a page onto itself clears it. The
content of a block is that of its page if it is mapped, and else that on disk;
this is what the rest of the server sees as its memory.
-/

namespace Jos.Fs

open Lib
open Function (update update_idem update_of_ne update_self)

/-- `superSet` and `bitmapSet` say whether `fs_init` has set these pointers. -/
structure Cache where
  disk : Mem
  page : Mem
  mapped : Nat → Bool
  dirty : Nat → Bool
  superSet : Bool
  bitmapSet : Bool

inductive CachePanic where
  | faultOutside
  | nonexistentBlock
  | freeBlock
  | flushBadVa
  | badBlock
  | stackOverflow
deriving DecidableEq

abbrev CacheM := M Cache CachePanic

namespace Cache

def blockOf (addr : Nat) : Nat := (addr - diskmap) / blksize

def logical (c : Cache) : Mem := fun x => if c.mapped (blockOf x) then c.page x else c.disk x

/-! ## Page tables and the disk -/

def sysPageAlloc (b : Nat) : CacheM Unit :=
  modify fun c => { c with
    mapped := update c.mapped b true
    dirty := update c.dirty b false
    page := fun x => if blockOf x = b then 0 else c.page x }

def ideRead (b : Nat) : CacheM Unit :=
  modify fun c => { c with
    page := fun x => if blockOf x = b then c.disk x else c.page x
    dirty := update c.dirty b true }

def ideWrite (b : Nat) : CacheM Unit :=
  modify fun c => { c with disk := fun x => if blockOf x = b then c.page x else c.disk x }

/-- `sys_page_map` of a page onto itself. -/
def clearDirty (b : Nat) : CacheM Unit :=
  modify fun c => { c with dirty := update c.dirty b false }

/-! ## `bc_pgfault` -/

/-- A load, with what the server does first to have the page there. -/
def loadWord (touch : Nat → CacheM Unit) (addr : Nat) : CacheM Word := do
  touch addr
  return (← get).page.read32 addr

def blockFree (touch : Nat → CacheM Unit) (b : Nat) : CacheM Bool := do
  if ¬ (← get).superSet then
    return false
  let nblocks ← loadWord touch sNblocks
  if nblocks.toNat ≤ b then
    return false
  let word ← loadWord touch (bitmapWord b)
  return word.getLsbD (b % 32)

/-- A page is allocated, filled from the disk, and mapped again to clear `PTE_D`. -/
def readBlock (b : Nat) : CacheM Unit := do
  sysPageAlloc b
  ideRead b
  clearDirty b

def bcPgfault (touch : Nat → CacheM Unit) (addr : Nat) : CacheM Unit := do
  if addr < diskmap ∨ diskmap + disksize ≤ addr then
    throw .faultOutside
  if (← get).superSet then
    let nblocks ← loadWord touch sNblocks
    if nblocks.toNat ≤ blockOf addr then
      throw .nonexistentBlock
  readBlock (blockOf addr)
  if (← get).bitmapSet then
    if ← blockFree touch (blockOf addr) then
      throw .freeBlock

/-- An access to `addr`. The handler's own accesses may fault again, until the
exception stack is full after `depth` levels. -/
def touch : Nat → Nat → CacheM Unit
  | 0, addr => do
    if ¬ (← get).mapped (blockOf addr) then
      throw .stackOverflow
  | depth + 1, addr => do
    if ¬ (← get).mapped (blockOf addr) then
      bcPgfault (touch depth) addr

def load (depth addr : Nat) : CacheM (BitVec 8) := do
  touch depth addr
  return (← get).page addr

def store (depth addr : Nat) (v : BitVec 8) : CacheM Unit := do
  touch depth addr
  modify fun c => { c with
    page := update c.page addr v
    dirty := update c.dirty (blockOf addr) true }

/-! ## `flush_block`, `fs_sync` -/

def flushBlock (addr : Nat) : CacheM Unit := do
  if addr < diskmap ∨ diskmap + disksize ≤ addr then
    throw .flushBadVa
  let c ← get
  if c.mapped (blockOf addr) ∧ c.dirty (blockOf addr) then
    ideWrite (blockOf addr)
    clearDirty (blockOf addr)

def diskaddr (depth b : Nat) : CacheM Nat := do
  if b = 0 then
    throw .badBlock
  if (← get).superSet then
    let nblocks ← loadWord (touch depth) sNblocks
    if nblocks.toNat ≤ b then
      throw .badBlock
  return diskmap + b * blksize

/-- The loop of `fs_sync` from block `i`; it reads `s_nblocks` in every round. -/
def syncFrom (depth : Nat) : Nat → Nat → CacheM Unit
  | 0, _ => return
  | k + 1, i => do
    let nblocks ← loadWord (touch depth) sNblocks
    if i < nblocks.toNat then
      flushBlock (← diskaddr depth i)
      syncFrom depth k (i + 1)

def fsSync (depth : Nat) : CacheM Unit := do
  let nblocks ← loadWord (touch depth) sNblocks
  syncFrom depth nblocks.toNat 1

def unmap (c : Cache) (b : Nat) : Cache := { c with mapped := update c.mapped b false }

/-! ## Sequences of operations -/

inductive Op where
  | load (addr : Nat)
  | store (addr : Nat) (v : BitVec 8)
  | fault (addr : Nat)
  | flush (addr : Nat)
  | sync
  | unmap (b : Nat)
  | setSuper
  | setBitmap

inductive Step (depth : Nat) : Cache → Op → Cache → Prop
  | load : exec (load depth addr) c = (.ok v, c') → Step depth c (.load addr) c'
  | store : exec (store depth addr v) c = (.ok (), c') → Step depth c (.store addr v) c'
  | fault : c.mapped (blockOf addr) = false → exec (bcPgfault (touch depth) addr) c = (r, c') →
      Step depth c (.fault addr) c'
  | flush : exec (flushBlock addr) c = (.ok (), c') → Step depth c (.flush addr) c'
  | sync : exec (fsSync depth) c = (.ok (), c') → Step depth c .sync c'
  | unmap : c.dirty b = false → Step depth c (.unmap b) (c.unmap b)
  | setSuper : Step depth c .setSuper { c with superSet := true }
  | setBitmap : Step depth c .setBitmap { c with bitmapSet := true }

/-- What the operation does to the content of the blocks. -/
def Op.apply (m : Mem) : Op → Mem
  | .store addr v => update m addr v
  | _ => m

inductive Runs (depth : Nat) : Cache → List Op → Cache → Prop
  | nil : Runs depth c [] c
  | snoc : Runs depth c ops c' → Step depth c' op c'' → Runs depth c (ops ++ [op]) c''

/-! ## Clean pages equal the disk -/

def Clean (c : Cache) : Prop :=
  ∀ x, c.mapped (blockOf x) = true → c.dirty (blockOf x) = false → c.page x = c.disk x

/-- What faults do: the contents stay, no page gets dirty and none is unmapped. -/
structure Faulted (c c' : Cache) : Prop where
  clean : c'.Clean
  logical : c'.logical = c.logical
  dirty : ∀ b, c'.mapped b = true → c'.dirty b = true → c.mapped b = true ∧ c.dirty b = true
  mapped : ∀ b, c.mapped b = true → c'.mapped b = true
  disk : c'.disk = c.disk

namespace Faulted

theorem refl (h : Clean c) : Faulted c c := ⟨h, rfl, fun _ hm hd => ⟨hm, hd⟩, fun _ h => h, rfl⟩

theorem trans (h : Faulted c c') (h' : Faulted c' c'') : Faulted c c'' where
  clean := h'.clean
  logical := h'.logical.trans h.logical
  dirty b hm hd := by
    obtain ⟨hm, hd⟩ := h'.dirty b hm hd
    exact h.dirty b hm hd
  mapped b hb := h'.mapped b (h.mapped b hb)
  disk := h'.disk.trans h.disk

end Faulted

/-- An access makes its block's page be there, by faults only. -/
def Touches (touch : Nat → CacheM Unit) : Prop :=
  ∀ addr c, Clean c →
    Triple (touch addr) c (fun _ c' => Faulted c c' ∧ c'.mapped (blockOf addr) = true) fun _ c' => Faulted c c'

def readIn (c : Cache) (b : Nat) : Cache :=
  { c with
    page := fun x => if blockOf x = b then c.disk x else c.page x
    mapped := update c.mapped b true
    dirty := update c.dirty b false }

theorem exec_readBlock (b : Nat) (c : Cache) : exec (readBlock b) c = (.ok (), c.readIn b) := by
  have hpage : (fun x => if blockOf x = b then c.disk x else if blockOf x = b then 0 else c.page x) =
      fun x => if blockOf x = b then c.disk x else c.page x := by
    funext x
    split <;> rfl
  simp only [readBlock, exec_bind, sysPageAlloc, ideRead, clearDirty, exec_modify, hpage, update_idem]
  rfl

theorem Clean.readIn {c : Cache} (h : Clean c) (hb : c.mapped b = true → c.dirty b = false) :
    Faulted c (c.readIn b) := by
  refine ⟨?_, ?_, ?_, ?_, rfl⟩
  · intro x hm hd
    by_cases hx : blockOf x = b
    · simp [Cache.readIn, hx]
    · simp only [Cache.readIn, update_of_ne hx, if_neg hx] at hm hd ⊢
      exact h x hm hd
  · funext x
    by_cases hx : blockOf x = b
    · subst hx
      simp only [Cache.logical, Cache.readIn, update_self, if_true]
      split
      · exact (h x ‹_› (hb ‹_›)).symm
      · rfl
    · simp [Cache.logical, Cache.readIn, hx]
  · intro k hm hd
    by_cases hk : k = b
    · simp [Cache.readIn, hk] at hd
    · simp only [Cache.readIn, update_of_ne hk] at hm hd
      exact ⟨hm, hd⟩
  · intro k hk
    by_cases hkb : k = b
    · simp [Cache.readIn, hkb]
    · simp [Cache.readIn, hkb, hk]

def WordIn (addr : Nat) : Prop := ∀ x, addr ≤ x → x < addr + 4 → blockOf x = blockOf addr

section
variable {touch : Nat → CacheM Unit} {c : Cache}

theorem loadWord_ok (ht : Touches touch) (hc : Clean c) (ha : WordIn addr) :
    Triple (loadWord touch addr) c (fun w c' => Faulted c c' ∧ w = c.logical.read32 addr)
      fun _ c' => Faulted c c' := by
  refine .bind (ht addr c hc) ?_
  rintro _ c' ⟨hf, hm⟩
  refine .get_bind ?_
  refine .pure ⟨hf, ?_⟩
  rw [← hf.logical]
  refine Mem.read32_congr fun x hx hx' => ?_
  simp [Cache.logical, ha x hx hx', hm]

theorem wordIn_nblocks : WordIn sNblocks := by
  intro x hx hx'
  simp only [blockOf, sNblocks, superAddr, diskmap, blksize] at *
  omega

theorem wordIn_bitmap (b : Nat) : WordIn (bitmapWord b) := by
  intro x hx hx'
  simp only [blockOf, bitmapWord, bitmapAddr, diskmap, blksize] at *
  omega

theorem blockFree_ok (ht : Touches touch) (hc : Clean c) (b : Nat) :
    Triple (blockFree touch b) c (fun _ c' => Faulted c c') fun _ c' => Faulted c c' := by
  unfold blockFree
  refine .bind (.get (Q := fun _ u => c = u) rfl) ?_
  rintro _ _ rfl
  refine .ite (fun _ => .pure (.refl hc)) fun _ => ?_
  refine .bind (loadWord_ok ht hc wordIn_nblocks) ?_
  rintro n c' ⟨hf, -⟩
  refine .ite (fun _ => .pure hf) fun _ => ?_
  refine .bind ((loadWord_ok ht hf.clean (wordIn_bitmap b)).mono (fun _ _ h => hf.trans h.1) fun _ _ h => hf.trans h) ?_
  exact fun _ _ h => .pure h

theorem bcPgfault_ok (ht : Touches touch) (hc : Clean c) (hm : c.mapped (blockOf addr) = false) :
    Triple (bcPgfault touch addr) c (fun _ c' => Faulted c c' ∧ c'.mapped (blockOf addr) = true)
      fun _ c' => Faulted c c' := by
  -- What follows once the block number is known to be good.
  have hread : ∀ c', Faulted c c' → Triple (do
      readBlock (blockOf addr)
      if (← get).bitmapSet then
        if ← blockFree touch (blockOf addr) then
          throw .freeBlock) c' (fun _ c'' => Faulted c c'' ∧ c''.mapped (blockOf addr) = true)
      fun _ c'' => Faulted c c'' := by
    intro c' hf
    have hclean : c'.mapped (blockOf addr) = true → c'.dirty (blockOf addr) = false := by
      intro hm'
      by_contra hd
      have hd' := (hf.dirty _ hm' (by simpa using hd)).1
      rw [hm] at hd'
      simp at hd'
    have hin := hf.trans (hf.clean.readIn hclean)
    have hthere : (c'.readIn (blockOf addr)).mapped (blockOf addr) = true := by simp [Cache.readIn]
    refine .ok_bind (exec_readBlock ..) ?_
    refine .bind (.get (Q := fun _ u => c'.readIn (blockOf addr) = u) rfl) ?_
    rintro _ _ rfl
    refine .ite (fun _ => ?_) fun _ => .pure ⟨hin, hthere⟩
    refine .bind ((blockFree_ok ht hin.clean _).imp_error fun _ _ h => hin.trans h) ?_
    intro _ u h
    have hu := hin.trans h
    have hmu := h.mapped _ hthere
    exact .ite (fun _ => .throw hu) fun _ => .pure ⟨hu, hmu⟩
  unfold bcPgfault
  refine .guard (fun _ => .refl hc) fun _ => ?_
  refine .bind (.get (Q := fun _ u => c = u) rfl) ?_
  rintro _ _ rfl
  refine .ite (fun _ => ?_) fun _ => hread _ (.refl hc)
  refine .bind (loadWord_ok ht hc wordIn_nblocks) ?_
  rintro n c' ⟨hf, -⟩
  exact .guard (fun _ => hf) fun _ => hread _ hf

end

theorem touch_ok (depth : Nat) : Touches (touch depth) := by
  induction depth with
  | zero =>
    intro addr c hc
    unfold touch
    refine .get_bind ?_
    refine .ite (fun _ => .throw (.refl hc)) fun hm => .pure ⟨.refl hc, by simpa using hm⟩
  | succ depth ih =>
    intro addr c hc
    unfold touch
    refine .get_bind ?_
    refine .ite (fun hm => bcPgfault_ok ih hc (by simpa using hm)) fun hm => .pure ⟨.refl hc, by simpa using hm⟩

/-! ## Each operation -/

section
variable {c : Cache} {depth : Nat}

theorem load_ok (hc : Clean c) :
    Triple (load depth addr) c (fun v c' => Faulted c c' ∧ v = c.logical addr) fun _ c' => Faulted c c' := by
  refine .bind (touch_ok depth addr c hc) ?_
  rintro _ c' ⟨hf, hm⟩
  refine .get_bind ?_
  refine .pure ⟨hf, ?_⟩
  rw [← hf.logical]
  simp [Cache.logical, hm]

theorem store_ok (hc : Clean c) :
    Triple (store depth addr v) c (fun _ c' => Clean c' ∧ c'.logical = update c.logical addr v)
      fun _ c' => Faulted c c' := by
  refine .bind (touch_ok depth addr c hc) ?_
  rintro _ c' ⟨hf, hm⟩
  refine .modify ⟨?_, ?_⟩
  · intro x hx hd
    by_cases hb : blockOf x = blockOf addr
    · simp [hb] at hd
    · have hne : x ≠ addr := fun h => hb (h ▸ rfl)
      simp only [update_of_ne hb, update_of_ne hne] at hd ⊢
      exact hf.clean x hx hd
  · rw [← hf.logical]
    funext x
    by_cases hne : x = addr
    · subst hne
      simp [Cache.logical, hm]
    · simp [Cache.logical, hne]

/-- What a flush does: one block more is on disk as it is. -/
structure Flushed (c : Cache) (b : Nat) (c' : Cache) : Prop where
  clean : Clean c'
  logical : c'.logical = c.logical
  written : ∀ x, blockOf x = b → c'.disk x = c.logical x
  others : ∀ x, blockOf x ≠ b → c'.disk x = c.disk x

theorem flushBlock_ok (hc : Clean c) :
    Triple (flushBlock addr) c (fun _ c' => Flushed c (blockOf addr) c') fun _ c' => c' = c := by
  unfold flushBlock
  refine .guard (fun _ => rfl) fun _ => ?_
  refine .get_bind ?_
  refine .ite (fun hd => ?_) fun hd => .pure ⟨hc, rfl, ?_, fun _ _ => rfl⟩
  · refine .modify_bind ?_
    have hlogical : ∀ x, blockOf x = blockOf addr → c.logical x = c.page x := by
      intro x hx
      simp [Cache.logical, hx, hd.1]
    refine .modify ⟨?_, ?_, ?_, ?_⟩
    · intro x hm hx
      by_cases hb : blockOf x = blockOf addr
      · simp [hb]
      · simp only [update_of_ne hb, if_neg hb] at hx ⊢
        exact hc x hm hx
    · funext x
      by_cases hb : blockOf x = blockOf addr
      · simp [Cache.logical, hb, hd.1]
      · simp [Cache.logical, hb]
    · intro x hb
      simp [hb, hlogical x hb]
    · intro x hb
      simp [hb]
  · intro x hb
    rw [← hb] at hd
    by_cases hm : c.mapped (blockOf x) = true
    · have hclean : c.dirty (blockOf x) = false := by simpa [hm] using hd
      simp [Cache.logical, hm, hc x hm hclean]
    · simp [Cache.logical, hm]

/-- The blocks from 1 up to `n` are on disk as they are. -/
def OnDisk (c : Cache) (n : Nat) : Prop := ∀ x, 1 ≤ blockOf x → blockOf x < n → c.disk x = c.logical x

theorem Flushed.onDisk {c' : Cache} (h : Flushed c b c') (ho : OnDisk c b) : OnDisk c' (b + 1) := by
  intro x hx hx'
  rw [h.logical]
  by_cases hb : blockOf x = b
  · exact h.written x hb
  · rw [h.others x hb]
    exact ho x hx (by omega)

theorem Faulted.onDisk {c' : Cache} (h : Faulted c c') (ho : OnDisk c n) : OnDisk c' n := by
  intro x hx hx'
  rw [h.disk, h.logical]
  exact ho x hx hx'

theorem diskaddr_ok (hc : Clean c) :
    Triple (diskaddr depth b) c (fun a c' => Faulted c c' ∧ a = diskmap + b * blksize)
      fun _ c' => Faulted c c' := by
  unfold diskaddr
  refine .guard (fun _ => .refl hc) fun _ => ?_
  refine .bind (.get (Q := fun _ u => c = u) rfl) ?_
  rintro _ _ rfl
  refine .ite (fun _ => ?_) fun _ => .pure ⟨.refl hc, rfl⟩
  refine .bind (loadWord_ok (touch_ok depth) hc wordIn_nblocks) ?_
  rintro n c' ⟨hf, -⟩
  exact .guard (fun _ => hf) fun _ => .pure ⟨hf, rfl⟩

theorem blockOf_blockAddr (b : Nat) : blockOf (diskmap + b * blksize) = b := by
  simp only [blockOf, blksize]
  omega

/-- The loop has written the blocks below `i`, and has `k` rounds left for the others. -/
theorem syncFrom_ok (hc : Clean c) (ho : OnDisk c i)
    (hk : (c.logical.read32 sNblocks).toNat ≤ i + k) :
    Triple (syncFrom depth k i) c
      (fun _ c' => Clean c' ∧ c'.logical = c.logical ∧ OnDisk c' (c.logical.read32 sNblocks).toNat)
      fun _ c' => Clean c' ∧ c'.logical = c.logical := by
  have hdone : ∀ {c' : Cache}, OnDisk c' i → (c.logical.read32 sNblocks).toNat ≤ i →
      OnDisk c' (c.logical.read32 sNblocks).toNat :=
    fun ho' hle x hx hx' => ho' x hx (Nat.lt_of_lt_of_le hx' hle)
  induction k generalizing i c with
  | zero => exact .pure ⟨hc, rfl, hdone ho hk⟩
  | succ k ih =>
    unfold syncFrom
    refine .bind ((loadWord_ok (touch_ok depth) hc wordIn_nblocks).imp_error fun _ _ h => ⟨h.clean, h.logical⟩) ?_
    rintro n c₁ ⟨hf₁, rfl⟩
    refine .ite (fun hlt => ?_) fun hge => .pure ⟨hf₁.clean, hf₁.logical, hdone (hf₁.onDisk ho) (by omega)⟩
    refine .bind ((diskaddr_ok hf₁.clean).imp_error fun _ _ h => ⟨h.clean, h.logical.trans hf₁.logical⟩) ?_
    rintro a c₂ ⟨hf₂, rfl⟩
    have hf := hf₁.trans hf₂
    refine .bind ((flushBlock_ok hf.clean).imp_error ?_) ?_
    · rintro _ _ rfl
      exact ⟨hf.clean, hf.logical⟩
    rintro _ c₃ hfl
    rw [blockOf_blockAddr] at hfl
    have hlog := hfl.logical.trans hf.logical
    have hrest := ih hfl.clean (hfl.onDisk (hf.onDisk ho)) (by rw [hlog]; omega)
      (fun ho' hle x hx hx' => ho' x hx (Nat.lt_of_lt_of_le hx' hle))
    rw [hlog] at hrest
    exact hrest

theorem fsSync_ok (hc : Clean c) :
    Triple (fsSync depth) c
      (fun _ c' => Clean c' ∧ c'.logical = c.logical ∧ OnDisk c' (c.logical.read32 sNblocks).toNat)
      fun _ c' => Clean c' ∧ c'.logical = c.logical := by
  refine .bind ((loadWord_ok (touch_ok depth) hc wordIn_nblocks).imp_error fun _ _ h => ⟨h.clean, h.logical⟩) ?_
  rintro n c' ⟨hf, rfl⟩
  have hnone : OnDisk c' 1 := fun x hx hx' => absurd hx' (by omega)
  rw [← hf.logical]
  exact syncFrom_ok hf.clean hnone (by omega)

theorem Clean.unmap (hc : Clean c) (hd : c.dirty b = false) :
    Clean (c.unmap b) ∧ (c.unmap b).logical = c.logical := by
  constructor
  · intro x hm hx
    by_cases hb : blockOf x = b
    · simp [Cache.unmap, hb] at hm
    · simp only [Cache.unmap, update_of_ne hb] at hm hx ⊢
      exact hc x hm hx
  · funext x
    by_cases hb : blockOf x = b
    · subst hb
      simp only [Cache.logical, Cache.unmap, update_self]
      by_cases hm : c.mapped (blockOf x) = true
      · simp [hm, hc x hm hd]
      · simp [hm]
    · simp [Cache.logical, Cache.unmap, hb]

end

theorem Step.clean (hc : Clean c) (h : Step depth c op c') :
    Clean c' ∧ c'.logical = op.apply c.logical := by
  cases h with
  | load h =>
    obtain ⟨hf, -⟩ := (load_ok hc).ok h
    exact ⟨hf.clean, hf.logical⟩
  | store h => exact (store_ok hc).ok h
  | @fault _ addr r _ hm h =>
    have hf : Faulted c c' := by
      have ht := bcPgfault_ok (touch_ok depth) hc hm
      cases r with
      | ok => exact (ht.ok h).1
      | error => exact ht.error h
    exact ⟨hf.clean, hf.logical⟩
  | flush h =>
    have hf := (flushBlock_ok hc).ok h
    exact ⟨hf.clean, hf.logical⟩
  | sync h =>
    obtain ⟨hclean, hlog, -⟩ := (fsSync_ok hc).ok h
    exact ⟨hclean, hlog⟩
  | unmap hd => exact hc.unmap hd
  | setSuper | setBitmap => exact ⟨hc, rfl⟩

theorem Runs.clean (hc : Clean c) (h : Runs depth c ops c') :
    Clean c' ∧ c'.logical = ops.foldl Op.apply c.logical := by
  induction h with
  | nil => exact ⟨hc, rfl⟩
  | snoc _ hstep ih =>
    obtain ⟨hclean, hlog⟩ := hstep.clean ih.1
    exact ⟨hclean, by rw [List.foldl_append, hlog, ih.2]; rfl⟩

/-! ## Coherence -/

/-- The cache before its first access; `fs_init` has not set its pointers yet. -/
def start (disk : Mem) : Cache := ⟨disk, fun _ => 0, fun _ => false, fun _ => false, false, false⟩

end Cache

end Jos.Fs
