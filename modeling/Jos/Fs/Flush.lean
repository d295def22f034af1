import Jos.Fs.Cache
import Jos.Fs.Files

/-!
# Flushing a file (`fs/fs.c`, `fs/bc.c`)

`file_flush` over the block cache, with the faults its own accesses cause. In a
running server a block in use is read in with at most three faults inside each
other: for the block, for its bitmap block, and for the first bitmap block.
Nothing the server sees is changed, and all of the file is on disk.
-/

namespace Jos.Fs.Cache

open Lib

/-! ## `file_flush` -/

/-- `file_block_walk` where nothing is allocated. -/
def fileBlockWalk (depth f filebno : Nat) : CacheM (Except Int Nat) := do
  if ndirect + nindirect ≤ filebno then
    return .error (-eInval)
  if filebno < ndirect then
    return .ok (fDirect f filebno)
  if (← loadWord (touch depth) (fIndirect f)) ≠ 0 then
    let table ← diskaddr depth (← loadWord (touch depth) (fIndirect f)).toNat
    return .ok (table + 4 * (filebno - ndirect))
  else
    return .error (-eNotFound)

def flushFileBlock (depth f i : Nat) : CacheM Unit := do
  match ← fileBlockWalk depth f i with
  | .error _ => return
  | .ok slot =>
    if (← loadWord (touch depth) slot) ≠ 0 then
      flushBlock (← diskaddr depth (← loadWord (touch depth) slot).toNat)

def flushFrom (depth f : Nat) : Nat → Nat → CacheM Unit
  | 0, _ => return
  | k + 1, i => do
    let size ← loadWord (touch depth) (fSize f)
    if i < (nblocksOf size).toInt then
      flushFileBlock depth f i
      flushFrom depth f k (i + 1)

def fileFlush (depth f : Nat) : CacheM Unit := do
  let size ← loadWord (touch depth) (fSize f)
  flushFrom depth f (nblocksOf size).toInt.toNat 0
  flushBlock f
  if (← loadWord (touch depth) (fIndirect f)) ≠ 0 then
    flushBlock (← diskaddr depth (← loadWord (touch depth) (fIndirect f)).toNat)

/-! ## Reading in a block in use -/

/-- The server has started. -/
structure Ready (c : Cache) : Prop where
  clean : Clean c
  superSet : c.superSet = true
  bitmapSet : c.bitmapSet = true
  super : c.mapped 1 = true

def InUse (m : Mem) (b : Nat) : Prop := b < (m.read32 sNblocks).toNat ∧ blockIsFree m b = false

/-- The disk fits into its window, and the bitmap is in use. -/
structure DiskFits (m : Mem) : Prop where
  fits : (m.read32 sNblocks).toNat * blksize ≤ disksize
  bitmap : ∀ i, i * blkbitsize < (m.read32 sNblocks).toNat → InUse m (2 + i)

theorem InUse.below {m : Mem} (h : InUse m (blockOf addr)) (hs : DiskFits m) : addr < diskmap + disksize := by
  have hlt := h.1
  have hfits := hs.fits
  unfold blockOf blksize at *
  omega

/-- Block `b` has been read in, and others with it. -/
structure Fetched (c : Cache) (b : Nat) (c' : Cache) : Prop where
  faulted : Faulted c c'
  ready : Ready c'
  there : c'.mapped b = true

section

variable {c : Cache} {E : CachePanic → Cache → Prop}

theorem Ready.readIn (hr : Ready c) (hf : Faulted c (c.readIn b)) : Ready (c.readIn b) :=
  ⟨hf.clean, by simp [Cache.readIn, hr.superSet], by simp [Cache.readIn, hr.bitmapSet], hf.mapped 1 hr.super⟩

theorem exec_touch_mapped (depth : Nat) (hm : c.mapped (blockOf addr) = true) :
    exec (touch depth addr) c = (.ok (), c) := by
  cases depth <;> simp [touch, exec_bind, hm]

theorem touch_mapped (hr : Ready c) (depth : Nat) (hm : c.mapped (blockOf addr) = true) :
    Triple (touch depth addr) c (fun _ c' => Fetched c (blockOf addr) c') E :=
  .of_ok (exec_touch_mapped depth hm) ⟨.refl hr.clean, hr, hm⟩

theorem loadWord_fetched {touch : Nat → CacheM Unit}
    (ht : Triple (touch addr) c (fun _ c' => Fetched c (blockOf addr) c') E) (ha : WordIn addr) :
    Triple (loadWord touch addr) c (fun w c' => Fetched c (blockOf addr) c' ∧ w = c.logical.read32 addr) E := by
  refine .bind ht ?_
  rintro _ c' hf
  refine .get_bind ?_
  refine .pure ⟨hf, ?_⟩
  rw [← hf.faulted.logical]
  refine Mem.read32_congr fun x hx hx' => ?_
  simp [Cache.logical, ha x hx hx', hf.there]

theorem blockOf_nblocks : blockOf sNblocks = 1 := by
  unfold blockOf sNblocks superAddr blksize
  omega

theorem loadNblocks_ready (hr : Ready c) (depth : Nat) :
    Triple (loadWord (touch depth) sNblocks) c
      (fun w c' => Fetched c (blockOf sNblocks) c' ∧ w = c.logical.read32 sNblocks) E := by
  have hm : c.mapped (blockOf sNblocks) = true := by
    rw [blockOf_nblocks]
    exact hr.super
  exact loadWord_fetched (touch_mapped hr depth hm) wordIn_nblocks

/-- The handler returns if the bitmap's word for the block can be read. -/
theorem bcPgfault_fetched (hr : Ready c) (hb : InUse c.logical (blockOf addr)) (hlow : diskmap ≤ addr)
    (hhigh : addr < diskmap + disksize) (hm : c.mapped (blockOf addr) = false)
    (hbit : ∀ c', Ready c' → c'.logical = c.logical → c'.mapped (blockOf addr) = true →
      Triple (touch depth (bitmapWord (blockOf addr))) c'
        (fun _ c'' => Fetched c' (blockOf (bitmapWord (blockOf addr))) c'') E) :
    Triple (bcPgfault (touch depth) addr) c (fun _ c' => Fetched c (blockOf addr) c') E := by
  unfold bcPgfault
  refine .guard (fun hbad => by omega) fun _ => ?_
  refine .get_bind ?_
  rw [if_pos hr.superSet]
  refine .bind (loadNblocks_ready hr depth) ?_
  rintro _ c₁ ⟨hf₁, rfl⟩
  refine .guard (fun hbad => absurd hb.1 (Nat.not_lt.2 hbad)) fun _ => ?_
  have hclean : c₁.mapped (blockOf addr) = true → c₁.dirty (blockOf addr) = false := by
    intro hm'
    cases hd : c₁.dirty (blockOf addr) with
    | false => rfl
    | true => exact absurd ((hf₁.faulted.dirty _ hm' hd).1) (by simp [hm])
  have hin := hf₁.faulted.clean.readIn hclean
  have hthere : (c₁.readIn (blockOf addr)).mapped (blockOf addr) = true := by simp [Cache.readIn]
  have hr₂ := hf₁.ready.readIn hin
  have hf₂ := hf₁.faulted.trans hin
  refine .ok_bind (exec_readBlock ..) ?_
  generalize c₁.readIn (blockOf addr) = c₂ at *
  refine .get_bind ?_
  rw [if_pos hr₂.bitmapSet]
  have hfree : Triple (blockFree (touch depth) (blockOf addr)) c₂
      (fun free c' => free = false ∧ Fetched c (blockOf addr) c') E := by
    unfold blockFree
    refine .get_bind ?_
    rw [if_neg (not_not_intro hr₂.superSet)]
    refine .bind (loadNblocks_ready hr₂ depth) ?_
    rintro _ c₃ ⟨hf₃, rfl⟩
    have hlog := hf₃.faulted.logical.trans hf₂.logical
    refine .ite (fun _ => .pure ⟨rfl, hf₂.trans hf₃.faulted, hf₃.ready, hf₃.faulted.mapped _ hthere⟩) fun hlt => ?_
    have hmap₃ := hf₃.faulted.mapped _ hthere
    refine .bind (loadWord_fetched (hbit c₃ hf₃.ready hlog hmap₃) (wordIn_bitmap _)) ?_
    rintro _ c₄ ⟨hf₄, rfl⟩
    refine .pure ⟨?_, hf₂.trans (hf₃.faulted.trans hf₄.faulted), hf₄.ready, hf₄.faulted.mapped _ hmap₃⟩
    have hnot := hb.2
    unfold blockIsFree at hnot
    rw [hlog]
    simpa [hb.1] using hnot
  refine .bind hfree ?_
  rintro _ c' ⟨rfl, hf⟩
  exact .pure hf

theorem touch_succ (hr : Ready c) (hs : DiskFits c.logical) (hb : InUse c.logical (blockOf addr)) (hlow : diskmap ≤ addr)
    (hbit : ∀ c', Ready c' → c'.logical = c.logical → c'.mapped (blockOf addr) = true →
      Triple (touch depth (bitmapWord (blockOf addr))) c'
        (fun _ c'' => Fetched c' (blockOf (bitmapWord (blockOf addr))) c'') E) :
    Triple (touch (depth + 1) addr) c (fun _ c' => Fetched c (blockOf addr) c') E := by
  unfold touch
  refine .get_bind ?_
  refine .ite (fun hm => bcPgfault_fetched hr hb hlow (hb.below hs) (by simpa using hm) hbit) fun hm => ?_
  exact .pure ⟨.refl hr.clean, hr, by simpa using hm⟩

theorem blockOf_bitmapWord (b : Nat) : blockOf (bitmapWord b) = 2 + b / blkbitsize := by
  unfold blockOf bitmapWord bitmapAddr blkbitsize blksize
  omega

theorem diskmap_le_bitmapWord (b : Nat) : diskmap ≤ bitmapWord b := by
  unfold bitmapWord bitmapAddr
  omega

theorem touch_bitmap (hr : Ready c) (hs : DiskFits c.logical) (hi : i * blkbitsize < (c.logical.read32 sNblocks).toNat)
    (haddr : blockOf addr = 2 + i) (hlow : diskmap ≤ addr) (depth : Nat) :
    Triple (touch (depth + 2) addr) c (fun _ c' => Fetched c (blockOf addr) c') E := by
  have hfits := hs.fits
  have hfirst : (2 + i) / blkbitsize = 0 := by
    unfold blkbitsize blksize disksize at *
    omega
  refine touch_succ hr hs (haddr ▸ hs.bitmap i hi) hlow fun c' hr' hlog hm => ?_
  have hword : blockOf (bitmapWord (blockOf addr)) = 2 := by
    rw [haddr, blockOf_bitmapWord, hfirst]
  -- The first block of the bitmap holds its own bit.
  refine touch_succ hr' (hlog ▸ hs) ?_ (diskmap_le_bitmapWord _) fun c'' hr'' _ hm' => ?_
  · rw [hword, hlog]
    exact hs.bitmap 0 (by omega)
  · refine touch_mapped hr'' depth ?_
    rw [hword] at hm' ⊢
    rwa [blockOf_bitmapWord]

theorem touch_inUse (hr : Ready c) (hs : DiskFits c.logical) (hb : InUse c.logical (blockOf addr))
    (hlow : diskmap ≤ addr) (depth : Nat) :
    Triple (touch (depth + 3) addr) c (fun _ c' => Fetched c (blockOf addr) c') E := by
  refine touch_succ hr hs hb hlow fun c' hr' hlog _ => ?_
  refine touch_bitmap hr' (hlog ▸ hs) ?_ (blockOf_bitmapWord _) (diskmap_le_bitmapWord _) depth
  rw [hlog]
  exact Nat.lt_of_le_of_lt (Nat.div_mul_le_self ..) hb.1

theorem diskaddr_ready (hr : Ready c) (h0 : b ≠ 0) (hb : b < (c.logical.read32 sNblocks).toNat) (depth : Nat) :
    Triple (diskaddr depth b) c (fun a c' => Fetched c 1 c' ∧ a = diskmap + b * blksize) E := by
  unfold diskaddr
  refine .guard (fun hz => absurd hz h0) fun _ => ?_
  refine .get_bind ?_
  rw [if_pos hr.superSet]
  refine .bind (loadNblocks_ready hr depth) ?_
  rintro _ c' ⟨hf, rfl⟩
  rw [blockOf_nblocks] at hf
  exact .guard (fun hle => absurd hb (Nat.not_lt.2 hle)) fun _ => .pure ⟨hf, rfl⟩

end

/-! ## The blocks of the file -/

/-- The file's record is in a block in use, and so are its blocks. -/
structure FileOk (m : Mem) (f : Nat) : Prop where
  above : diskmap ≤ f
  inBlock : (f - diskmap) % blksize + sizeofFile ≤ blksize
  home : InUse m (blockOf f)
  size : (m.read32 (fSize f)).toNat ≤ maxfilesize
  table : PointerOk m (m.read32 (fIndirect f))
  blocks : ∀ n < blocksFor (m.read32 (fSize f)).toNat, PointerOk m (pointer m f n)

def DataBlock (m : Mem) (f n b : Nat) : Prop := ∃ k < n, pointer m f k ≠ 0 ∧ (pointer m f k).toNat = b

def TableBlock (m : Mem) (f b : Nat) : Prop := m.read32 (fIndirect f) ≠ 0 ∧ (m.read32 (fIndirect f)).toNat = b

/-- The blocks that make up the file. -/
def FileBlock (m : Mem) (f b : Nat) : Prop :=
  b = blockOf f ∨ TableBlock m f b ∨ DataBlock m f (blocksFor (m.read32 (fSize f)).toNat) b

/-- Nothing the server sees is changed, and the blocks `P` are on disk. -/
structure Saved (c : Cache) (P : Nat → Prop) (c' : Cache) : Prop where
  ready : Ready c'
  logical : c'.logical = c.logical
  disk : ∀ x, P (blockOf x) → c'.disk x = c.logical x

section

variable {m : Mem}

theorem FileOk.blockOf_field (h : FileOk m f) (hk : k < sizeofFile) : blockOf (f + k) = blockOf f := by
  have habove := h.above
  have hin := h.inBlock
  unfold blockOf sizeofFile blksize at *
  omega

theorem FileOk.wordIn_field (h : FileOk m f) (hk : k + 4 ≤ sizeofFile) : WordIn (f + k) := by
  intro x hx hx'
  obtain ⟨j, rfl⟩ := Nat.exists_eq_add_of_le (Nat.le_trans (Nat.le_add_right f k) hx)
  rw [h.blockOf_field (by omega), h.blockOf_field (by omega)]

theorem FileOk.blocks_le (h : FileOk m f) : blocksFor (m.read32 (fSize f)).toNat ≤ ndirect + nindirect := by
  have hsize := h.size
  unfold maxfilesize at hsize
  unfold blocksFor blksize at *
  omega

theorem inUse_of_pointerOk (h : PointerOk m p) (h0 : p ≠ 0) : InUse m p.toNat :=
  ⟨(h.resolve_left h0).1, (h.resolve_left h0).2⟩

theorem toInt_nblocksOf {size : Word} (h : size.toNat ≤ maxfilesize) :
    (nblocksOf size).toInt = blocksFor size.toNat := by
  have hnat := toNat_nblocksOf h
  have hlt : 2 * (nblocksOf size).toNat < 2 ^ 32 := by
    rw [hnat]
    unfold blocksFor blksize
    unfold maxfilesize ndirect nindirect blksize at h
    omega
  rw [BitVec.toInt_eq_toNat_of_lt hlt, hnat]

theorem toNat_ne_zero {p : Word} (h : p ≠ 0) : p.toNat ≠ 0 := fun h0 => h (BitVec.eq_of_toNat_eq h0)

theorem blockOf_inside (hk : k < blksize) : blockOf (diskmap + b * blksize + k) = b := by
  unfold blockOf blksize at *
  omega

theorem blockAddr_inUse (hs : DiskFits m) {p : Word} (h : InUse m p.toNat) : blockAddr p = diskmap + p.toNat * blksize := by
  rw [blockAddr_eq hs.fits h.1]
  unfold blockIx diskmap blksize
  omega

end

section

variable {c c' c'' : Cache} {P : Nat → Prop} {E : CachePanic → Cache → Prop}

theorem Saved.fetched (h : Saved c P c') (hf : Fetched c' b c'') : Saved c P c'' where
  ready := hf.ready
  logical := hf.faulted.logical.trans h.logical
  disk x hx := by
    rw [hf.faulted.disk]
    exact h.disk x hx

theorem flushBlock_tables (hlow : diskmap ≤ addr) (hhigh : addr < diskmap + disksize) :
    Triple (flushBlock addr) c (fun _ c' => c'.superSet = c.superSet ∧ c'.bitmapSet = c.bitmapSet ∧
      c'.mapped = c.mapped) E := by
  unfold flushBlock
  refine .guard (fun hbad => by omega) fun _ => ?_
  refine .get_bind ?_
  refine .ite (fun _ => ?_) fun _ => .pure ⟨rfl, rfl, rfl⟩
  refine .modify_bind ?_
  exact .modify ⟨rfl, rfl, rfl⟩

theorem Saved.flush_addr (h : Saved c P c') (hlow : diskmap ≤ addr) (hhigh : addr < diskmap + disksize) :
    Triple (flushBlock addr) c' (fun _ c'' => Saved c (fun b => P b ∨ b = blockOf addr) c'') E := by
  have hboth := (flushBlock_ok h.ready.clean).and (flushBlock_tables (E := fun _ _ => False) hlow hhigh)
  refine hboth.mono ?_ fun _ _ hE => hE.2.elim
  rintro _ c'' ⟨hf, hsuper, hbitmap, hmapped⟩
  refine ⟨⟨hf.clean, hsuper ▸ h.ready.superSet, hbitmap ▸ h.ready.bitmapSet, hmapped ▸ h.ready.super⟩,
    hf.logical.trans h.logical, fun x hx => ?_⟩
  by_cases hb : blockOf x = blockOf addr
  · rw [hf.written x hb, h.logical]
  · rw [hf.others x hb]
    exact h.disk x (hx.resolve_right hb)

theorem Saved.mono {P' : Nat → Prop} (h : Saved c P c') (hP : ∀ b, P' b → P b) : Saved c P' c' :=
  ⟨h.ready, h.logical, fun x hx => h.disk x (hP _ hx)⟩

theorem Saved.load_inUse (h : Saved c P c') (hs : DiskFits c.logical) (hb : InUse c.logical (blockOf addr))
    (hlow : diskmap ≤ addr) (ha : WordIn addr) (depth : Nat) :
    Triple (loadWord (touch (depth + 3)) addr) c' (fun w c'' => Saved c P c'' ∧ w = c.logical.read32 addr) E := by
  rw [← h.logical] at hs hb
  refine (loadWord_fetched (touch_inUse h.ready hs hb hlow depth) ha).imp ?_
  rintro _ c'' ⟨hf, rfl⟩
  exact ⟨h.fetched hf, by rw [h.logical]⟩

section
variable (h : Saved c P c') (hs : DiskFits c.logical) (hf : FileOk c.logical f)
include h hs hf

theorem Saved.load_field (hk : k + 4 ≤ sizeofFile) (depth : Nat) :
    Triple (loadWord (touch (depth + 3)) (f + k)) c' (fun w c'' => Saved c P c'' ∧ w = c.logical.read32 (f + k)) E := by
  refine h.load_inUse hs ?_ (Nat.le_trans hf.above (Nat.le_add_right ..)) (hf.wordIn_field hk) depth
  rw [hf.blockOf_field (Nat.lt_of_lt_of_le (by omega) hk)]
  exact hf.home

theorem Saved.load_size (depth : Nat) : Triple (loadWord (touch (depth + 3)) (fSize f)) c'
      (fun w c'' => Saved c P c'' ∧ w = c.logical.read32 (fSize f)) E :=
  h.load_field hs hf (k := 128) (by decide) depth

theorem Saved.load_table (depth : Nat) : Triple (loadWord (touch (depth + 3)) (fIndirect f)) c'
      (fun w c'' => Saved c P c'' ∧ w = c.logical.read32 (fIndirect f)) E :=
  h.load_field hs hf (k := 176) (by decide) depth

end

theorem Saved.diskaddr_inUse (h : Saved c P c') {p : Word} (h0 : p ≠ 0) (hp : InUse c.logical p.toNat) (depth : Nat) :
    Triple (diskaddr depth p.toNat) c' (fun a c'' => Saved c P c'' ∧ a = diskmap + p.toNat * blksize) E := by
  rw [← h.logical] at hp
  refine (diskaddr_ready h.ready (toNat_ne_zero h0) hp.1 depth).imp ?_
  rintro _ c'' ⟨hf, rfl⟩
  exact ⟨h.fetched hf, rfl⟩

theorem Saved.flush_number (h : Saved c P c') (hs : DiskFits c.logical) {p : Word} (h0 : p ≠ 0)
    (hp : InUse c.logical p.toNat) (depth : Nat) :
    Triple (do flushBlock (← diskaddr depth p.toNat)) c'
      (fun _ c'' => Saved c (fun b => P b ∨ b = p.toNat) c'') E := by
  refine .bind (h.diskaddr_inUse h0 hp depth) ?_
  rintro _ c'' ⟨h', rfl⟩
  have hat : InUse c.logical (blockOf (diskmap + p.toNat * blksize)) := by rwa [blockOf_blockAddr]
  refine (h'.flush_addr (Nat.le_add_right ..) (hat.below hs)).imp (fun _ _ hQ => ?_)
  rwa [blockOf_blockAddr] at hQ

structure SlotFor (m : Mem) (f n slot : Nat) : Prop where
  word : WordIn slot
  above : diskmap ≤ slot
  inUse : InUse m (blockOf slot)
  value : m.read32 slot = pointer m f n

section
variable (h : Saved c P c') (hs : DiskFits c.logical) (hf : FileOk c.logical f)
include h hs hf

theorem fileBlockWalk_saved (hn : n < ndirect + nindirect) (depth : Nat) :
    Triple (fileBlockWalk (depth + 3) f n) c' (fun r c'' => Saved c P c'' ∧
      ((∃ e, r = .error e ∧ pointer c.logical f n = 0) ∨ ∃ slot, r = .ok slot ∧ SlotFor c.logical f n slot)) E := by
  unfold fileBlockWalk
  refine .ite (fun hge => absurd hn (Nat.not_lt.2 hge)) fun _ => .ite (fun hd => ?_) fun hd => ?_
  · have hk : 136 + 4 * n + 4 ≤ sizeofFile := by
      unfold ndirect at hd
      unfold sizeofFile
      omega
    have hslot : fDirect f n = f + (136 + 4 * n) := Nat.add_assoc ..
    refine .pure ⟨h, .inr ⟨_, rfl, ?_, ?_, ?_, ?_⟩⟩
    · rw [hslot]
      exact hf.wordIn_field hk
    · exact Nat.le_trans hf.above (by omega)
    · rw [hslot, hf.blockOf_field (Nat.lt_of_lt_of_le (by omega) hk)]
      exact hf.home
    · rw [pointer, if_pos hd]
  · refine .bind (h.load_table hs hf depth) ?_
    rintro _ c₁ ⟨h₁, rfl⟩
    refine .ite (fun h0 => ?_) fun h0 => .pure ⟨h₁, .inl ⟨_, rfl, ?_⟩⟩
    · have huse := inUse_of_pointerOk hf.table h0
      refine .bind (h₁.load_table hs hf depth) ?_
      rintro _ c₂ ⟨h₂, rfl⟩
      refine .bind (h₂.diskaddr_inUse h0 huse (depth + 3)) ?_
      rintro _ c₃ ⟨h₃, rfl⟩
      have hoff : 4 * (n - ndirect) + 4 ≤ blksize := by
        unfold ndirect nindirect at *
        unfold blksize
        omega
      have hblock : ∀ j < 4, blockOf (diskmap + (c.logical.read32 (fIndirect f)).toNat * blksize +
          (4 * (n - ndirect) + j)) = (c.logical.read32 (fIndirect f)).toNat :=
        fun j hj => blockOf_inside (by omega)
      refine .pure ⟨h₃, .inr ⟨_, rfl, ?_, ?_, ?_, ?_⟩⟩
      · intro x hx hx'
        obtain ⟨j, rfl⟩ := Nat.exists_eq_add_of_le hx
        rw [Nat.add_assoc _ _ j]
        exact (hblock j (by omega)).trans (hblock 0 (by decide)).symm
      · omega
      · exact (hblock 0 (by decide)).symm ▸ huse
      · rw [pointer, if_neg hd, if_neg h0, blockAddr_inUse hs huse]
    · rw [pointer, if_neg hd]
      exact if_pos (not_not.1 h0)

theorem flushFileBlock_saved (hi : i < blocksFor (c.logical.read32 (fSize f)).toNat) (depth : Nat) :
    Triple (flushFileBlock (depth + 3) f i) c' (fun _ c'' => Saved c
      (fun b => P b ∨ (pointer c.logical f i ≠ 0 ∧ (pointer c.logical f i).toNat = b)) c'') E := by
  refine .bind (fileBlockWalk_saved h hs hf (Nat.lt_of_lt_of_le hi hf.blocks_le) depth) ?_
  rintro _ c₁ ⟨h₁, ⟨e, rfl, h0⟩ | ⟨slot, rfl, hslot⟩⟩
  · exact .pure (h₁.mono fun b hb => hb.resolve_right fun hp => hp.1 h0)
  · refine .bind (h₁.load_inUse hs hslot.inUse hslot.above hslot.word depth) ?_
    rintro _ c₂ ⟨h₂, rfl⟩
    rw [hslot.value]
    refine .ite (fun h0 => ?_) fun h0 => .pure (h₂.mono fun b hb => hb.resolve_right fun hp => h0 hp.1)
    refine .bind (h₂.load_inUse hs hslot.inUse hslot.above hslot.word depth) ?_
    rintro _ c₃ ⟨h₃, rfl⟩
    rw [hslot.value]
    refine (h₃.flush_number hs h0 (inUse_of_pointerOk (hf.blocks i hi) h0) (depth + 3)).imp ?_
    exact fun _ _ hQ => hQ.mono fun b hb => hb.imp_right fun hp => hp.2.symm

end

/-- The first `i` blocks have been flushed, and `k` rounds are left for the others. -/
theorem flushFrom_saved (hs : DiskFits c.logical) (hf : FileOk c.logical f) (depth : Nat)
    (h : Saved c (DataBlock c.logical f i) c') (hk : blocksFor (c.logical.read32 (fSize f)).toNat ≤ i + k) :
    Triple (flushFrom (depth + 3) f k i) c'
      (fun _ c'' => Saved c (DataBlock c.logical f (blocksFor (c.logical.read32 (fSize f)).toNat)) c'') E := by
  induction k generalizing i c' with
  | zero => exact .pure (h.mono fun b ⟨n, hn, hp⟩ => ⟨n, by omega, hp⟩)
  | succ k ih =>
    unfold flushFrom
    refine .bind (h.load_size hs hf depth) ?_
    rintro _ c₁ ⟨h₁, rfl⟩
    have hrounds := toInt_nblocksOf hf.size
    refine .ite (fun hlt => ?_) fun hge => .pure (h₁.mono fun b ⟨n, hn, hp⟩ => ⟨n, ?_, hp⟩)
    · refine .bind (flushFileBlock_saved h₁ hs hf ?_ depth) ?_
      · omega
      intro _ c₂ h₂
      refine ih (h₂.mono ?_) (by omega)
      rintro b ⟨n, hn, hp⟩
      rcases Nat.lt_succ_iff_lt_or_eq.1 hn with hn | rfl
      · exact .inl ⟨n, hn, hp⟩
      · exact .inr hp
    · omega

theorem fileFlush_saved (hr : Ready c) (hs : DiskFits c.logical) (hf : FileOk c.logical f) (depth : Nat) :
    Triple (fileFlush (depth + 3) f) c (fun _ c' => Saved c (FileBlock c.logical f) c') E := by
  have h : Saved c (DataBlock c.logical f 0) c := ⟨hr, rfl, fun x ⟨_, hn, _⟩ => absurd hn (Nat.not_lt_zero _)⟩
  refine .bind (h.load_size hs hf depth) ?_
  rintro _ c₁ ⟨h₁, rfl⟩
  refine .bind (flushFrom_saved hs hf depth h₁ ?_) ?_
  · rw [toInt_nblocksOf hf.size]
    omega
  intro _ c₂ h₂
  refine .bind (h₂.flush_addr hf.above (hf.home.below hs)) ?_
  intro _ c₃ h₃
  refine .bind (h₃.load_table hs hf depth) ?_
  rintro _ c₄ ⟨h₄, rfl⟩
  refine .ite (fun h0 => ?_) fun h0 => .pure (h₄.mono ?_)
  · refine .bind (h₄.load_table hs hf depth) ?_
    rintro _ c₅ ⟨h₅, rfl⟩
    refine (h₅.flush_number hs h0 (inUse_of_pointerOk hf.table h0) (depth + 3)).imp ?_
    refine fun _ _ hQ => hQ.mono ?_
    rintro b (hb | hb | hb)
    · exact .inl (.inr hb)
    · exact .inr hb.2.symm
    · exact .inl (.inl hb)
  · rintro b (hb | hb | hb)
    · exact .inr hb
    · exact absurd hb.1 h0
    · exact .inl hb

end

/-! ## Reading the file back -/

def drop (c : Cache) : Cache := { c with mapped := fun _ => false }

def fileByte (m : Mem) (f q : Nat) : Option (BitVec 8) :=
  if pointer m f (q / blksize) = 0 then none else some (m (blockAddr (pointer m f (q / blksize)) + q % blksize))

def SameFile (m m' : Mem) (f : Nat) : Prop :=
  m'.read32 (fSize f) = m.read32 (fSize f) ∧ ∀ q < (m.read32 (fSize f)).toNat, fileByte m' f q = fileByte m f q

section

variable {m m' : Mem}

theorem FileOk.same (hf : FileOk m f) (hs : DiskFits m) (h : ∀ x, FileBlock m f (blockOf x) → m' x = m x) :
    SameFile m m' f := by
  have hfield : ∀ k, k + 4 ≤ sizeofFile → m'.read32 (f + k) = m.read32 (f + k) := by
    intro k hk
    refine Mem.read32_congr fun x hx hx' => h x (.inl ?_)
    rw [hf.wordIn_field hk x hx hx', hf.blockOf_field (by omega)]
  have htable : m'.read32 (fIndirect f) = m.read32 (fIndirect f) := hfield 176 (by decide)
  have hptr : ∀ n < blocksFor (m.read32 (fSize f)).toNat, pointer m' f n = pointer m f n := by
    intro n hn
    have hmax := hf.blocks_le
    unfold pointer
    split
    · rename_i hd
      unfold ndirect at hd
      rw [fDirect, Nat.add_assoc, hfield (136 + 4 * n) (by unfold sizeofFile; omega)]
    · rw [htable]
      split
      · rfl
      · rename_i hd h0
        refine Mem.read32_congr fun x hx hx' => h x (.inr (.inl ⟨h0, ?_⟩))
        rw [blockAddr_inUse hs (inUse_of_pointerOk hf.table h0)] at hx hx'
        obtain ⟨j, rfl⟩ := Nat.exists_eq_add_of_le hx
        rw [Nat.add_assoc _ _ j, blockOf_inside]
        unfold ndirect nindirect at *
        unfold blksize
        omega
  refine ⟨hfield 128 (by decide), fun q hq => ?_⟩
  have hlt : q / blksize < blocksFor (m.read32 (fSize f)).toNat := by
    unfold blocksFor blksize
    omega
  unfold fileByte
  rw [hptr _ hlt]
  split
  · rfl
  · rename_i h0
    have huse := inUse_of_pointerOk (hf.blocks _ hlt) h0
    rw [h _ (.inr (.inr ⟨_, hlt, h0, ?_⟩))]
    rw [blockAddr_inUse hs huse, blockOf_inside (Nat.mod_lt _ (by decide))]

end

/-- What the cache had is on disk, and the file can be read back from it. -/
theorem flush_durable (hr : Ready c) (hs : DiskFits c.logical) (hf : FileOk c.logical f) (hd : 3 ≤ depth) :
    ∃ c', exec (fileFlush depth f) c = (.ok (), c') ∧ c'.logical = c.logical ∧
      (∀ x, FileBlock c.logical f (blockOf x) → c'.drop.logical x = c.logical x) ∧
      SameFile c.logical c'.drop.logical f := by
  obtain ⟨d, rfl⟩ := Nat.exists_eq_add_of_le' hd
  have hok : Triple (fileFlush (d + 3) f) c _ fun _ _ => False := fileFlush_saved hr hs hf d
  obtain ⟨_, c', hexec, h⟩ := hok.returns
  exact ⟨c', hexec, h.logical, h.disk, hf.same hs h.disk⟩

/-- A disk of 8 blocks, all in use; the root has one block, which has been
written to, and only it and the super block are in the cache. -/
def oneDirty : Cache where
  disk := .ofWords fun i => if i = 0x4000401 then 8 else if i = 0x4000422 then 4096 else if i = 0x4000424 then 3 else 0
  page x := if blockOf x = 3 then 7 else Mem.ofWords (fun i =>
    if i = 0x4000401 then 8 else if i = 0x4000422 then 4096 else if i = 0x4000424 then 3 else 0) x
  mapped b := b = 1 ∨ b = 3
  dirty b := b = 3
  superSet := true
  bitmapSet := true

theorem oneDirty_ready : Ready oneDirty := by
  refine ⟨fun x _ hd => ?_, rfl, rfl, rfl⟩
  have hne : blockOf x ≠ 3 := by simpa [oneDirty] using hd
  simp [oneDirty, hne]

theorem oneDirty_fits : DiskFits oneDirty.logical := by
  have hblocks : (oneDirty.logical.read32 sNblocks).toNat = 8 := by decide +kernel
  refine ⟨by rw [hblocks]; decide, fun i hi => ?_⟩
  obtain rfl : i = 0 := by
    rw [hblocks] at hi
    unfold blkbitsize at hi
    omega
  exact ⟨by rw [hblocks]; decide, by decide +kernel⟩

theorem oneDirty_root : FileOk oneDirty.logical sRoot where
  above := by decide
  inBlock := by decide
  home := ⟨by decide +kernel, by decide +kernel⟩
  size := by decide +kernel
  table := .inl (by decide +kernel)
  blocks n hn := by
    obtain rfl : n = 0 := by
      have hsize : (oneDirty.logical.read32 (fSize sRoot)).toNat = 4096 := by decide +kernel
      rw [hsize] at hn
      unfold blocksFor blksize at hn
      omega
    exact .inr ⟨by decide +kernel, by decide +kernel⟩

theorem flush_durable_root : oneDirty.disk 0x10003000 = 0 ∧ ∃ c', exec (fileFlush 3 sRoot) oneDirty = (.ok (), c') ∧
    c'.drop.logical 0x10003000 = 7 := by
  refine ⟨by decide +kernel, ?_⟩
  obtain ⟨c', hexec, -, hdisk, -⟩ := flush_durable oneDirty_ready oneDirty_fits oneDirty_root (Nat.le_refl 3)
  refine ⟨c', hexec, ?_⟩
  rw [hdisk 0x10003000 (.inr (.inr ⟨0, by decide +kernel, by decide +kernel, by decide +kernel⟩))]
  decide +kernel

end Jos.Fs.Cache
