import Jos.Fs.Stores
import Jos.Fs.Frames
import Mathlib.Data.Finset.Card

/-!
# The block layer at work

`alloc_block` returns the lowest free block, as a scan of the bitmap bit by
bit would (`alloc_block_agrees`). Over a disk that satisfies `DiskOk`,
`file_get_block` finds or makes the block of a file without touching anything
else (`fileGetBlock_ok`). It stops only when there are fewer free blocks than
it needs. A new indirect block is used as it is found, so it has to be all
zeros.
-/

namespace Jos.Fs

open Lib
open Function (update update_of_ne update_self)

/-! ## Addresses -/

theorem sNblocks_eq : sNblocks = 4 * nblocksIx := rfl

theorem sRoot_eq : sRoot = 4 * rootIx := rfl

theorem bitmapWord_eq (b : Nat) : bitmapWord b = 4 * bitmapIx b := by
  unfold bitmapWord bitmapIx blockIx bitmapAddr diskmap blksize
  omega

theorem fSize_eq (x : Nat) : fSize (4 * x) = 4 * (x + 32) := rfl

theorem fDirect_eq (x n : Nat) : fDirect (4 * x) n = 4 * (x + 34 + n) := by
  unfold fDirect
  omega

theorem fIndirect_eq (x : Nat) : fIndirect (4 * x) = 4 * (x + 44) := rfl

theorem blockAddr_eq (hfit : N * blksize ≤ disksize) {b : Word} (hb : b.toNat < N) :
    blockAddr b = 4 * blockIx b.toNat := by
  unfold blksize disksize at hfit
  unfold blockAddr blockIx
  rw [BitVec.toNat_add, BitVec.toNat_mul]
  simp only [diskmap, BitVec.toNat_ofNat]
  omega

theorem words_nblocks (s : Fs) : (s.words nblocksIx).toNat = (s.mem.read32 sNblocks).toNat := by
  rw [sNblocks_eq, Mem.read32_four_mul]

section
variable {s : Fs} {w : Words} {E : Panic → Fs → Prop}

theorem load_ok (hw : s.words = w) (i : Nat) : Triple (load (4 * i)) s (fun v t => s = t ∧ v = w i) E := by
  subst hw
  exact .bind (.get (Q := fun a u => s = a ∧ s = u) ⟨rfl, rfl⟩) fun _ _ ⟨ha, hu⟩ =>
    .pure ⟨hu, by rw [← ha]; rfl⟩

theorem store_ok (hw : s.words = w) (i : Nat) (v : Word) :
    Triple (store (4 * i) v) s (fun _ t => t.words = update w i v) E := by
  subst hw
  exact .modify (Mem.words_write32 s.mem i v)

theorem flushBlock_ok (hl : 0x4000000 ≤ i) (hu : i < 0x34000000) :
    Triple (flushBlock (4 * i)) s (fun _ t => s = t) E := by
  unfold flushBlock diskmap disksize
  rw [if_neg (by omega)]
  exact .pure rfl

/-! ## `alloc_block` and `free_block` -/

/-- The lowest free block, now in use; or no block is free. -/
def Allocated (N : Nat) (w : Words) (r : Int) (w' : Words) : Prop :=
  (∃ b : Nat, r = b ∧ b < N ∧ w.free b = true ∧ (∀ c < b, w.free c = false) ∧ w' = w.markUsed b) ∨
    (r = -eNoDisk ∧ (∀ b < N, w.free b = false) ∧ w' = w)

theorem Words.not_free_of_zero {w : Words} (h : w (bitmapIx b) = 0) (hc : c / 32 = b / 32) : w.free c = false := by
  have hix : bitmapIx c = bitmapIx b := by
    unfold bitmapIx
    rw [hc]
  unfold Words.free
  rw [hix, h]
  simp

theorem bitmapIx_lt (hfit : N * blksize ≤ disksize) (hb : b < N) : bitmapIx b < 0x34000000 := by
  unfold blksize disksize at hfit
  unfold bitmapIx blockIx
  omega

theorem le_bitmapIx (b : Nat) : 0x4000000 ≤ bitmapIx b := by
  unfold bitmapIx blockIx
  omega

section
variable (hn : (w nblocksIx).toNat = N) (hfit : N * blksize ≤ disksize) (hw : s.words = w)
include hn hfit hw

-- A word of the bitmap is only skipped as a whole, so its blocks are all in
-- use: the search stands on an unaligned block only after a free bit further on.
theorem allocFrom_ok (hk : N ≤ k + b) (hb : ∀ c < b, w.free c = false) (ha : b % 32 = 0 ∨ w (bitmapIx b) ≠ 0) :
    Triple (allocFrom k b) s (fun r t => Allocated N w r t.words) E := by
  induction k generalizing b with
  | zero => exact .pure (.inr ⟨rfl, fun c hc => hb c (by omega), hw⟩)
  | succ k ih =>
    rw [allocFrom, sNblocks_eq, bitmapWord_eq]
    refine .bind (load_ok hw _) ?_
    rintro _ _ ⟨rfl, rfl⟩
    refine .ite (fun hge => .pure (.inr ⟨rfl, fun c hc => hb c (by omega), hw⟩)) fun hlt => ?_
    refine .bind (load_ok hw _) ?_
    rintro _ _ ⟨rfl, rfl⟩
    refine .ite (fun hz => ?_) fun hnz => .ite (fun hbit => ?_) fun hbit => ?_
    · have hal := ha.resolve_right (not_not.2 hz)
      refine ih (by omega) (fun c hc => ?_) (.inl (by omega))
      by_cases hcb : c < b
      · exact hb c hcb
      · exact Words.not_free_of_zero hz (by omega)
    · refine .bind (store_ok hw _ _) ?_
      intro _ t ht
      refine .bind (flushBlock_ok (le_bitmapIx b) (bitmapIx_lt hfit (by omega))) ?_
      rintro _ _ rfl
      exact .pure (.inl ⟨b, rfl, by omega, hbit, hb, ht⟩)
    · refine ih (by omega) (fun c hc => ?_) ?_
      · by_cases hcb : c < b
        · exact hb c hcb
        · obtain rfl : c = b := by omega
          exact Bool.eq_false_iff.2 hbit
      · by_cases hal : (b + 1) % 32 = 0
        · exact .inl hal
        · have hix : bitmapIx (b + 1) = bitmapIx b := by
            unfold bitmapIx
            omega
          exact .inr (hix ▸ hnz)

theorem allocBlock_scan : Triple allocBlock s (fun r t => Allocated N w r t.words) E := by
  unfold allocBlock
  rw [sNblocks_eq]
  refine .bind (load_ok hw _) ?_
  rintro _ _ ⟨rfl, rfl⟩
  exact allocFrom_ok hn hfit hw (Nat.le_of_eq (hn.symm.trans (Nat.add_zero _).symm))
    (fun c hc => absurd hc (Nat.not_lt_zero c)) (.inl rfl)

end

/-- The plain scan of the bitmap: the lowest free block. -/
def plainScan (m : Mem) : Option Nat := (List.range (m.read32 sNblocks).toNat).find? (blockIsFree m)

def Fs.take (s : Fs) (b : Nat) : Fs :=
  { s with mem := s.mem.write32 (bitmapWord b) (s.mem.read32 (bitmapWord b) &&& ~~~(1#32 <<< (b % 32))) }

theorem words_take (s : Fs) (b : Nat) : (s.take b).words = s.words.markUsed b := by
  unfold Fs.take Words.markUsed
  rw [bitmapWord_eq]
  exact Mem.words_write32 ..

theorem blockIsFree_eq (m : Mem) (b : Nat) :
    blockIsFree m b = (decide (b < (m.read32 sNblocks).toNat) && Words.free m.words b) := by
  unfold blockIsFree Words.free
  rw [bitmapWord_eq]
  rfl

theorem plainScan_some (hb : b < (s.mem.read32 sNblocks).toNat) (hf : s.words.free b = true)
    (hc : ∀ c < b, s.words.free c = false) : plainScan s.mem = some b := by
  unfold plainScan
  rw [List.find?_range_eq_some]
  refine ⟨?_, List.mem_range.2 hb, fun c hcb => ?_⟩
  · rw [blockIsFree_eq, hf]
    simpa using hb
  · rw [blockIsFree_eq, hc c hcb]
    simp

theorem plainScan_none (hb : ∀ b < (s.mem.read32 sNblocks).toNat, s.words.free b = false) :
    plainScan s.mem = none := by
  unfold plainScan
  rw [List.find?_eq_none]
  intro b hmem
  rw [blockIsFree_eq, hb b (List.mem_range.1 hmem)]
  simp

theorem eq_of_words (hx : exec allocBlock s = (r, t)) (hw : t.words = u.words) (hm : u.moves = s.moves)
    (ho : u.opentab = s.opentab) : t = u := by
  have htm := (keeps_allocBlock offMem_moves).eq_of_exec hx
  have hto := (keeps_allocBlock offMem_opentab).eq_of_exec hx
  cases t
  cases u
  congr
  · exact Mem.ext_words hw
  · exact htm.trans hm.symm
  · exact hto.trans ho.symm

/-- `alloc_block` takes the block that the plain scan finds and changes its bit only. -/
theorem alloc_block_agrees (s : Fs) (hsuper : (s.mem.read32 sNblocks).toNat ≤ disksize / blksize) :
    exec allocBlock s = (plainScan s.mem).elim (.ok (-eNoDisk), s) (fun b => (.ok (b : Int), s.take b)) ∧
      ∀ b, plainScan s.mem = some b → b < (s.mem.read32 sNblocks).toNat ∧
        (∀ c, (s.take b).words.free c = (s.words.free c && decide (c ≠ b))) ∧
        ∀ a, a < bitmapWord b ∨ bitmapWord b + 4 ≤ a → (s.take b).mem a = s.mem a := by
  have hfit : (s.mem.read32 sNblocks).toNat * blksize ≤ disksize :=
    Nat.le_trans (Nat.mul_le_mul_right _ hsuper) (Nat.div_mul_le_self ..)
  constructor
  · obtain ⟨r, t, hx, ha⟩ := (allocBlock_scan (E := fun _ _ => False) (words_nblocks s) hfit rfl).returns
    rw [hx]
    rcases ha with ⟨b, rfl, hb, hf, hc, ht⟩ | ⟨rfl, hno, ht⟩
    · rw [plainScan_some hb hf hc]
      rw [← words_take] at ht
      exact congrArg _ (eq_of_words hx ht rfl rfl)
    · rw [plainScan_none hno]
      exact congrArg _ (eq_of_words hx ht rfl rfl)
  · intro b hb
    refine ⟨?_, fun c => ?_, fun a ha => Mem.write32_of_outside ha⟩
    · exact List.mem_range.1 (List.mem_of_find?_eq_some hb)
    · rw [words_take, Words.free_markUsed]

def fortyBlocks : Fs where
  mem := .ofWords fun i => if i = nblocksIx then 40 else if i = bitmapIx 32 then 0xFFFFFFFC else 0
  moves := []
  opentab _ := ⟨0, 0, 0, 0⟩

theorem alloc_block_agrees_forty : exec allocBlock fortyBlocks = (.ok 34, fortyBlocks.take 34) := by
  have hw : ∀ i, fortyBlocks.words i = if i = nblocksIx then 40 else if i = bitmapIx 32 then 0xFFFFFFFC else 0 :=
    congrFun (Mem.words_ofWords _)
  have hn : fortyBlocks.mem.read32 sNblocks = 40 := by
    rw [sNblocks_eq, Mem.read32_four_mul]
    exact (hw nblocksIx).trans (if_pos rfl)
  have hscan : plainScan fortyBlocks.mem = some 34 := by
    refine plainScan_some (by rw [hn]; decide) (by rw [Words.free, hw]; decide) fun c hc => ?_
    by_cases hlow : c < 32
    · exact Words.not_free_of_zero (b := 0) (by rw [hw]; decide) (by omega)
    · obtain rfl | rfl : c = 32 ∨ c = 33 := by omega
      · rw [Words.free, hw]
        decide
      · rw [Words.free, hw]
        decide
  have h := (alloc_block_agrees fortyBlocks (by rw [hn]; decide)).1
  rwa [hscan] at h

theorem freeBlock_ok (hw : s.words = w) {b : Word} (h0 : b ≠ 0) :
    Triple (freeBlock b) s (fun _ t => t.words = w.markFree b.toNat) E := by
  unfold freeBlock
  rw [bitmapWord_eq]
  refine .guard (fun hz => absurd hz h0) fun _ => .bind (load_ok hw _) ?_
  rintro _ _ ⟨rfl, rfl⟩
  exact store_ok hw _ _

end

/-! ## Free blocks -/

namespace Words

def frees (N : Nat) (w : Words) : Nat := ((Finset.range N).filter fun b => w.free b = true).card

def Clean (N : Nat) (w : Words) : Prop := ∀ b < N, w.free b = true → w.Zero b

/-- The blocks `file_get_block` has to allocate. -/
def need (w : Words) (x n : Nat) : Nat := (if w.Ready x n then 0 else 1) + if w.ptr x n = 0 then 1 else 0

theorem frees_congr {w w' : Words} (h : ∀ b < N, w'.free b = w.free b) : w'.frees N = w.frees N := by
  unfold frees
  congr 1
  refine Finset.filter_congr fun b hb => ?_
  rw [h b (Finset.mem_range.1 hb)]

theorem frees_markUsed {w : Words} (hb : b < N) (hf : w.free b = true) :
    (w.markUsed b).frees N + 1 = w.frees N := by
  unfold frees
  have herase : ((Finset.range N).filter fun c => (w.markUsed b).free c = true) =
      ((Finset.range N).filter fun c => w.free c = true).erase b := by
    ext c
    simp only [Finset.mem_filter, Finset.mem_erase, free_markUsed, Bool.and_eq_true, decide_eq_true_eq]
    tauto
  rw [herase]
  exact Finset.card_erase_add_one (Finset.mem_filter.2 ⟨Finset.mem_range.2 hb, hf⟩)

theorem frees_eq_zero {w : Words} (h : ∀ b < N, w.free b = false) : w.frees N = 0 := by
  unfold frees
  rw [Finset.card_eq_zero, Finset.filter_eq_empty_iff]
  intro b hb
  rw [h b (Finset.mem_range.1 hb)]
  simp

end Words

/-- The panic of a full disk: the negative result of `alloc_block` is taken
for a block number. `short` says how few blocks were free. -/
def DiskFull (short : Prop) (e : Panic) (_ : Fs) : Prop := (∃ b, e = .badBlock b) ∧ short

theorem DiskFull.mono {p q : Prop} {e : Panic} {t : Fs} (he : DiskFull p e t) (h : p → q) : DiskFull q e t :=
  ⟨he.1, h he.2⟩

section
variable {s : Fs} {w u : Words} {V : Volume} {x n : Nat} {E : Panic → Fs → Prop}

theorem noDisk_ge (V : Volume) : V.N ≤ (BitVec.ofInt 32 (-eNoDisk)).toNat := by
  have hfit := V.fits
  unfold blksize disksize at hfit
  have hval : (BitVec.ofInt 32 (-eNoDisk)).toNat = 0xFFFFFFF7 := by decide
  omega

theorem ofInt_block (V : Volume) (hb : b < V.N) : (BitVec.ofInt 32 (b : Int)).toNat = b := by
  have hfit := V.fits
  unfold blksize disksize at hfit
  rw [BitVec.ofInt_natCast, BitVec.toNat_ofNat, Nat.mod_eq_of_lt (by omega)]

theorem diskaddr_ok (h : DiskOk V w) (hw : s.words = w) {b : Word} (h0 : b ≠ 0) (hb : b.toNat < V.N) :
    Triple (diskaddr b) s (fun a t => s = t ∧ a = 4 * blockIx b.toNat) E := by
  unfold diskaddr
  rw [sNblocks_eq]
  refine .bind (load_ok hw _) ?_
  rintro _ _ ⟨rfl, rfl⟩
  refine .guard (fun hbad => ?_) fun _ => .pure ⟨rfl, blockAddr_eq V.fits hb⟩
  have hn := h.nblocks
  rw [BitVec.le_def] at hbad
  rcases hbad with hbad | hbad
  · exact absurd hbad h0
  · omega

theorem diskaddr_bad (hw : s.words = w) {b : Word} (hb : (w nblocksIx).toNat ≤ b.toNat)
    (he : E (.badBlock b) s) : Triple (diskaddr b) s Q E := by
  unfold diskaddr
  rw [sNblocks_eq]
  refine .bind (load_ok hw _) ?_
  rintro _ _ ⟨rfl, rfl⟩
  exact .guard (fun _ => he) fun hok => absurd (.inr (BitVec.le_def.2 hb)) hok

theorem allocBlock_ok (h : DiskOk V w) (hw : s.words = w) :
    Triple allocBlock s (fun r t => Allocated V.N w r t.words) E :=
  allocBlock_scan h.nblocks V.fits hw

theorem Plain.markUsed (h : DiskOk V w) (hc : c < V.N) (hb : Plain V w b) : Plain V (w.markUsed c) b :=
  hb.congr fun x hx _ => .inl ((h.same_markUsed hc).table x hx)

theorem DiskOk.markUsed_fresh (h : DiskOk V w) (hb : b < V.N) (hf : w.free b = true) :
    Pool V.N (w.markUsed b) b ∧ ∀ r, ¬ Holds V (w.markUsed b) r b := by
  have hplain := Plain.of_free h hb hf
  refine ⟨⟨hplain.lower, hb, by simp [Words.free_markUsed]⟩, fun r hr => ?_⟩
  exact h.not_free ((h.same_markUsed hb).holds hr) hf

theorem Plain.ne_zero {v : Word} (h : Plain V w v.toNat) : v ≠ 0 := by
  rintro rfl
  exact absurd h.two_lt (by simp)

/-! ## `file_block_walk` -/

def Words.Tab (w : Words) (x b : Nat) : Prop := w.table x ≠ 0 ∧ b = (w.table x).toNat

/-- The slot for block `n` is there, and nothing else has changed. -/
structure Walked (V : Volume) (x n : Nat) (w w' : Words) : Prop where
  ok : DiskOk V w'
  grows : Grows V w w'
  ready : w'.Ready x n
  keeps : w.Ready x n → w'.table x = w.table x
  ptr : ∀ k < ndirect + nindirect, w'.ptr x k = w.ptr x k
  fresh : w.table x = 0 → w'.table x ≠ 0 → w.free (w'.table x).toNat = true
  plain : ∀ b i, Plain V w b → InBlock b i → w' i = w i
  within : Within V.N x (w'.Tab x) w w'
  used : ∀ b, InBitmap V.N (bitmapIx b) → (w'.free b = true ↔ w.free b = true ∧ ¬ (w.table x = 0 ∧ w'.Tab x b))
  count : w'.frees V.N + (if w.Ready x n then 0 else 1) = w.frees V.N

theorem Walked.refl (h : DiskOk V w) (hr : w.Ready x n) : Walked V x n w w where
  ok := h
  grows := .refl
  ready := hr
  keeps _ := rfl
  ptr _ _ := rfl
  fresh h0 h1 := absurd h0 h1
  plain _ _ _ _ := rfl
  within := .refl
  used b _ := by
    refine ⟨fun hf => ⟨hf, fun hno => hno.2.1 hno.1⟩, fun hf => hf.1⟩
  count := by rw [if_pos hr, Nat.add_zero]

theorem Walked.newTable (h : DiskOk V w) (hx : V.file x) (hr : ¬ w.Ready x n) {v : Word} (hb : v.toNat < V.N)
    (hf : w.free v.toNat = true) (hz : w.Zero v.toNat) : Walked V x n w ((w.markUsed v.toNat).setTable x v) := by
  have h0 : w.table x = 0 := by
    by_contra hne
    exact hr (.inr hne)
  have hplain := Plain.of_free h hb hf
  have hmark := h.markUsed hb
  have hplain' := hplain.markUsed h hb
  have hsame := h.same_markUsed hb
  obtain ⟨hpool, hunheld⟩ := h.markUsed_fresh hb hf
  have hword : ∀ b i, Plain V w b → InBlock b i → w.markUsed v.toNat i = w i := by
    intro b i hpb hi
    refine update_of_ne ?_ ..
    rintro rfl
    exact hpb.not_bitmap hi (inBitmap_bitmapIx hb)
  have h0' : (w.markUsed v.toNat).table x = 0 := (hsame.table x hx).trans h0
  have hz' : (w.markUsed v.toNat).Zero v.toNat := fun i hi => (hword _ i hplain hi).trans (hz i hi)
  have hself := DiskOk.table_setTable (w.markUsed v.toNat) x v
  refine ⟨hmark.setTable_take hx h0' hpool hplain' hunheld hz',
    (h.grows_markUsed hb).trans (hmark.grows_setTable hx h0' hplain' hz'), .inr ?_, fun hyes => absurd hyes hr, ?_,
    fun _ _ => ?_, ?_, ?_, ?_, ?_⟩
  · rw [hself]
    exact hplain.ne_zero
  · intro k hk
    rw [hmark.ptr_setTable_zero hx h0' hplain' hz' hk, hsame.ptr x k hx hk]
  · rw [hself]
    exact hf
  · intro b i hpb hi
    rw [hmark.setTable_plain hx (hpb.markUsed h hb) hi, hword b i hpb hi]
  · exact (DiskOk.within_bitmap (inBitmap_bitmapIx hb)).trans DiskOk.within_setTable
  · intro b hb'
    rw [hmark.free_setTable hx hb', Words.free_markUsed]
    unfold Words.Tab
    rw [hself]
    have hv := hplain.ne_zero
    simp only [Bool.and_eq_true, decide_eq_true_eq]
    tauto
  · rw [if_neg hr, Words.frees_congr fun b hb' => hmark.free_setTable hx (inBitmap_bitmapIx hb')]
    exact Words.frees_markUsed hb hf

theorem Walked.plain_of_used (hwalk : Walked V x n w u) (h : DiskOk V w) (hx : V.file x) (hc : Plain V w c)
    (hin : w.free c = false) : Plain V u c := by
  refine hc.congr fun y hy ht => ?_
  by_cases hold : w.table y = 0
  · by_cases hyx : y = x
    · subst hyx
      refine .inr ?_
      rintro rfl
      rw [hwalk.fresh hold ht] at hin
      exact absurd hin (by simp)
    · have hsame := hwalk.within.other h (fun b hb => ?_) hx hy hyx (fun hne => absurd hold hne)
      · exact .inl hsame.1
      · obtain ⟨hne, rfl⟩ := hb
        exact hwalk.ok.tables x hx hne
  · exact .inl (hwalk.grows.table y hy hold)

theorem slot_direct (w : Words) (x : Nat) (hn : n < ndirect) : fDirect (4 * x) n = 4 * w.slotIx x n := by
  rw [fDirect_eq, Words.slotIx, if_pos hn]

theorem slot_indirect (w : Words) (x : Nat) (hn : ¬ n < ndirect) :
    4 * blockIx (w.table x).toNat + 4 * (n - ndirect) = 4 * w.slotIx x n := by
  rw [Words.slotIx, if_neg hn]
  omega

/-- What the panic of a full disk leaves of the file, with `-E_NO_DISK` stored
for the block that was not there. -/
structure Spoiled (x : Nat) (w w' : Words) : Prop where
  size : w' (x + 32) = w (x + 32)
  ptr : ∀ k < ndirect + nindirect, w.ptr x k ≠ 0 → w'.ptr x k = w.ptr x k

theorem Spoiled.table (h0 : w.table x = 0) : Spoiled x w (update w (x + 44) v) where
  size := update_of_ne (by omega) ..
  ptr k _ hne := by
    have hlt : k < ndirect := by
      by_contra hge
      exact hne (if_neg fun hr => hr.elim hge fun ht => ht h0)
    rw [Words.ptr_direct hlt, Words.ptr_direct hlt]
    unfold ndirect at hlt
    exact update_of_ne (by omega) ..

theorem Walked.spoiled (hwalk : Walked V x n w u) (hx : V.file x) (hn : n < ndirect + nindirect) (h0 : w.ptr x n = 0) :
    Spoiled x w (u.setSlot x n v) where
  size := by
    refine (update_of_ne (hwalk.ok.slot_ne_field hx hx hn hwalk.ready (by omega)).symm ..).trans ?_
    exact hwalk.within.attr (fun b hb => hb.2 ▸ hwalk.ok.tables x hx hb.1) hx hx (by omega)
  ptr k hk hne := by
    rw [hwalk.ok.ptr_setSlot_of_ne hx hn hwalk.ready hx hk (.inr ?_), hwalk.ptr k hk]
    rintro rfl
    exact hne h0

theorem fileBlockWalk_ok (h : DiskOk V w) (hw : s.words = w) (hx : V.file x) {n : Word}
    (hn : n.toNat < ndirect + nindirect) (hz : w.Ready x n.toNat ∨ w.Clean V.N) :
    Triple (fileBlockWalk (4 * x) n true) s
      (fun r t => r = .ok (4 * t.words.slotIx x n.toNat) ∧ Walked V x n.toNat w t.words)
      (fun e t => DiskFull (w.frees V.N = 0 ∧ ¬ w.Ready x n.toNat) e t ∧ Spoiled x w t.words) := by
  unfold fileBlockWalk
  rw [fIndirect_eq]
  refine .ite (fun hge => absurd hn (by omega)) fun _ => .ite (fun hlt => ?_) fun hge => ?_
  · rw [slot_direct w _ hlt]
    subst hw
    exact .pure ⟨rfl, .refl h (.inl hlt)⟩
  · refine .bind (load_ok hw _) ?_
    rintro _ _ ⟨rfl, rfl⟩
    refine .ite (fun hne => ?_) fun hne => .ite (fun _ => ?_) fun hno => absurd rfl hno
    · have hb := (h.tablePool hx hne).upper
      refine .bind (diskaddr_ok h hw hne hb) ?_
      rintro _ _ ⟨rfl, rfl⟩
      refine .pure ⟨?_, hw.symm ▸ .refl h (.inr hne)⟩
      rw [hw, ← slot_indirect _ _ hge]
      rfl
    · have hr : ¬ w.Ready x n.toNat := by
        rintro (hlt | ht)
        · exact hge hlt
        · exact hne ht
      have hclean := hz.resolve_left hr
      refine .bind (allocBlock_ok h hw) ?_
      rintro _ u (⟨b, rfl, hb, hfree, -, hu⟩ | ⟨rfl, hfull, hu⟩)
      · have hb' := ofInt_block V hb
        generalize BitVec.ofInt 32 (b : Int) = v at hb' ⊢
        subst hb'
        have hwalk : Walked V x n.toNat w ((w.markUsed v.toNat).setTable x v) :=
          .newTable h hx hr hb hfree (hclean _ hb hfree)
        have htab := DiskOk.table_setTable (w.markUsed v.toNat) x v
        refine .bind (store_ok hu _ _) ?_
        intro _ t ht
        refine .bind (load_ok ht _) ?_
        rintro _ _ ⟨rfl, rfl⟩
        rw [update_self]
        have hv := (Plain.of_free h hb hfree).ne_zero
        refine .bind (diskaddr_ok hwalk.ok ht hv hb) ?_
        rintro _ _ ⟨rfl, rfl⟩
        refine .pure ⟨?_, ht.symm ▸ hwalk⟩
        rw [ht, ← slot_indirect _ _ hge]
        exact congrArg (fun b : Word => Except.ok (4 * blockIx b.toNat + 4 * (n.toNat - ndirect))) htab.symm
      · refine .bind (store_ok hu _ _) ?_
        intro _ t ht
        refine .bind (load_ok ht _) ?_
        rintro _ _ ⟨rfl, rfl⟩
        rw [update_self]
        have hspoil : Spoiled x w t.words := ht ▸ .table (not_not.1 hne)
        refine .bind (diskaddr_bad ht ?_ ⟨⟨⟨_, rfl⟩, Words.frees_eq_zero hfull, hr⟩, hspoil⟩) fun _ _ hq => hq
        rw [update_of_ne (Volume.field_ne_nblocks hx (by omega)).symm, h.nblocks]
        exact noDisk_ge V

/-! ## `file_get_block` -/

/-- Block `n` is `b`, which was free if the file had no block there. No other
pointer and no block in use has changed. -/
structure Gets (V : Volume) (x n : Nat) (b : Word) (w w' : Words) : Prop where
  ok : DiskOk V w'
  grows : Grows V w w'
  ready : w'.Ready x n
  keeps : w.Ready x n → w'.table x = w.table x
  self : w'.ptr x n = b
  nonzero : b ≠ 0
  lt : b.toNat < V.N
  other : ∀ k < ndirect + nindirect, k ≠ n → w'.ptr x k = w.ptr x k
  fresh : w.ptr x n = 0 → w.free b.toNat = true
  lowest : w.Ready x n → w.ptr x n = 0 → ∀ c < b.toNat, w.free c = false
  freshTable : w.table x = 0 → w'.table x ≠ 0 → w.free (w'.table x).toNat = true
  plain : ∀ c i, Plain V w c → w.free c = false ∨ c = b.toNat → InBlock c i → w' i = w i
  within : Within V.N x (w'.Tab x) w w'
  used : ∀ c, InBitmap V.N (bitmapIx c) →
    (w'.free c = true ↔ w.free c = true ∧ ¬ (w.table x = 0 ∧ w'.Tab x c) ∧ ¬ (w.ptr x n = 0 ∧ c = b.toNat))
  count : w'.frees V.N + w.need x n = w.frees V.N

theorem Walked.gets (h : Walked V x n w u) (hn : n < ndirect + nindirect) (hb : w.ptr x n ≠ 0)
    (hlt : (w.ptr x n).toNat < V.N) : Gets V x n (w.ptr x n) w u where
  ok := h.ok
  grows := h.grows
  ready := h.ready
  keeps := h.keeps
  self := h.ptr n hn
  nonzero := hb
  lt := hlt
  other k hk _ := h.ptr k hk
  fresh h0 := absurd h0 hb
  lowest _ h0 := absurd h0 hb
  freshTable := h.fresh
  plain c i hc _ hi := h.plain c i hc hi
  within := h.within
  used c hc := by
    rw [h.used c hc]
    tauto
  count := by
    rw [Words.need, if_neg hb, Nat.add_zero]
    exact h.count

theorem Walked.newBlock (hwalk : Walked V x n w u) (h : DiskOk V w) (hx : V.file x) (hn : n < ndirect + nindirect)
    (h0 : w.ptr x n = 0) {v : Word} (hb : v.toNat < V.N) (hf : u.free v.toNat = true)
    (hlow : ∀ c < v.toNat, u.free c = false) : Gets V x n v w ((u.markUsed v.toNat).setSlot x n v) := by
  have hmark := hwalk.ok.markUsed hb
  have hsame := hwalk.ok.same_markUsed hb
  have hgrows := hwalk.grows.trans (hwalk.ok.grows_markUsed hb)
  have htab := hsame.table x hx
  have hr : (u.markUsed v.toNat).Ready x n := (Words.ready_congr htab).2 hwalk.ready
  have hptr : ∀ k < ndirect + nindirect, (u.markUsed v.toNat).ptr x k = w.ptr x k :=
    fun k hk => (hsame.ptr x k hx hk).trans (hwalk.ptr k hk)
  have hwfree := hwalk.grows.free _ hb hf
  have hplain := Plain.of_free h hb hwfree
  have htab' : ((u.markUsed v.toNat).setSlot x n v).table x = u.table x :=
    (hmark.table_setSlot hx hn hr hx).trans htab
  have hTab : ∀ c, ((u.markUsed v.toNat).setSlot x n v).Tab x c ↔ u.Tab x c := by
    intro c
    unfold Words.Tab
    rw [htab']
  obtain ⟨hpool, hunheld⟩ := hwalk.ok.markUsed_fresh hb hf
  refine ⟨hmark.setSlot_take hx hn hr hpool hunheld,
    hgrows.trans (hmark.grows_setSlot hx hn hr ((hptr n hn).trans h0)), ?_,
    fun hwr => htab'.trans (hwalk.keeps hwr), hmark.ptr_setSlot hx hn hr,
    hplain.ne_zero, hb, ?_, fun _ => hwfree, fun hwr _ c hc => ?_, ?_, ?_, ?_, ?_, ?_⟩
  · exact (Words.ready_congr htab').2 hwalk.ready
  · intro k hk hne
    rw [hmark.ptr_setSlot_of_ne hx hn hr hx hk (.inr hne)]
    exact hptr k hk
  · have hsame : u.free c = w.free c := Bool.eq_iff_iff.2 ((hwalk.used c (inBitmap_bitmapIx (by omega))).trans
      ⟨fun hwf => hwf.1, fun hwf => ⟨hwf, fun hno => hno.2.1 ((hwalk.keeps hwr).trans hno.1)⟩⟩)
    exact hsame.symm.trans (hlow c hc)
  · rw [htab']
    exact hwalk.fresh
  · intro c i hc hin hi
    have hcu : Plain V u c := by
      rcases hin with hin | rfl
      · exact hwalk.plain_of_used h hx hc hin
      · exact .of_free hwalk.ok hb hf
    rw [hmark.setSlot_plain hx hn hr (hcu.markUsed hwalk.ok hb) hi, ← hwalk.plain c i hc hi]
    refine update_of_ne ?_ ..
    rintro rfl
    exact hc.not_bitmap hi (inBitmap_bitmapIx hb)
  · have hslot := DiskOk.within_setSlot (V := V) (v := v) hn hr
    rw [htab] at hslot
    exact ((hwalk.within.trans (DiskOk.within_bitmap (inBitmap_bitmapIx hb))).trans hslot).mono fun c hc => (hTab c).2 hc
  · intro c hc
    rw [hmark.free_setSlot hx hn hr hc, Words.free_markUsed, hTab]
    have hu := hwalk.used c hc
    simp only [Bool.and_eq_true, decide_eq_true_eq]
    tauto
  · rw [Words.frees_congr fun c hc => hmark.free_setSlot hx hn hr (inBitmap_bitmapIx hc), Words.need, if_pos h0,
      ← hwalk.count, ← Words.frees_markUsed hb hf]
    omega

theorem fileGetBlock_ok (h : DiskOk V w) (hw : s.words = w) (hx : V.file x) {n : Word}
    (hn : n.toNat < V.cover x) (hz : w.Ready x n.toNat ∨ w.Clean V.N) :
    Triple (fileGetBlock (4 * x) n) s
      (fun r t => ∃ b, r = .ok (4 * blockIx b.toNat) ∧ Gets V x n.toNat b w t.words)
      (fun e t => DiskFull (w.frees V.N < w.need x n.toNat) e t ∧ Spoiled x w t.words) := by
  have hn' := Nat.lt_of_lt_of_le hn V.cover_le
  unfold fileGetBlock
  refine .ite (fun hge => absurd hn' (by omega)) fun _ => ?_
  refine .bind ((fileBlockWalk_ok h hw hx hn' hz).imp_error ?_) ?_
  · rintro e t ⟨hfull, hspoil⟩
    refine ⟨hfull.mono ?_, hspoil⟩
    rintro ⟨hfull, hr⟩
    rw [hfull, Words.need, if_neg hr]
    omega
  · rintro _ u ⟨rfl, hwalk⟩
    have hptr : u.words (u.words.slotIx x n.toNat) = w.ptr x n.toNat := by
      rw [← hwalk.ptr _ hn', Words.ptr_ready hwalk.ready]
    refine .bind (load_ok rfl _) ?_
    rintro _ _ ⟨rfl, rfl⟩
    rw [hptr]
    refine .ite (fun hne => ?_) fun hne => ?_
    · have hb := (h.owned.pool (r := .block x n.toNat) ⟨hx, hn, hne, rfl⟩).upper
      refine .bind (diskaddr_ok hwalk.ok rfl hne hb) ?_
      rintro _ _ ⟨rfl, rfl⟩
      exact .pure ⟨_, rfl, hwalk.gets hn' hne hb⟩
    · have h0 := not_not.1 hne
      refine .bind (allocBlock_ok hwalk.ok rfl) ?_
      rintro _ t (⟨b, rfl, hb, hfree, hlow, ht⟩ | ⟨rfl, hfull, ht⟩)
      · have hb' := ofInt_block V hb
        generalize BitVec.ofInt 32 (b : Int) = v at hb' ⊢
        subst hb'
        have hget := hwalk.newBlock h hx hn' h0 hb hfree hlow
        have hslot : u.words.slotIx x n.toNat = (u.words.markUsed v.toNat).slotIx x n.toNat :=
          (Words.slotIx_congr ((hwalk.ok.same_markUsed hb).table x hx)).symm
        refine .bind (store_ok ht _ _) ?_
        intro _ t' ht'
        refine .bind (load_ok ht' _) ?_
        rintro _ _ ⟨rfl, rfl⟩
        rw [update_self]
        rw [hslot] at ht'
        refine .bind (diskaddr_ok hget.ok ht' hget.nonzero hb) ?_
        rintro _ _ ⟨rfl, rfl⟩
        exact .pure ⟨v, rfl, ht'.symm ▸ hget⟩
      · refine .bind (store_ok ht _ _) ?_
        intro _ t' ht'
        refine .bind (load_ok ht' _) ?_
        rintro _ _ ⟨rfl, rfl⟩
        rw [update_self]
        refine .bind (diskaddr_bad ht' ?_ ⟨⟨⟨_, rfl⟩, ?_⟩, ?_⟩) fun _ _ hq => hq
        · rw [update_of_ne (hwalk.ok.slot_ne_nblocks hx hn' hwalk.ready).symm, hwalk.ok.nblocks]
          exact noDisk_ge V
        · rw [Words.need, if_pos h0, ← hwalk.count, Words.frees_eq_zero hfull]
          omega
        · rw [ht']
          exact hwalk.spoiled hx hn' h0

end

/-! ## A full disk -/

def pointer (m : Mem) (f n : Nat) : Word :=
  if n < ndirect then m.read32 (fDirect f n)
  else if m.read32 (fIndirect f) = 0 then 0
  else m.read32 (blockAddr (m.read32 (fIndirect f)) + 4 * (n - ndirect))

/-- The blocks `file_get_block` needs: a data block, an indirect block, or both. -/
def needed (m : Mem) (f n : Nat) : Nat :=
  (if pointer m f n = 0 then 1 else 0) + if ndirect ≤ n ∧ m.read32 (fIndirect f) = 0 then 1 else 0

def freeBlocks (m : Mem) : Nat := ((List.range (m.read32 sNblocks).toNat).filter (blockIsFree m)).length

def PointerOk (m : Mem) (p : Word) : Prop := p = 0 ∨ (p < m.read32 sNblocks ∧ blockIsFree m p.toNat = false)

/-- A call that needs more blocks than are free reports it and stores no bad pointer. -/
def ReportsFull (s : Fs) (f : Nat) (n : Word) : Prop :=
  freeBlocks s.mem < needed s.mem f n.toNat →
    ∃ t, exec (fileGetBlock f n) s = (.ok (.error (-eNoDisk)), t) ∧ PointerOk t.mem (t.mem.read32 (fIndirect f)) ∧
      ∀ k < ndirect + nindirect, PointerOk t.mem (pointer t.mem f k)

theorem full_disk_reported_iff (s : Fs) (f : Nat) (n : Word) (hn : n.toNat < ndirect + nindirect) :
    ReportsFull s f n ↔ needed s.mem f n.toNat ≤ freeBlocks s.mem := by
  constructor
  · intro h
    by_contra hlt
    obtain ⟨t, hx, -⟩ := h (by omega)
    have hres := ((fileGetBlock_result f n s).ok hx).2
    rw [if_neg (by omega)] at hres
    obtain ⟨a, ha⟩ := hres
    cases ha
  · intro hle hlt
    omega

/-- The panic: the negative result is stored as a pointer, and then taken for a block number. -/
theorem fileGetBlock_full {w : Words} (hN : (w nblocksIx).toNat = N) (hfit : N * blksize ≤ disksize) (hw : s.words = w)
    (hfull : ∀ b < N, w.free b = false) {n : Word} (hn : n.toNat < ndirect) (h0 : w.ptr x n.toNat = 0)
    (hx : x + (34 + n.toNat) ≠ nblocksIx) :
    Triple (fileGetBlock (4 * x) n) s (fun _ _ => False)
      (fun e t => e = .badBlock 0xFFFFFFF7 ∧ t.words = update w (x + (34 + n.toNat)) 0xFFFFFFF7) := by
  have hval : BitVec.ofInt 32 (-eNoDisk) = 0xFFFFFFF7 := by decide
  unfold fileGetBlock fileBlockWalk
  refine .ite (fun hge => absurd hn (by omega)) fun _ => ?_
  rw [if_neg (by omega), if_pos hn, fDirect_eq, Nat.add_assoc]
  refine .bind (.pure (Q := fun r t => s = t ∧ r = .ok (4 * (x + (34 + n.toNat)))) ⟨rfl, rfl⟩) ?_
  rintro _ _ ⟨rfl, rfl⟩
  refine .bind (load_ok hw _) ?_
  rintro _ _ ⟨rfl, rfl⟩
  rw [Words.ptr_direct hn] at h0
  rw [h0]
  refine .ite (fun hne => absurd rfl hne) fun _ => .bind (allocBlock_scan hN hfit hw) ?_
  rintro _ u (⟨b, -, hb, hf, -⟩ | ⟨rfl, -, hu⟩)
  · rw [hfull b hb] at hf
    exact absurd hf Bool.false_ne_true
  · rw [hval]
    refine .bind (store_ok hu _ _) ?_
    intro _ t ht
    refine .bind (load_ok ht _) ?_
    rintro _ _ ⟨rfl, rfl⟩
    rw [update_self]
    refine .bind (diskaddr_bad ht ?_ ⟨rfl, ht⟩) fun _ _ hq => hq
    rw [update_of_ne hx.symm, hN]
    unfold blksize disksize at hfit
    simp
    omega

def fullDisk : Fs where
  mem := .ofWords fun i => if i = nblocksIx then 8 else 0
  moves := []
  opentab _ := ⟨0, 0, 0, 0⟩

theorem fullDisk_words (i : Nat) : fullDisk.words i = if i = nblocksIx then 8 else 0 :=
  congrFun (Mem.words_ofWords _) i

theorem fullDisk_not_free (b : Nat) : fullDisk.words.free b = false := by
  refine Words.not_free_of_zero (b := b) ?_ rfl
  rw [fullDisk_words, if_neg]
  unfold bitmapIx nblocksIx blockIx
  omega

theorem fullDisk_pointer : pointer fullDisk.mem sRoot 0 = 0 := by
  rw [pointer, if_pos (by decide), sRoot_eq, fDirect_eq, Mem.read32_four_mul]
  exact (fullDisk_words _).trans (if_neg (by decide))

theorem fullDisk_short : freeBlocks fullDisk.mem < needed fullDisk.mem sRoot 0 := by
  have hfree : freeBlocks fullDisk.mem = 0 := by
    unfold freeBlocks
    rw [List.length_eq_zero_iff, List.filter_eq_nil_iff]
    intro b _
    rw [blockIsFree_eq, fullDisk_not_free]
    simp
  rw [hfree, needed, if_pos fullDisk_pointer]
  omega

theorem full_disk_reported_iff_full : ¬ ReportsFull fullDisk sRoot 0 := by
  have hshort := fullDisk_short
  rw [full_disk_reported_iff fullDisk sRoot 0 (by decide)]
  exact Nat.not_le.2 hshort

/-- `file_get_block` panics and leaves `-E_NO_DISK` as a block pointer. -/
theorem full_disk_panics : freeBlocks fullDisk.mem < needed fullDisk.mem sRoot 0 ∧
    ∃ t, exec (fileGetBlock sRoot 0) fullDisk = (.error (.badBlock 0xFFFFFFF7), t) ∧
      pointer t.mem sRoot 0 = 0xFFFFFFF7 := by
  have hn : (fullDisk.words nblocksIx).toNat = 8 := by
    rw [fullDisk_words, if_pos rfl]
    rfl
  have h0 : fullDisk.words.ptr rootIx (0 : Word).toNat = 0 := by
    rw [Words.ptr_direct (by decide)]
    exact (fullDisk_words _).trans (if_neg (by decide))
  have hpanic := fileGetBlock_full (n := 0) hn (by decide) rfl (fun b _ => fullDisk_not_free b) (by decide) h0 (by decide)
  obtain ⟨e, t, hx, rfl, ht⟩ := hpanic.stops
  refine ⟨fullDisk_short, t, hx, ?_⟩
  rw [pointer, if_pos (by decide), sRoot_eq, fDirect_eq, Mem.read32_four_mul]
  exact (congrFun ht _).trans (update_self ..)

end Jos.Fs
