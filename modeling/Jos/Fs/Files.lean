import Jos.Fs.Blocks
import Jos.Fs.Requests
import Mathlib.Tactic.IntervalCases

/-!
# Truncation

`file_free_block` gives one block back, `file_truncate_blocks` those from the
new end of the file to the old one and the indirect block if no pointer in it
is left below the new end. `Cut` says what has been given back so far, which
words this changes, and that everything else stays.
-/

namespace Jos.Fs

open Lib

def Words.Data (V : Volume) (w : Words) (x : Nat) : Prop :=
  ∀ k < V.cover x, w.ptr x k ≠ 0 → ¬ V.home (w.ptr x k).toNat

/-- The blocks in slots `lo` to `hi` have been given back. -/
structure Cut (V : Volume) (x lo hi : Nat) (w w' : Words) : Prop where
  ok : DiskOk V w'
  table : w'.table x = w.table x
  kept : ∀ k < ndirect + nindirect, k < lo ∨ hi ≤ k → w'.ptr x k = w.ptr x k
  gone : ∀ k < ndirect + nindirect, lo ≤ k → k < hi → w'.ptr x k = 0
  freed : ∀ b, InBitmap V.N (bitmapIx b) → (w'.free b = true ↔
    w.free b = true ∨ ∃ k < ndirect + nindirect, lo ≤ k ∧ k < hi ∧ w.ptr x k ≠ 0 ∧ (w.ptr x k).toNat = b)
  frame : ∀ i, ¬ InBitmap V.N i →
    (∀ k < ndirect + nindirect, lo ≤ k → k < hi → w.Ready x k → i ≠ w.slotIx x k) → w' i = w i

namespace Cut

variable {V : Volume} {x n lo mid hi : Nat} {w w' w'' : Words}

theorem refl (h : DiskOk V w) (hempty : ∀ k < ndirect + nindirect, lo ≤ k → k < hi → w.ptr x k = 0) :
    Cut V x lo hi w w where
  ok := h
  table := rfl
  kept _ _ _ := rfl
  gone := hempty
  freed b _ := by
    refine ⟨.inl, ?_⟩
    rintro (hf | ⟨k, hk, hl, hu, hne, -⟩)
    · exact hf
    · exact absurd (hempty k hk hl hu) hne
  frame _ _ _ := rfl

theorem trans (h : Cut V x lo mid w w') (h' : Cut V x mid hi w' w'') (hlm : lo ≤ mid) (hmh : mid ≤ hi) :
    Cut V x lo hi w w'' where
  ok := h'.ok
  table := h'.table.trans h.table
  kept k hk hout := (h'.kept k hk (by omega)).trans (h.kept k hk (by omega))
  gone k hk hl hu := by
    by_cases hkm : k < mid
    · rw [h'.kept k hk (.inl hkm)]
      exact h.gone k hk hl hkm
    · exact h'.gone k hk (by omega) hu
  freed b hb := by
    rw [h'.freed b hb, h.freed b hb]
    constructor
    · rintro ((hf | ⟨k, hk, hl, hu, hne, heq⟩) | ⟨k, hk, hl, hu, hne, heq⟩)
      · exact .inl hf
      · exact .inr ⟨k, hk, hl, by omega, hne, heq⟩
      · rw [h.kept k hk (.inr hl)] at hne heq
        exact .inr ⟨k, hk, by omega, hu, hne, heq⟩
    · rintro (hf | ⟨k, hk, hl, hu, hne, heq⟩)
      · exact .inl (.inl hf)
      · by_cases hkm : k < mid
        · exact .inl (.inr ⟨k, hk, hl, hkm, hne, heq⟩)
        · rw [← h.kept k hk (by omega)] at hne heq
          exact .inr ⟨k, hk, by omega, hu, hne, heq⟩
  frame i hi hout := by
    rw [h'.frame i hi fun k hk hl hu hr => ?_]
    · exact h.frame i hi fun k hk hl hu hr => hout k hk hl (by omega) hr
    · rw [Words.slotIx_congr h.table]
      exact hout k hk (by omega) hu ((Words.ready_congr h.table).1 hr)

theorem one (h : DiskOk V w) (hx : V.file x) (hn : n < V.cover x) (hd : w.Data V x) (h0 : w.ptr x n ≠ 0) :
    Cut V x n (n + 1) w ((w.markFree (w.ptr x n).toNat).setSlot x n 0) := by
  have hn' := Nat.lt_of_lt_of_le hn V.cover_le
  have hr : w.Ready x n := by
    by_contra hr
    exact h0 (Words.ptr_not_ready hr)
  have hheld : Holds V w (.block x n) (w.ptr x n).toNat := ⟨hx, hn, h0, rfl⟩
  have hp := h.owned.pool hheld
  have hclear := h.setSlot_clear hx hn' hr
  have hbit := inBitmap_bitmapIx hp.upper
  have hself := h.ptr_setSlot hx hn' hr (v := 0)
  have hunheld : ∀ r, ¬ Holds V (w.setSlot x n 0) r (w.ptr x n).toNat := by
    intro r hr'
    have hold := (h.holds_setSlot hx hn' hr hr').resolve_right fun hno => hno.2.1 rfl
    obtain rfl := h.owned.inj hold hheld
    exact hr'.2.2.1 hself
  -- The two stores are to different words, so their order does not matter.
  have hcomm : (w.markFree (w.ptr x n).toNat).setSlot x n 0 = (w.setSlot x n 0).markFree (w.ptr x n).toNat := by
    unfold Words.setSlot
    rw [Words.slotIx_congr ((h.same_markFree hp.upper).table x hx)]
    exact Words.update_markFree (h.slot_not_bitmap hx hn' hr) hp.upper
  have hsame := hclear.same_markFree hp.upper
  rw [hcomm]
  refine ⟨hclear.markFree hp.lower hp.upper (hd n hn h0) hunheld, ?_, fun k hk hout => ?_, fun k hk hl hu => ?_,
    fun b hb => ?_, fun i hi hout => ?_⟩
  · rw [hsame.table x hx, h.table_setSlot hx hn' hr hx]
  · rw [hsame.ptr x k hx hk, h.ptr_setSlot_of_ne hx hn' hr hx hk (.inr (by omega))]
  · obtain rfl : k = n := by omega
    rw [hsame.ptr x k hx hk, hself]
  · rw [Words.free_markFree, h.free_setSlot hx hn' hr hb]
    simp only [Bool.or_eq_true, decide_eq_true_eq]
    constructor
    · rintro (hf | rfl)
      · exact .inl hf
      · exact .inr ⟨n, hn', by omega, by omega, h0, rfl⟩
    · rintro (hf | ⟨k, hk, hl, hu, -, heq⟩)
      · exact .inl hf
      · obtain rfl : k = n := by omega
        exact .inr heq.symm
  · refine (Function.update_of_ne ?_ ..).trans (Function.update_of_ne (hout n hn' (by omega) (by omega) hr) ..)
    rintro rfl
    exact hi hbit

theorem data (h : Cut V x lo hi w w') (hd : w.Data V x) : w'.Data V x := by
  intro k hk hne
  have hk' := Nat.lt_of_lt_of_le hk V.cover_le
  by_cases hin : lo ≤ k ∧ k < hi
  · exact absurd (h.gone k hk' hin.1 hin.2) hne
  · rw [h.kept k hk' (by omega)] at hne ⊢
    exact hd k hk hne

end Cut

/-! ## `file_free_block` -/

section
variable {s : Fs} {w : Words} {V : Volume} {x : Nat} {E : Panic → Fs → Prop}

theorem fileBlockWalk_find (h : DiskOk V w) (hw : s.words = w) (hx : V.file x) (n : Word) :
    Triple (fileBlockWalk (4 * x) n false) s
      (fun r t => s = t ∧ ((r = .ok (4 * w.slotIx x n.toNat) ∧ n.toNat < ndirect + nindirect ∧ w.Ready x n.toNat) ∨
        ∃ e, r = .error e ∧ (n.toNat < ndirect + nindirect → ¬ w.Ready x n.toNat))) E := by
  unfold fileBlockWalk
  rw [fIndirect_eq]
  refine .ite (fun hge => .pure ⟨rfl, .inr ⟨_, rfl, fun hlt => absurd hlt (by omega)⟩⟩) fun hlt => ?_
  refine .ite (fun hd => ?_) fun hd => ?_
  · rw [slot_direct w _ hd]
    exact .pure ⟨rfl, .inl ⟨rfl, by omega, .inl hd⟩⟩
  · refine .bind (load_ok hw _) ?_
    rintro _ _ ⟨rfl, rfl⟩
    refine .ite (fun hne => ?_) fun hne => .ite (fun hno => absurd hno Bool.false_ne_true) fun _ => ?_
    · refine .bind (diskaddr_ok h hw hne (h.tablePool hx hne).upper) ?_
      rintro _ _ ⟨rfl, rfl⟩
      refine .pure ⟨rfl, .inl ⟨?_, by omega, .inr hne⟩⟩
      rw [← slot_indirect _ _ hd]
      rfl
    · refine .pure ⟨rfl, .inr ⟨_, rfl, fun _ hr => ?_⟩⟩
      rcases hr with hr | hr
      · exact hd hr
      · exact hne hr

theorem fileFreeBlock_ok (h : DiskOk V w) (hw : s.words = w) (hx : V.file x) (hd : w.Data V x) {n : Word}
    (hn : n.toNat < V.cover x ∨ ndirect + nindirect ≤ n.toNat) :
    Triple (fileFreeBlock (4 * x) n) s (fun _ t => Cut V x n.toNat (n.toNat + 1) w t.words) E := by
  unfold fileFreeBlock
  refine .bind (fileBlockWalk_find h hw hx n) ?_
  rintro _ _ ⟨rfl, ⟨rfl, hlt, hr⟩ | ⟨e, rfl, hno⟩⟩
  · have hcov := hn.resolve_right (by omega)
    refine .bind (load_ok hw _) ?_
    rintro _ _ ⟨rfl, rfl⟩
    rw [← Words.ptr_ready hr]
    refine .ite (fun hne => ?_) fun hne => ?_
    · refine .bind (freeBlock_ok hw hne) ?_
      intro _ t ht
      refine .bind (store_ok ht _ _) ?_
      intro _ u hu
      refine .pure ?_
      have hslot : w.slotIx x n.toNat = (w.markFree (w.ptr x n.toNat).toNat).slotIx x n.toNat :=
        (Words.slotIx_congr ((h.same_markFree (h.owned.pool (r := .block x n.toNat) ⟨hx, hcov, hne, rfl⟩).upper).table x
          hx)).symm
      rw [hu, hslot]
      exact .one h hx hcov hd hne
    · refine .pure (hw.symm ▸ .refl h fun k _ hl hu => ?_)
      obtain rfl : k = n.toNat := by omega
      exact not_not.1 hne
  · refine .pure (hw.symm ▸ .refl h fun k hk hl hu => ?_)
    obtain rfl : k = n.toNat := by omega
    exact Words.ptr_not_ready (hno hk)

/-! ## `file_truncate_blocks` -/

/-- The file has been cut to `lo` blocks from `hi`. -/
structure Truncated (V : Volume) (x lo hi : Nat) (w w' : Words) : Prop where
  ok : DiskOk V w'
  table : w'.table x = if lo ≤ ndirect then 0 else w.table x
  kept : ∀ k < ndirect + nindirect, k < lo ∨ hi ≤ k → k < ndirect ∨ ndirect < lo → w'.ptr x k = w.ptr x k
  gone : ∀ k < ndirect + nindirect, (lo ≤ k ∧ k < hi) ∨ (lo ≤ ndirect ∧ ndirect ≤ k) → w'.ptr x k = 0
  freed : ∀ b, InBitmap V.N (bitmapIx b) → (w'.free b = true ↔ w.free b = true ∨
    (∃ k < ndirect + nindirect, lo ≤ k ∧ k < hi ∧ w.ptr x k ≠ 0 ∧ (w.ptr x k).toNat = b) ∨ (lo ≤ ndirect ∧ w.Tab x b))
  frame : ∀ i, ¬ InBitmap V.N i →
    (∀ k < ndirect + nindirect, lo ≤ k → k < hi → w.Ready x k → i ≠ w.slotIx x k) → (lo ≤ ndirect → i ≠ x + 44) →
    w' i = w i

theorem Cut.truncated {w' : Words} (h : Cut V x lo hi w w') (hkeep : lo ≤ ndirect → w.table x = 0) : Truncated V x lo hi w w' where
  ok := h.ok
  table := by
    rw [h.table]
    split
    · exact hkeep ‹_›
    · rfl
  kept k hk hout _ := h.kept k hk hout
  gone k hk hin := by
    rcases hin with hin | ⟨hle, hge⟩
    · exact h.gone k hk hin.1 hin.2
    · refine Words.ptr_not_ready ?_
      rintro (hlt | hne)
      · omega
      · exact hne (h.table.trans (hkeep hle))
  freed b hb := by
    have hno : ¬ (lo ≤ ndirect ∧ w.Tab x b) := fun ⟨hle, ht⟩ => ht.1 (hkeep hle)
    rw [h.freed b hb, or_iff_left hno]
  frame i hi hout _ := h.frame i hi hout

theorem Cut.truncated_table {w' : Words} (h : Cut V x lo hi w w') (hx : V.file x) (hle : lo ≤ ndirect)
    (hne : w.table x ≠ 0) : Truncated V x lo hi w ((w'.markFree (w.table x).toNat).setTable x 0) := by
  have hne' : w'.table x ≠ 0 := h.table ▸ hne
  have hheld : Holds V w' (.table x) (w.table x).toNat := ⟨hx, hne', by rw [h.table]⟩
  have hp := h.ok.owned.pool hheld
  have hclear := h.ok.setTable_clear hx
  have hhome : ¬ V.home (w.table x).toNat := h.table ▸ h.ok.tables x hx hne'
  have hunheld : ∀ r, ¬ Holds V (w'.setTable x 0) r (w.table x).toNat := by
    intro r hr
    obtain ⟨hold, hno⟩ := h.ok.holds_setTable_clear hx hr
    exact hno (h.ok.owned.inj hold hheld)
  have hcomm : (w'.markFree (w.table x).toNat).setTable x 0 = (w'.setTable x 0).markFree (w.table x).toNat :=
    Words.update_markFree (Volume.field_not_bitmap hx (by omega)) hp.upper
  have hsame := hclear.same_markFree hp.upper
  have htab := DiskOk.table_setTable w' x 0
  rw [hcomm]
  refine ⟨hclear.markFree hp.lower hp.upper hhome hunheld, ?_, fun k hk hout hd => ?_, fun k hk hin => ?_,
    fun b hb => ?_, fun i hi hout h44 => ?_⟩
  · rw [hsame.table x hx, htab, if_pos hle]
  · rw [hsame.ptr x k hx hk, h.ok.ptr_setTable_direct hx hx (by omega), h.kept k hk hout]
  · rw [hsame.ptr x k hx hk]
    by_cases hkd : k < ndirect
    · rw [h.ok.ptr_setTable_direct hx hx hkd]
      exact h.gone k hk (by omega) (by omega)
    · exact h.ok.ptr_setTable_clear hx (by omega)
  · rw [Words.free_markFree, h.ok.free_setTable hx hb, Bool.or_eq_true, h.freed b hb, decide_eq_true_eq]
    have htab : lo ≤ ndirect ∧ w.Tab x b ↔ b = (w.table x).toNat := ⟨fun ht => ht.2.2, fun heq => ⟨hle, hne, heq⟩⟩
    rw [htab, or_assoc]
  · refine (Function.update_of_ne ?_ ..).trans ((Function.update_of_ne (h44 hle) ..).trans (h.frame i hi hout))
    rintro rfl
    exact hi (inBitmap_bitmapIx hp.upper)

theorem fileTruncateBlocks_ok (h : DiskOk V w) (hw : s.words = w) (hx : V.file x) (hd : w.Data V x) {size : Word}
    (hcov : (nblocksOf (w (x + 32))).toNat ≤ V.cover x ∨ V.cover x = ndirect + nindirect) :
    Triple (fileTruncateBlocks (4 * x) size) s
      (fun _ t => Truncated V x (nblocksOf size).toNat (nblocksOf (w (x + 32))).toNat w t.words) E := by
  unfold fileTruncateBlocks
  rw [fSize_eq, fIndirect_eq]
  refine .bind (load_ok hw _) ?_
  rintro _ _ ⟨rfl, rfl⟩
  have hold := (nblocksOf (w (x + 32))).isLt
  generalize (nblocksOf size).toNat = lo
  generalize (nblocksOf (w (x + 32))).toNat = hi at hcov hold ⊢
  refine .bind (Q := fun _ t => Cut V x lo hi w t.words) ?_ ?_
  · have hloop : Triple ((List.range' lo (hi - lo)).forM fun bno => do let _ ← fileFreeBlock (4 * x) (BitVec.ofNat 32 bno)) s
        (fun _ t => Cut V x lo (lo + (hi - lo)) w t.words) E := by
      have hstart : Cut V x lo lo w s.words := hw.symm ▸ Cut.refl h fun k _ hl hu => absurd hl (by omega)
      refine .forM_range' (I := fun j (t : Fs) => Cut V x lo j w t.words) hstart fun j t hl hu ht => ?_
      have hj : (BitVec.ofNat 32 j).toNat = j := by
        rw [BitVec.toNat_ofNat, Nat.mod_eq_of_lt (by omega)]
      refine .bind (fileFreeBlock_ok ht.ok rfl hx (ht.data hd) (by omega)) fun _ u hu' => .pure ?_
      rw [hj] at hu'
      exact ht.trans hu' hl (by omega)
    refine hloop.imp (fun _ t ht => ?_)
    by_cases hle : lo ≤ hi
    · rwa [show lo + (hi - lo) = hi by omega] at ht
    · -- Nothing is freed when the size grows.
      rw [show lo + (hi - lo) = lo by omega] at ht
      exact {
        ok := ht.ok
        table := ht.table
        kept k hk _ := ht.kept k hk (by omega)
        gone k hk hl hu := absurd hl (by omega)
        freed b hb := by
          rw [ht.freed b hb]
          constructor
          · rintro (hf | ⟨k, -, hl, hu, -⟩)
            · exact .inl hf
            · exact absurd hl (by omega)
          · rintro (hf | ⟨k, -, hl, hu, -⟩)
            · exact .inl hf
            · exact absurd hl (by omega)
        frame i hi hout := ht.frame i hi fun k _ hl hu => absurd hl (by omega) }
  · intro _ t ht
    refine .bind (load_ok rfl _) ?_
    rintro _ _ ⟨rfl, rfl⟩
    refine .ite (fun ⟨hle, hne⟩ => ?_) fun hno => .pure (ht.truncated fun hle => ?_)
    · have htab : t.words (x + 44) = w.table x := ht.table
      rw [htab] at hne ⊢
      refine .bind (freeBlock_ok rfl hne) ?_
      intro _ u hu
      refine (store_ok hu _ _).imp (fun _ v hv => ?_)
      rw [hv]
      exact ht.truncated_table hx hle hne
    · by_contra hne
      exact hno ⟨hle, fun h0 => hne (ht.table.symm.trans h0)⟩

/-! ## `file_set_size` -/

/-- The file has a new size, and has been cut to it if that is smaller. -/
def Resized (V : Volume) (x : Nat) (size : Word) (w w' : Words) : Prop :=
  ∃ u, w' = Function.update u (x + 32) size ∧ DiskOk V u ∧
    if size.toInt < (w (x + 32)).toInt then Truncated V x (nblocksOf size).toNat (nblocksOf (w (x + 32))).toNat w u
    else u = w

theorem flush_field (hx : V.file x) : Triple (flushBlock (4 * x)) s (fun _ t => s = t) E := by
  have hon := Volume.field_onDisk hx (k := 0) (by omega)
  have hfit := V.fits
  unfold OnDisk blockIx at hon
  unfold blksize disksize at hfit
  exact flushBlock_ok (by omega) (by omega)

theorem fileSetSize_ok (h : DiskOk V w) (hw : s.words = w) (hx : V.file x) (hd : w.Data V x) {size : Word}
    (hcov : (nblocksOf (w (x + 32))).toNat ≤ V.cover x ∨ V.cover x = ndirect + nindirect) :
    Triple (fileSetSize (4 * x) size) s (fun r t => r = 0 ∧ Resized V x size w t.words) E := by
  unfold fileSetSize
  rw [fSize_eq]
  refine .bind (load_ok hw _) ?_
  rintro _ _ ⟨rfl, rfl⟩
  refine have hrest : ∀ t : Fs, DiskOk V t.words → (if size.toInt < (w (x + 32)).toInt then
      Truncated V x (nblocksOf size).toNat (nblocksOf (w (x + 32))).toNat w t.words else t.words = w) →
      Triple _ t _ _ := ?_
    .ite (fun hlt => .bind (fileTruncateBlocks_ok h hw hx hd hcov) fun _ t ht =>
      hrest t ht.ok ((if_pos hlt).symm ▸ ht)) fun hge => hrest s (hw.symm ▸ h) ((if_neg hge).symm ▸ hw)
  intro t hok ht
  refine .bind (store_ok rfl _ _) ?_
  intro _ u hu
  refine .bind (flush_field hx) ?_
  rintro _ _ rfl
  exact .pure ⟨rfl, _, hu, hok, ht⟩

end

def blocksFor (n : Nat) : Nat := (n + (blksize - 1)) / blksize

theorem toNat_nblocksOf {size : Word} (h : size.toNat ≤ maxfilesize) : (nblocksOf size).toNat = blocksFor size.toNat := by
  unfold maxfilesize ndirect nindirect blksize at h
  unfold nblocksOf blocksFor blksize
  have hadd : (size + 4096#32 - 1#32).toNat = size.toNat + 4095 := by
    bv_omega
  rw [toNat_sdiv_of_lt (by omega), hadd]

def Fs.byteAt (s : Fs) (x q : Nat) : BitVec 8 := s.mem (4 * blockIx (s.words.ptr x (q / blksize)).toNat + q % blksize)

theorem byteAt_congr {s t : Fs} (hp : t.words.ptr x (q / blksize) = s.words.ptr x (q / blksize))
    (hw : ∀ i, InBlock (s.words.ptr x (q / blksize)).toNat i → t.words i = s.words i) : t.byteAt x q = s.byteAt x q := by
  unfold Fs.byteAt
  rw [hp]
  refine Mem.byte_of_words (hw _ ?_)
  have hmod := Nat.mod_lt q (show 0 < blksize by decide)
  unfold InBlock
  unfold blksize at *
  omega

/-- What truncation to `newsize` does to a file of `hi` blocks, of which `lo` stay. -/
structure TailFreed (V : Volume) (x : Nat) (newsize : Word) (lo hi : Nat) (s t : Fs) : Prop where
  size : t.words (x + 32) = newsize
  -- Which blocks become free, each from the one slot that held it in use.
  freed : ∀ b, InBitmap V.N (bitmapIx b) → (t.words.free b = true ↔ s.words.free b = true ∨
    (∃ k, lo ≤ k ∧ k < hi ∧ s.words.ptr x k ≠ 0 ∧ (s.words.ptr x k).toNat = b) ∨ (lo ≤ ndirect ∧ s.words.Tab x b))
  inUse : ∀ k < hi, s.words.ptr x k ≠ 0 → s.words.free (s.words.ptr x k).toNat = false
  once : ∀ k < hi, s.words.ptr x k ≠ 0 → ∀ k' < hi, s.words.ptr x k' = s.words.ptr x k → k' = k
  onceTable : ∀ k < hi, s.words.ptr x k ≠ 0 → ¬ s.words.Tab x (s.words.ptr x k).toNat
  -- Which pointers are cleared.
  gone : ∀ k, lo ≤ k → k < hi → t.words.ptr x k = 0
  table : t.words.table x = if lo ≤ ndirect then 0 else s.words.table x
  -- What stays.
  kept : ∀ k < lo, t.words.ptr x k = s.words.ptr x k
  bytes : ∀ q < newsize.toNat, s.words.ptr x (q / blksize) ≠ 0 → t.byteAt x q = s.byteAt x q
  rest : ∀ i, ¬ InBitmap V.N i → i ≠ x + 32 → (lo ≤ ndirect → i ≠ x + 44) →
    (∀ k, lo ≤ k → k < hi → s.words.Ready x k → i ≠ s.words.slotIx x k) → t.words i = s.words i

theorem blocksFor_mono (h : m ≤ n) : blocksFor m ≤ blocksFor n := by
  unfold blocksFor blksize
  omega

theorem div_lt_blocksFor (h : q < n) : q / blksize < blocksFor n := by
  unfold blocksFor blksize
  omega

theorem Truncated.tailFreed {V : Volume} {s t : Fs} {u : Words} (hcut : Truncated V x lo hi s.words u)
    (ht : t.words = Function.update u (x + 32) newsize) (hok : DiskOk V s.words) (hx : V.file x)
    (hd : s.words.Data V x) (hle : lo ≤ hi) (hcov : hi ≤ V.cover x) (hlo : blocksFor newsize.toNat ≤ lo) :
    TailFreed V x newsize lo hi s t := by
  have hcap := @V.cover_le x
  have hsame : SameFiles V u t.words := ht ▸ hcut.ok.same_field hx (by omega)
  have hheld : ∀ k < hi, s.words.ptr x k ≠ 0 → Holds V s.words (.block x k) (s.words.ptr x k).toNat :=
    fun k hk hne => ⟨hx, by omega, hne, rfl⟩
  have hkept : ∀ k < lo, t.words.ptr x k = s.words.ptr x k := by
    intro k hk
    rw [hsame.ptr x k hx (by omega), hcut.kept k (by omega) (.inl hk) (by omega)]
  have hrest : ∀ i, ¬ InBitmap V.N i → i ≠ x + 32 → (lo ≤ ndirect → i ≠ x + 44) →
      (∀ k, lo ≤ k → k < hi → s.words.Ready x k → i ≠ s.words.slotIx x k) → t.words i = s.words i := by
    intro i hb h32 h44 hslot
    rw [ht, Function.update_of_ne h32]
    exact hcut.frame i hb (fun k _ hl hu hr => hslot k hl hu hr) h44
  refine ⟨?_, fun b hb => ?_, fun k hk hne => (hok.owned.pool (hheld k hk hne)).inUse, fun k hk hne k' hk' heq => ?_,
    fun k hk hne htab => ?_, fun k hl hu => ?_, ?_, hkept, fun q hq hne => ?_, hrest⟩
  · rw [ht, Function.update_self]
  · rw [ht, Words.free_update (Volume.field_not_bitmap hx (by omega)) hb, hcut.freed b hb]
    refine or_congr_right (or_congr_left ?_)
    exact ⟨fun ⟨k, _, hk⟩ => ⟨k, hk⟩, fun ⟨k, hl, hu, hk⟩ => ⟨k, by omega, hl, hu, hk⟩⟩
  · have hsame' := hok.owned.inj (heq ▸ hheld k' hk' (heq ▸ hne)) (hheld k hk hne)
    exact (Holder.block.inj hsame').2
  · have hsame' := hok.owned.inj (hheld k hk hne)
      (show Holds V s.words (.table x) _ from ⟨hx, htab.1, htab.2.symm⟩)
    cases hsame'
  · rw [hsame.ptr x k hx (by omega)]
    exact hcut.gone k (by omega) (.inl ⟨hl, hu⟩)
  · rw [hsame.table x hx, hcut.table]
  · have hk : q / blksize < lo := Nat.lt_of_lt_of_le (div_lt_blocksFor hq) hlo
    have hplain := Plain.of_block hok (hheld _ (by omega) hne) (hd _ (by omega) hne)
    refine byteAt_congr (hkept _ hk) fun i hi => hrest i (hplain.not_bitmap hi) ?_ (fun _ => ?_) fun k hl hu hr => ?_
    · rintro rfl
      exact hplain.field_not hx (by omega) hi
    · rintro rfl
      exact hplain.field_not hx (by omega) hi
    · rintro rfl
      exact hplain.slot_not hx (by omega) hr hi

theorem truncation_frees_tail {V : Volume} {s : Fs} {x : Nat} {newsize : Word} (hok : DiskOk V s.words)
    (hx : V.file x) (hd : s.words.Data V x) (hcov : blocksFor (s.words (x + 32)).toNat ≤ V.cover x)
    (hmax : (s.words (x + 32)).toNat ≤ maxfilesize) (hnew : newsize.toNat < (s.words (x + 32)).toNat) :
    ∃ t, exec (fileSetSize (4 * x) newsize) s = (.ok 0, t) ∧
      TailFreed V x newsize (blocksFor newsize.toNat) (blocksFor (s.words (x + 32)).toNat) s t := by
  have hold := toNat_nblocksOf hmax
  have hlow : (nblocksOf newsize).toNat = blocksFor newsize.toNat := toNat_nblocksOf (by omega)
  have hlt : newsize.toInt < (s.words (x + 32)).toInt := by
    unfold maxfilesize ndirect nindirect blksize at hmax
    rw [toInt_of_lt (by omega), toInt_of_lt (by omega)]
    omega
  obtain ⟨r, t, hx', rfl, u, ht, -, hcut⟩ :=
    (fileSetSize_ok (E := fun _ _ => False) hok rfl hx hd (.inl (by omega))).returns
  rw [if_pos hlt, hold, hlow] at hcut
  exact ⟨t, hx', hcut.tailFreed ht hok hx hd (blocksFor_mono (by omega)) hcov (Nat.le_refl _)⟩

/-! ## A small disk -/

/-- A disk of 8 blocks, with all pointers of the root directory's file looked after. -/
def rootVolume : Volume where
  N := 8
  fits := by decide
  room := by decide
  file x := x = rootIx
  home b := b = 1
  cover _ := ndirect + nindirect
  homeRange h := .inl h
  inHome := by
    rintro x rfl
    exact ⟨1, 2, rfl, rfl, by decide, fun _ => Nat.le_refl _⟩
  apart := by
    rintro x y rfl rfl hne
    exact absurd rfl hne
  cover_le := Nat.le_refl _

/-- That file has 5000 bytes in blocks 3 and 4, and blocks 5 to 7 are free. -/
def twoBlocks : Fs where
  mem := .ofWords fun i =>
    if i = nblocksIx then 8 else if i = rootIx + 32 then 5000 else if i = rootIx + 34 then 3
    else if i = rootIx + 35 then 4 else if i = bitmapIx 0 then 0xE0 else 0
  moves := []
  opentab _ := ⟨0, 0, 0, 0⟩

theorem twoBlocks_words (i : Nat) : twoBlocks.words i =
    if i = nblocksIx then 8 else if i = rootIx + 32 then 5000 else if i = rootIx + 34 then 3
    else if i = rootIx + 35 then 4 else if i = bitmapIx 0 then 0xE0 else 0 :=
  congrFun (Mem.words_ofWords _) i

theorem twoBlocks_table : twoBlocks.words.table rootIx = 0 := (twoBlocks_words _).trans (by decide)

theorem twoBlocks_ptr (hne : twoBlocks.words.ptr rootIx n ≠ 0) : (n = 0 ∨ n = 1) ∧ (twoBlocks.words.ptr rootIx n).toNat = n + 3 := by
  by_cases hn : n < ndirect
  · rw [Words.ptr_direct hn, twoBlocks_words] at hne ⊢
    unfold ndirect at hn
    interval_cases n
    all_goals first
      | exact absurd rfl hne
      | decide
  · refine absurd (Words.ptr_not_ready ?_) hne
    rintro (hlt | ht)
    · exact hn hlt
    · exact ht twoBlocks_table

theorem twoBlocks_free (hb : b < 5) : twoBlocks.words.free b = false := by
  rw [Words.free, twoBlocks_words]
  interval_cases b <;> decide

theorem twoBlocks_ok : DiskOk rootVolume twoBlocks.words where
  nblocks := by
    rw [twoBlocks_words, if_pos rfl]
    rfl
  reserved b hb := twoBlocks_free (Nat.lt_of_lt_of_le hb (by decide))
  homes b hb := by
    obtain rfl : b = 1 := hb
    exact twoBlocks_free (by decide)
  tables x hx ht := by
    obtain rfl : x = rootIx := hx
    exact absurd twoBlocks_table ht
  owned := by
    constructor
    · rintro (⟨x, n⟩ | ⟨x⟩) b ⟨hx, hr⟩
      · obtain rfl : x = rootIx := hx
        obtain ⟨-, hne, rfl⟩ := hr
        obtain ⟨hn, hb⟩ := twoBlocks_ptr hne
        rw [hb]
        have hle : reserved rootVolume.N = 3 := by decide
        have hN : rootVolume.N = 8 := rfl
        exact ⟨by omega, by omega, twoBlocks_free (by omega)⟩
      · obtain rfl : x = rootIx := hx
        exact absurd twoBlocks_table hr.1
    · rintro (⟨x, n⟩ | ⟨x⟩) b (⟨y, k⟩ | ⟨y⟩) ⟨hx, hr⟩ ⟨hy, hr'⟩
      · obtain rfl : x = rootIx := hx
        obtain rfl : y = rootIx := hy
        obtain ⟨-, hne, rfl⟩ := hr
        obtain ⟨-, hne', heq⟩ := hr'
        have hb := (twoBlocks_ptr hne).2
        have hb' := (twoBlocks_ptr hne').2
        congr 1
        omega
      · obtain rfl : y = rootIx := hy
        exact absurd twoBlocks_table hr'.1
      · obtain rfl : x = rootIx := hx
        exact absurd twoBlocks_table hr.1
      · obtain rfl : x = rootIx := hx
        exact absurd twoBlocks_table hr.1

theorem twoBlocks_data : twoBlocks.words.Data rootVolume rootIx := by
  intro k _ hne hhome
  have hb := (twoBlocks_ptr hne).2
  have h1 : (twoBlocks.words.ptr rootIx k).toNat = 1 := hhome
  omega

theorem twoBlocks_size : twoBlocks.words (rootIx + 32) = 5000 := (twoBlocks_words _).trans (by decide)

theorem truncation_frees_tail_two : ∃ t, exec (fileSetSize (4 * rootIx) 1) twoBlocks = (.ok 0, t) ∧
    TailFreed rootVolume rootIx 1 1 2 twoBlocks t := by
  have h := @truncation_frees_tail rootVolume twoBlocks rootIx 1 twoBlocks_ok rfl twoBlocks_data
  rw [twoBlocks_size] at h
  exact h (by decide) (by decide) (by decide)

end Jos.Fs
