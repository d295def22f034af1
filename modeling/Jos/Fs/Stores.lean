import Jos.Fs.Layout

/-!
# What each store does to the files

The server stores into the bitmap, into a field of a file, into a pointer of
a file, or into the data of a block. Each kind keeps `DiskOk` under its own
condition. `Within` says which words an operation on one file may change, and
`Grows` what operations that only add blocks leave alone.
-/

namespace Jos.Fs

open Lib
open Function (update update_comm update_of_ne update_self)

/-! ## Blocks without pointers -/

/-- Block `b` holds neither files nor pointers. -/
structure Plain (V : Volume) (w : Words) (b : Nat) : Prop where
  lower : reserved V.N ≤ b
  upper : b < V.N
  home : ¬ V.home b
  table : ∀ x, V.file x → w.table x ≠ 0 → (w.table x).toNat ≠ b

namespace Plain

variable {V : Volume} {w w' : Words} {x n k c b : Nat}

theorem of_free (h : DiskOk V w) (hu : b < V.N) (hb : w.free b = true) : Plain V w b := by
  refine ⟨?_, hu, fun hh => ?_, fun x hx ht heq => ?_⟩
  · by_contra hlt
    have hres := h.reserved b (by omega)
    simp_all
  · have hin := h.homes b hh
    simp_all
  · exact h.not_free (heq ▸ DiskOk.tableHeld hx ht) hb

theorem of_block (h : DiskOk V w) (hb : Holds V w (.block x n) b) (hh : ¬ V.home b) : Plain V w b where
  lower := (h.owned.pool hb).lower
  upper := (h.owned.pool hb).upper
  home := hh
  table y hy ht heq := by
    have hsame := h.owned.inj hb (heq ▸ DiskOk.tableHeld hy ht)
    simp at hsame

section
variable (h : Plain V w b)
include h

theorem two_lt : 2 < b :=
  Nat.lt_of_lt_of_le (two_lt_reserved h.upper) h.lower

theorem congr (ht : ∀ x, V.file x → w'.table x ≠ 0 → w'.table x = w.table x ∨ (w'.table x).toNat ≠ b) :
    Plain V w' b where
  lower := h.lower
  upper := h.upper
  home := h.home
  table x hx hne := by
    rcases ht x hx hne with heq | hnb
    · rw [heq] at hne ⊢
      exact h.table x hx hne
    · exact hnb

theorem not_bitmap (hi : InBlock b i) : ¬ InBitmap V.N i := hi.not_bitmap h.lower

theorem ne_nblocks (hi : InBlock b i) : i ≠ nblocksIx := by
  have hlow := h.two_lt
  exact hi.ne_nblocks (by omega)

theorem field_not (hx : V.file x) (hk : k < 64) : ¬ InBlock b (x + k) :=
  Volume.field_not_inBlock hx hk h.home

theorem slot_not (hx : V.file x) (hn : n < ndirect + nindirect) (hr : w.Ready x n) : ¬ InBlock b (w.slotIx x n) := by
  obtain ⟨hlt, heq⟩ | ⟨-, ht, hin⟩ := DiskOk.slot_cases w x hn hr
  · rw [heq]
    unfold ndirect at hlt
    exact h.field_not hx (by omega)
  · exact fun hib => h.table x hx ht (hin.unique hib)

end

end Plain

/-! ## What an operation may change -/

def Meta (x i : Nat) : Prop := x + 34 ≤ i ∧ i < x + 45

/-- Only the bitmap, these fields of the file at `x` and the blocks `T` change. -/
def Within (N x : Nat) (T : Nat → Prop) (w w' : Words) : Prop :=
  ∀ i, ¬ InBitmap N i → ¬ Meta x i → (∀ b, T b → ¬ InBlock b i) → w' i = w i

namespace Within

variable {V : Volume} {N x y : Nat} {T T' : Nat → Prop} {w w' w'' : Words}

theorem refl : Within N x T w w := fun _ _ _ _ => rfl

theorem trans (h : Within N x T w w') (h' : Within N x T w' w'') : Within N x T w w'' :=
  fun i hb hm ht => (h' i hb hm ht).trans (h i hb hm ht)

theorem mono (h : Within N x T w w') (hT : ∀ b, T b → T' b) : Within N x T' w w' :=
  fun i hb hm ht => h i hb hm fun b hTb => ht b (hT b hTb)

theorem meta_file (hm : Meta x i) : ∃ k, 34 ≤ k ∧ k < 45 ∧ i = x + k := by
  obtain ⟨hl, hu⟩ := hm
  exact ⟨i - x, by omega, by omega, by omega⟩

theorem attr (h : Within V.N x T w w') (hT : ∀ b, T b → ¬ V.home b) (hx : V.file x) (hy : V.file y) (hk : k < 34) :
    w' (y + k) = w (y + k) := by
  refine h _ (Volume.field_not_bitmap hy (by omega)) (fun hm => ?_) fun b hb =>
    Volume.field_not_inBlock hy (by omega) (hT b hb)
  obtain ⟨c, hl, hu, heq⟩ := meta_file hm
  exact Volume.field_ne hy hx (by omega) (by omega) (.inr (by omega)) heq

theorem other (h : Within V.N x T w w') (hok : DiskOk V w) (hT : ∀ b, T b → ¬ V.home b) (hx : V.file x)
    (hy : V.file y) (hne : y ≠ x) (ht : w.table y ≠ 0 → ¬ T (w.table y).toNat) :
    w'.table y = w.table y ∧ ∀ n < ndirect + nindirect, w'.ptr y n = w.ptr y n := by
  have hfield : ∀ k, 34 ≤ k → k < 45 → w' (y + k) = w (y + k) := by
    intro k _ hk
    refine h _ (Volume.field_not_bitmap hy (by omega)) (fun hm => ?_) fun b hb =>
      Volume.field_not_inBlock hy (by omega) (hT b hb)
    obtain ⟨c, -, hc, heq⟩ := meta_file hm
    exact Volume.field_ne hy hx (by omega) (by omega) (.inl hne) heq
  have htab : w'.table y = w.table y := hfield 44 (by omega) (by omega)
  refine ⟨htab, fun n hn => Words.ptr_congr htab fun hr => ?_⟩
  obtain ⟨hlt, heq⟩ | ⟨-, hnz, hin⟩ := DiskOk.slot_cases w y hn hr
  · rw [heq]
    unfold ndirect at hlt
    exact hfield _ (by omega) (by omega)
  · refine h _ (hin.not_bitmap (hok.tablePool hy hnz).lower) (fun hm => ?_) fun b hb hib => ?_
    · obtain ⟨c, -, hc, heq⟩ := meta_file hm
      exact Volume.field_not_inBlock hx (k := c) (by omega) (hok.tables y hy hnz) (heq ▸ hin)
    · exact ht hnz (hin.unique hib ▸ hb)

end Within

/-- Blocks are only added. -/
structure Grows (V : Volume) (w w' : Words) : Prop where
  table : ∀ x, V.file x → w.table x ≠ 0 → w'.table x = w.table x
  ptr : ∀ x n, V.file x → n < ndirect + nindirect → w.ptr x n ≠ 0 → w'.ptr x n = w.ptr x n
  free : ∀ b < V.N, w'.free b = true → w.free b = true
  clean : ∀ b < V.N, w'.free b = true → ∀ i, InBlock b i → w' i = w i

namespace Grows

variable {V : Volume} {w w' w'' : Words}

theorem refl : Grows V w w := ⟨fun _ _ _ => rfl, fun _ _ _ _ _ => rfl, fun _ _ h => h, fun _ _ _ _ _ => rfl⟩

theorem trans (h : Grows V w w') (h' : Grows V w' w'') : Grows V w w'' where
  table x hx ht := by
    have hfirst := h.table x hx ht
    have hsecond := h'.table x hx
    rw [hfirst] at hsecond
    exact hsecond ht
  ptr x n hx hn hp := by
    have hfirst := h.ptr x n hx hn hp
    have hsecond := h'.ptr x n hx hn
    rw [hfirst] at hsecond
    exact hsecond hp
  free b hb hf := h.free b hb (h'.free b hb hf)
  clean b hb hf i hi := (h'.clean b hb hf i hi).trans (h.clean b hb (h'.free b hb hf) i hi)

end Grows

/-! ## The bitmap -/

namespace Words

def markUsed (w : Words) (b : Nat) : Words :=
  update w (bitmapIx b) (w (bitmapIx b) &&& ~~~(1#32 <<< (b % 32)))

def markFree (w : Words) (b : Nat) : Words :=
  update w (bitmapIx b) (w (bitmapIx b) ||| 1#32 <<< (b % 32))

theorem bit_one_shl (hk : k < 32) (hi : i < 32) : (1#32 <<< k).getLsbD i = decide (i = k) := by
  rw [BitVec.getLsbD_shiftLeft]
  simp only [BitVec.getLsbD_one, hi]
  by_cases h : i = k
  · simp [h]
  · simp only [h, decide_false]
    by_cases h' : i < k
    · simp [h']
    · have hne : i - k ≠ 0 := by omega
      simp [hne]

theorem bitmapIx_inj (h : bitmapIx c = bitmapIx b) : c % 32 = b % 32 ↔ c = b := by
  unfold bitmapIx at h
  omega

theorem free_markUsed (w : Words) (b c : Nat) : (w.markUsed b).free c = (w.free c && decide (c ≠ b)) := by
  unfold free markUsed
  by_cases hix : bitmapIx c = bitmapIx b
  · rw [hix, update_self, BitVec.getLsbD_and, BitVec.getLsbD_not,
      bit_one_shl (Nat.mod_lt _ (by omega)) (Nat.mod_lt _ (by omega))]
    simp [bitmapIx_inj hix, Nat.mod_lt]
  · have hne : c ≠ b := fun h => hix (h ▸ rfl)
    rw [update_of_ne hix]
    simp [hne]

theorem free_markFree (w : Words) (b c : Nat) : (w.markFree b).free c = (w.free c || decide (c = b)) := by
  unfold free markFree
  by_cases hix : bitmapIx c = bitmapIx b
  · rw [hix, update_self, BitVec.getLsbD_or,
      bit_one_shl (Nat.mod_lt _ (by omega)) (Nat.mod_lt _ (by omega))]
    simp [bitmapIx_inj hix]
  · have hne : c ≠ b := fun h => hix (h ▸ rfl)
    rw [update_of_ne hix]
    simp [hne]

theorem free_update_of_ne {w : Words} (h : bitmapIx c ≠ i) :
    Words.free (update w i v) c = w.free c := by
  unfold free
  rw [update_of_ne h]

theorem free_update {w : Words} (hi : ¬ InBitmap N i) (hc : InBitmap N (bitmapIx c)) :
    Words.free (update w i v) c = w.free c := by
  refine free_update_of_ne ?_
  rintro rfl
  exact hi hc

theorem update_markFree {w : Words} (hi : ¬ InBitmap N i) (hb : b < N) :
    update (w.markFree b) i v = markFree (update w i v) b := by
  have hne : i ≠ bitmapIx b := by
    rintro rfl
    exact hi (inBitmap_bitmapIx hb)
  unfold markFree
  rw [update_comm hne, update_of_ne hne.symm]

end Words

namespace DiskOk

variable {V : Volume} {w w' : Words} {x y n k c b : Nat}

section
variable (h : DiskOk V w)
include h

theorem same_bitmap (hi : InBitmap V.N i) : SameFiles V w (update w i v) := by
  refine .of_words h (fun x k hx _ hk => update_of_ne ?_ ..) fun x j hx ht hj => update_of_ne ?_ ..
  · rintro rfl
    exact Volume.field_not_bitmap hx (by omega) hi
  · rintro rfl
    exact hj.not_bitmap (h.tablePool hx ht).lower hi

theorem same_markUsed (hb : b < V.N) : SameFiles V w (w.markUsed b) :=
  h.same_bitmap (inBitmap_bitmapIx hb)

theorem same_markFree (hb : b < V.N) : SameFiles V w (w.markFree b) :=
  h.same_bitmap (inBitmap_bitmapIx hb)

theorem markUsed (hb : b < V.N) : DiskOk V (w.markUsed b) := by
  have hfree : ∀ c, w.free c = false → (w.markUsed b).free c = false := by
    intro c hc
    rw [Words.free_markUsed, hc, Bool.false_and]
  exact (h.same_markUsed hb).diskOk h (update_of_ne (inBitmap_bitmapIx hb).ne_nblocks.symm ..)
    (fun c hc => hfree c (h.reserved c hc)) (fun c hc => hfree c (h.homes c hc)) fun _ c _ hc => hfree c hc

theorem markFree (hl : Fs.reserved V.N ≤ b) (hb : b < V.N) (hh : ¬ V.home b)
    (hu : ∀ r, ¬ Holds V w r b) : DiskOk V (w.markFree b) := by
  have hfree : ∀ c, c ≠ b → w.free c = false → (w.markFree b).free c = false := by
    intro c hne hc
    simp [Words.free_markFree, hc, hne]
  refine (h.same_markFree hb).diskOk h (update_of_ne (inBitmap_bitmapIx hb).ne_nblocks.symm ..)
    (fun c hc => hfree c (by omega) (h.reserved c hc)) (fun c hc => hfree c ?_ (h.homes c hc))
    fun r c hr hc => hfree c ?_ hc
  · rintro rfl
    exact hh hc
  · rintro rfl
    exact hu r hr

theorem grows_markUsed (hb : b < V.N) : Grows V w (w.markUsed b) where
  table x hx _ := (h.same_markUsed hb).table x hx
  ptr x n hx hn _ := (h.same_markUsed hb).ptr x n hx hn
  free c _ hc := by
    rw [Words.free_markUsed, Bool.and_eq_true] at hc
    exact hc.1
  clean c hc hf i hi := by
    rw [Words.free_markUsed, Bool.and_eq_true] at hf
    refine update_of_ne ?_ ..
    rintro rfl
    exact (Plain.of_free h hc hf.1).not_bitmap hi (inBitmap_bitmapIx hb)

end

/-! ## Fields and data -/

theorem same_field (h : DiskOk V w) (hx : V.file x) (hk : k < 34) : SameFiles V w (update w (x + k) v) := by
  refine .of_words h (fun y c hy hc hc' => update_of_ne ?_ ..) fun y i hy ht hi => update_of_ne ?_ ..
  · exact Volume.field_ne hy hx (by omega) (by omega) (.inr (by omega))
  · rintro rfl
    exact Volume.field_not_inBlock hx (by omega) (h.tables y hy ht) hi

theorem field (h : DiskOk V w) (hx : V.file x) (hk : k < 34) : DiskOk V (update w (x + k) v) :=
  (h.same_field hx hk).diskOk_of_free h
    (update_of_ne (Volume.field_ne_nblocks hx (by omega)).symm ..)
    fun _ hc => Words.free_update (Volume.field_not_bitmap hx (by omega)) (inBitmap_bitmapIx hc)

section
variable (h : DiskOk V w) (hb : Plain V w b) (hw : ∀ i, ¬ InBlock b i → w' i = w i)

include h hb hw

-- Words stored into a block that holds neither files nor pointers.

theorem same_data : SameFiles V w w' := by
  refine .of_words h (fun x k hx _ hk => hw _ (hb.field_not hx (by omega))) fun x i hx ht hi => hw _ fun hib => ?_
  exact hb.table x hx ht (hi.unique hib)

theorem free_data (hc : InBitmap V.N (bitmapIx c)) : w'.free c = w.free c := by
  unfold Words.free
  rw [hw _ fun hi => hb.not_bitmap hi hc]

theorem data : DiskOk V w' :=
  (same_data h hb hw).diskOk_of_free h (hw _ fun hi => hb.ne_nblocks hi rfl) fun _ hc => free_data h hb hw (inBitmap_bitmapIx hc)

end

end DiskOk

/-! ## Pointers -/

def Words.setSlot (w : Words) (x n : Nat) (v : Word) : Words := update w (w.slotIx x n) v

namespace DiskOk

variable {V : Volume} {w : Words} {x y n k b : Nat} {v : Word}

section
variable (h : DiskOk V w) (hx : V.file x) (hn : n < ndirect + nindirect) (hr : w.Ready x n)

include h hx hn hr

theorem table_setSlot (hy : V.file y) : (w.setSlot x n v).table y = w.table y :=
  update_of_ne (h.slot_ne_field hx hy hn hr (.inr rfl)).symm ..

theorem ptr_setSlot : (w.setSlot x n v).ptr x n = v := by
  have ht := h.table_setSlot hx hn hr (v := v) hx
  rw [Words.ptr_ready ((Words.ready_congr ht).2 hr), Words.slotIx_congr ht]
  exact update_self ..

theorem ptr_setSlot_of_ne (hy : V.file y) (hk : k < ndirect + nindirect) (hne : y ≠ x ∨ k ≠ n) :
    (w.setSlot x n v).ptr y k = w.ptr y k :=
  Words.ptr_congr (h.table_setSlot hx hn hr hy) fun hrk =>
    update_of_ne (h.slot_ne hy hx hk hn hrk hr hne) ..

theorem free_setSlot (hb : InBitmap V.N (bitmapIx b)) : (w.setSlot x n v).free b = w.free b :=
  Words.free_update (h.slot_not_bitmap hx hn hr) hb

theorem setSlot_plain (hb : Plain V w b) (hi : InBlock b i) : w.setSlot x n v i = w i := by
  refine update_of_ne ?_ ..
  rintro rfl
  exact hb.slot_not hx hn hr hi

theorem holds_setSlot (hh : Holds V (w.setSlot x n v) r b) :
    Holds V w r b ∨ (r = .block x n ∧ v ≠ 0 ∧ b = v.toNat) := by
  cases r with
  | block y k =>
    obtain ⟨hy, hk, hne, heq⟩ := hh
    by_cases hyk : y = x ∧ k = n
    · obtain ⟨rfl, rfl⟩ := hyk
      rw [h.ptr_setSlot hx hn hr] at hne heq
      exact .inr ⟨rfl, hne, heq.symm⟩
    · rw [h.ptr_setSlot_of_ne hx hn hr hy (Nat.lt_of_lt_of_le hk V.cover_le) (by omega)] at hne heq
      exact .inl ⟨hy, hk, hne, heq⟩
  | table y =>
    obtain ⟨hy, hne, heq⟩ := hh
    rw [h.table_setSlot hx hn hr hy] at hne heq
    exact .inl ⟨hy, hne, heq⟩

theorem setSlot (ho : Owned (Pool V.N w) (Holds V (w.setSlot x n v))) : DiskOk V (w.setSlot x n v) where
  nblocks := by
    rw [Words.setSlot, update_of_ne (h.slot_ne_nblocks hx hn hr).symm]
    exact h.nblocks
  reserved b hb := (h.free_setSlot hx hn hr (inBitmap_bitmapIx (Nat.lt_of_lt_of_le hb V.room))).trans (h.reserved b hb)
  homes b hb := (h.free_setSlot hx hn hr (inBitmap_bitmapIx (Volume.home_lt hb))).trans (h.homes b hb)
  tables y hy := by
    rw [h.table_setSlot hx hn hr hy]
    exact h.tables y hy
  owned := ho.grow fun b hb => ⟨hb.lower, hb.upper, (h.free_setSlot hx hn hr (inBitmap_bitmapIx hb.upper)).trans hb.inUse⟩

theorem setSlot_take (hv : Pool V.N w v.toNat) (hu : ∀ r, ¬ Holds V w r v.toNat) : DiskOk V (w.setSlot x n v) := by
  refine h.setSlot hx hn hr (h.owned.take hv hu (r := .block x n) fun r b hh => ?_)
  exact (h.holds_setSlot hx hn hr hh).imp_right fun ⟨hr, _, hb⟩ => ⟨hr, hb⟩

theorem setSlot_clear : DiskOk V (w.setSlot x n 0) := by
  refine h.setSlot hx hn hr (h.owned.restrict (fun r b hh => ?_) fun _ _ _ hp => hp)
  exact (h.holds_setSlot hx hn hr hh).resolve_right fun ⟨_, hne, _⟩ => hne rfl

theorem grows_setSlot (h0 : w.ptr x n = 0) : Grows V w (w.setSlot x n v) where
  table y hy _ := h.table_setSlot hx hn hr hy
  ptr y k hy hk hne := by
    refine h.ptr_setSlot_of_ne hx hn hr hy hk ?_
    by_contra hyk
    simp only [not_or, not_not] at hyk
    obtain ⟨rfl, rfl⟩ := hyk
    exact hne h0
  free b hb hf := by rwa [h.free_setSlot hx hn hr (inBitmap_bitmapIx hb)] at hf
  clean b hb hf i hi := by
    rw [h.free_setSlot hx hn hr (inBitmap_bitmapIx hb)] at hf
    exact h.setSlot_plain hx hn hr (Plain.of_free h hb hf) hi

end

theorem within_setSlot (hn : n < ndirect + nindirect) (hr : w.Ready x n) :
    Within V.N x (fun b => w.table x ≠ 0 ∧ b = (w.table x).toNat) w (w.setSlot x n v) := by
  intro i _ hm hT
  refine update_of_ne ?_ ..
  rintro rfl
  obtain ⟨hlt, heq⟩ | ⟨-, ht, hin⟩ := slot_cases w x hn hr
  · unfold ndirect at hlt
    exact hm ⟨by omega, by omega⟩
  · exact hT _ ⟨ht, rfl⟩ hin

end DiskOk

/-! ## Indirect blocks -/

def Words.setTable (w : Words) (x : Nat) (v : Word) : Words := update w (x + 44) v

namespace DiskOk

variable {V : Volume} {w : Words} {x y n k b : Nat} {v : Word}

theorem table_setTable (w : Words) (x : Nat) (v : Word) : (w.setTable x v).table x = v := update_self ..

section
variable (h : DiskOk V w) (hx : V.file x)

include h hx

theorem table_setTable_of_ne (hy : V.file y) (hne : y ≠ x) : (w.setTable x v).table y = w.table y :=
  update_of_ne (Volume.field_ne hy hx (by omega) (by omega) (.inl hne)) ..

theorem ptr_setTable_direct (hy : V.file y) (hk : k < ndirect) : (w.setTable x v).ptr y k = w.ptr y k := by
  rw [Words.ptr_direct hk, Words.ptr_direct hk]
  unfold ndirect at hk
  exact update_of_ne (Volume.field_ne hy hx (by omega) (by omega) (.inr (by omega))) ..

theorem ptr_setTable_of_ne (hy : V.file y) (hne : y ≠ x) (hk : k < ndirect + nindirect) :
    (w.setTable x v).ptr y k = w.ptr y k :=
  Words.ptr_congr (h.table_setTable_of_ne hx hy hne) fun hr =>
    update_of_ne (h.slot_ne_field hy hx hk hr (.inr rfl)) ..

theorem free_setTable (hb : InBitmap V.N (bitmapIx b)) : (w.setTable x v).free b = w.free b :=
  Words.free_update (Volume.field_not_bitmap hx (by omega)) hb

theorem setTable_plain (hb : Plain V w b) (hi : InBlock b i) : w.setTable x v i = w i := by
  refine update_of_ne ?_ ..
  rintro rfl
  exact hb.field_not hx (by omega) hi

theorem ptr_setTable_zero (h0 : w.table x = 0) (hb : Plain V w v.toNat) (hz : w.Zero v.toNat)
    (hk : k < ndirect + nindirect) : (w.setTable x v).ptr x k = w.ptr x k := by
  by_cases hkd : k < ndirect
  · exact h.ptr_setTable_direct hx hx hkd
  · rw [Words.ptr_not_ready (w := w) (by simp [Words.Ready, hkd, h0])]
    unfold Words.ptr
    split
    · rename_i hr
      obtain ⟨hlt, -⟩ | ⟨-, -, hin⟩ := slot_cases _ x hk hr
      · exact absurd hlt hkd
      · rw [table_setTable] at hin
        rw [h.setTable_plain hx hb hin]
        exact hz _ hin
    · rfl

theorem setTable (hh : v ≠ 0 → ¬ V.home v.toNat) (ho : Owned (Pool V.N w) (Holds V (w.setTable x v))) :
    DiskOk V (w.setTable x v) where
  nblocks := by
    rw [Words.setTable, update_of_ne (Volume.field_ne_nblocks hx (by omega)).symm]
    exact h.nblocks
  reserved b hb := (h.free_setTable hx (inBitmap_bitmapIx (Nat.lt_of_lt_of_le hb V.room))).trans (h.reserved b hb)
  homes b hb := (h.free_setTable hx (inBitmap_bitmapIx (Volume.home_lt hb))).trans (h.homes b hb)
  tables y hy := by
    by_cases hyx : y = x
    · subst hyx
      rw [table_setTable]
      exact hh
    · rw [h.table_setTable_of_ne hx hy hyx]
      exact h.tables y hy
  owned := ho.grow fun b hb => ⟨hb.lower, hb.upper, (h.free_setTable hx (inBitmap_bitmapIx hb.upper)).trans hb.inUse⟩

theorem setTable_take (h0 : w.table x = 0) (hv : Pool V.N w v.toNat) (hb : Plain V w v.toNat)
    (hu : ∀ r, ¬ Holds V w r v.toNat) (hz : w.Zero v.toNat) : DiskOk V (w.setTable x v) := by
  refine h.setTable hx (fun _ => hb.home) (h.owned.take hv hu (r := .table x) fun r b hh => ?_)
  cases r with
  | block y k =>
    obtain ⟨hy, hk, hne, heq⟩ := hh
    have hk' := Nat.lt_of_lt_of_le hk V.cover_le
    have hp : (w.setTable x v).ptr y k = w.ptr y k := by
      by_cases hyx : y = x
      · subst hyx
        exact h.ptr_setTable_zero hx h0 hb hz hk'
      · exact h.ptr_setTable_of_ne hx hy hyx hk'
    rw [hp] at hne heq
    exact .inl ⟨hy, hk, hne, heq⟩
  | table y =>
    obtain ⟨hy, hne, heq⟩ := hh
    by_cases hyx : y = x
    · subst hyx
      rw [table_setTable] at heq
      exact .inr ⟨rfl, heq.symm⟩
    · rw [h.table_setTable_of_ne hx hy hyx] at hne heq
      exact .inl ⟨hy, hne, heq⟩

theorem ptr_setTable_clear (hk : ndirect ≤ k) : (w.setTable x 0).ptr x k = 0 := by
  refine Words.ptr_not_ready ?_
  rintro (hlt | hne)
  · omega
  · exact hne (table_setTable w x 0)

theorem holds_setTable_clear (hh : Holds V (w.setTable x 0) r b) : Holds V w r b ∧ r ≠ .table x := by
  cases r with
  | block y k =>
    obtain ⟨hy, hk, hne, heq⟩ := hh
    have hp : (w.setTable x 0).ptr y k = w.ptr y k := by
      by_cases hyx : y = x
      · subst hyx
        by_cases hkd : k < ndirect
        · exact h.ptr_setTable_direct hx hx hkd
        · exact absurd (h.ptr_setTable_clear hx (by omega)) hne
      · exact h.ptr_setTable_of_ne hx hy hyx (Nat.lt_of_lt_of_le hk V.cover_le)
    rw [hp] at hne heq
    exact ⟨⟨hy, hk, hne, heq⟩, by simp⟩
  | table y =>
    obtain ⟨hy, hne, heq⟩ := hh
    by_cases hyx : y = x
    · subst hyx
      exact absurd (table_setTable w y 0) hne
    · rw [h.table_setTable_of_ne hx hy hyx] at hne heq
      exact ⟨⟨hy, hne, heq⟩, by simpa using hyx⟩

theorem setTable_clear : DiskOk V (w.setTable x 0) :=
  h.setTable hx (fun hne => absurd rfl hne)
    (h.owned.restrict (fun _ _ hh => (h.holds_setTable_clear hx hh).1) fun _ _ _ hp => hp)

theorem grows_setTable (h0 : w.table x = 0) (hb : Plain V w v.toNat) (hz : w.Zero v.toNat) :
    Grows V w (w.setTable x v) where
  table y hy ht := h.table_setTable_of_ne hx hy fun hyx => ht (hyx ▸ h0)
  ptr y k hy hk _ := by
    by_cases hyx : y = x
    · subst hyx
      exact h.ptr_setTable_zero hx h0 hb hz hk
    · exact h.ptr_setTable_of_ne hx hy hyx hk
  free b hb hf := by rwa [h.free_setTable hx (inBitmap_bitmapIx hb)] at hf
  clean b hb hf i hi := by
    rw [h.free_setTable hx (inBitmap_bitmapIx hb)] at hf
    exact h.setTable_plain hx (Plain.of_free h hb hf) hi

end

theorem within_setTable {T : Nat → Prop} : Within V.N x T w (w.setTable x v) := by
  intro i _ hm _
  refine update_of_ne ?_ ..
  rintro rfl
  exact hm ⟨by omega, by omega⟩

theorem within_bitmap {T : Nat → Prop} (hi : InBitmap V.N i) : Within V.N x T w (update w i v) := by
  intro j hj _ _
  refine update_of_ne ?_ ..
  rintro rfl
  exact hj hi

end DiskOk

end Jos.Fs
