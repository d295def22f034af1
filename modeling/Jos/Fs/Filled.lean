import Jos.Fs.Files
import Mathlib.Order.Interval.Finset.Nat

/-!
# Slots that have been filled

A read or a write of a range gives the file a block in every slot of the
range. `Filled` says which blocks it has got and what that took from the free
blocks, `Touched` which words this changes. Changes of the data of the file's
blocks and of memory off the disk keep it.
-/

namespace Jos.Fs

open Lib

namespace Words

def holes (w : Words) (x lo hi : Nat) : Nat := ((Finset.Ico lo hi).filter fun k => w.ptr x k = 0).card

def want (w : Words) (x lo hi : Nat) : Nat := w.holes x lo hi + if lo < hi ∧ ¬ w.Ready x (hi - 1) then 1 else 0

theorem holes_split (w : Words) (x : Nat) (h : lo ≤ mid) (h' : mid ≤ hi) :
    w.holes x lo hi = w.holes x lo mid + w.holes x mid hi := by
  unfold holes
  rw [← Finset.Ico_union_Ico_eq_Ico h h', Finset.filter_union]
  refine Finset.card_union_of_disjoint ?_
  refine Finset.disjoint_filter_filter ?_
  exact Finset.Ico_disjoint_Ico_consecutive lo mid hi

theorem holes_congr {w w' : Words} (h : ∀ k, lo ≤ k → k < hi → w'.ptr x k = w.ptr x k) :
    w'.holes x lo hi = w.holes x lo hi := by
  unfold holes
  congr 1
  refine Finset.filter_congr fun k hk => ?_
  rw [Finset.mem_Ico] at hk
  rw [h k hk.1 hk.2]

theorem holes_one (w : Words) (x n : Nat) : w.holes x n (n + 1) = if w.ptr x n = 0 then 1 else 0 := by
  unfold holes
  rw [Nat.Ico_succ_singleton, Finset.filter_singleton]
  split <;> rfl

theorem want_one (w : Words) (x n : Nat) : w.want x n (n + 1) = w.need x n := by
  unfold want need
  rw [holes_one, Nat.add_sub_cancel, Nat.add_comm]
  by_cases hr : w.Ready x n
  · simp [hr]
  · simp [hr]

theorem want_empty (w : Words) (x n : Nat) : w.want x n n = 0 := by
  simp [want, holes]

end Words

section
variable (h : Grows V w w') (hx : V.file x)
include h hx

theorem Grows.ready (hr : w.Ready x k) : w'.Ready x k := by
  rcases hr with hr | hr
  · exact .inl hr
  · exact .inr ((h.table x hx hr).symm ▸ hr)

theorem Grows.slotIx (hr : w.Ready x k) : w'.slotIx x k = w.slotIx x k := by
  rcases hr with hr | hr
  · unfold Words.slotIx
    rw [if_pos hr, if_pos hr]
  · exact Words.slotIx_congr (h.table x hx hr)

theorem Grows.table_zero (h0 : w'.table x = 0) : w.table x = 0 := by
  by_contra hne
  exact hne ((h.table x hx hne).symm.trans h0)

end

theorem Grows.cleaned (h : Grows V w w') (hc : w.Clean V.N) : w'.Clean V.N := by
  intro b hb hf i hi
  rw [h.clean b hb hf i hi]
  exact hc b hb (h.free b hb hf) i hi

theorem Words.ready_iff_lt {w : Words} (h0 : w.table x = 0) : w.Ready x k ↔ k < ndirect :=
  or_iff_left (not_not.2 h0)

theorem Words.ready_of_table {w : Words} (h0 : w.table x ≠ 0) : w.Ready x k := .inr h0

theorem Words.ready_of_ptr {w : Words} (h : w.ptr x k ≠ 0) : w.Ready x k := by
  by_contra hr
  exact h (Words.ptr_not_ready hr)

/-- The file has got blocks in slots `lo` to `hi`. -/
structure Filled (V : Volume) (x lo hi : Nat) (w w' : Words) : Prop where
  ok : DiskOk V w'
  data : w'.Data V x
  grows : Grows V w w'
  mapped : ∀ k, lo ≤ k → k < hi → w'.ptr x k ≠ 0
  kept : ∀ k < ndirect + nindirect, k < lo ∨ hi ≤ k → w'.ptr x k = w.ptr x k
  fresh : ∀ k < V.cover x, w.ptr x k = 0 → w'.ptr x k ≠ 0 → w.free (w'.ptr x k).toNat = true
  tab : w'.table x ≠ 0 ↔ w.table x ≠ 0 ∨ (lo < hi ∧ ndirect < hi)
  freshTable : w.table x = 0 → w'.table x ≠ 0 → w.free (w'.table x).toNat = true
  used : ∀ b, InBitmap V.N (bitmapIx b) → (w'.free b = true ↔ w.free b = true ∧ ¬ (w.table x = 0 ∧ w'.Tab x b) ∧
    ∀ k, lo ≤ k → k < hi → w.ptr x k = 0 → b ≠ (w'.ptr x k).toNat)
  count : w'.frees V.N + w.want x lo hi = w.frees V.N

def Touched (V : Volume) (x lo hi : Nat) (w w' : Words) (i : Nat) : Prop :=
  InBitmap V.N i ∨ (∃ k, lo ≤ k ∧ k < hi ∧ w.ptr x k = 0 ∧ i = w'.slotIx x k) ∨
    (w.table x = 0 ∧ w'.table x ≠ 0 ∧ (i = x + 44 ∨ InBlock (w'.table x).toNat i))

section
variable {V : Volume} {x n lo mid hi : Nat} {w u u' w' : Words} {b : Word}

theorem Words.slot_of_inBlock {w : Words} (h : InBlock (w.table x).toNat i) :
    ∃ k < ndirect + nindirect, i = w.slotIx x k := by
  obtain ⟨hge, hlt⟩ := h
  refine ⟨ndirect + (i - blockIx (w.table x).toNat), ?_, ?_⟩
  · unfold nindirect
    omega
  · rw [Words.slotIx, if_neg (by omega)]
    omega

theorem Gets.slot_frame (h : Gets V x n b w w') (hx : V.file x) (hk : k < ndirect + nindirect) (hr : w.Ready x k)
    (hne : k = n → w.ptr x n ≠ 0) : w' (w.slotIx x k) = w (w.slotIx x k) := by
  rw [← Words.ptr_ready hr, ← h.grows.slotIx hx hr, ← Words.ptr_ready (h.grows.ready hx hr)]
  by_cases hkn : k = n
  · subst hkn
    exact h.grows.ptr x k hx hk (hne rfl)
  · exact h.other k hk hkn

theorem Gets.frame (h : Gets V x n b w w') (hx : V.file x) (hn : n < ndirect + nindirect)
    (hi : ¬ Touched V x n (n + 1) w w' i) : w' i = w i := by
  simp only [Touched, not_or] at hi
  obtain ⟨hbit, hslot, htab⟩ := hi
  have hnew : ∀ k, k < ndirect + nindirect → w.Ready x k → i = w.slotIx x k → w' i = w i := by
    rintro k hk hr rfl
    refine h.slot_frame hx hk hr fun hkn h0 => hslot ⟨n, by omega, by omega, h0, ?_⟩
    rw [← hkn, h.grows.slotIx hx hr]
  by_cases hm : Meta x i
  · obtain ⟨c, hl, hu, rfl⟩ := Within.meta_file hm
    by_cases hc : c = 44
    · subst hc
      by_cases h0 : w.table x = 0
      · by_cases h0' : w'.table x = 0
        · exact h0'.trans h0.symm
        · exact absurd ⟨h0, h0', .inl rfl⟩ htab
      · exact h.grows.table x hx h0
    · have hk : c - 34 < ndirect := by
        unfold ndirect
        omega
      refine hnew (c - 34) (by omega) (.inl hk) ?_
      rw [Words.slotIx, if_pos hk]
      omega
  · by_cases hin : w'.table x ≠ 0 ∧ InBlock (w'.table x).toNat i
    · have h0 : w.table x ≠ 0 := fun h0 => htab ⟨h0, hin.1, .inr hin.2⟩
      have hlt := hin.2
      rw [h.grows.table x hx h0] at hlt
      obtain ⟨k, hk, heq⟩ := Words.slot_of_inBlock hlt
      exact hnew k hk (.inr h0) heq
    · refine h.within i hbit hm ?_
      rintro c ⟨hne, rfl⟩ hc
      exact hin ⟨hne, hc⟩

namespace Filled

theorem refl (h : DiskOk V w) (hd : w.Data V x) : Filled V x n n w w where
  ok := h
  data := hd
  grows := .refl
  mapped k hl hu := absurd hl (by omega)
  kept _ _ _ := rfl
  fresh _ _ h0 hne := absurd h0 hne
  tab := by simp
  freshTable h0 hne := absurd h0 hne
  used b _ := by
    refine ⟨fun hf => ⟨hf, fun hno => hno.2.1 hno.1, fun k hl hu => absurd hl (by omega)⟩, fun hf => hf.1⟩
  count := by rw [Words.want_empty, Nat.add_zero]

theorem of_gets (hg : Gets V x n b w w') (h : DiskOk V w) (hx : V.file x) (hd : w.Data V x) (hn : n < ndirect + nindirect) :
    Filled V x n (n + 1) w w' where
  ok := hg.ok
  data := by
    intro k hk hne
    have hk' := Nat.lt_of_lt_of_le hk V.cover_le
    by_cases h0 : w.ptr x k = 0
    · obtain rfl : k = n := by
        by_contra hkn
        exact hne ((hg.other k hk' hkn).trans h0)
      rw [hg.self]
      exact (Plain.of_free h hg.lt (hg.fresh h0)).home
    · rw [hg.grows.ptr x k hx hk' h0]
      exact hd k hk h0
  grows := hg.grows
  mapped k hl hu := by
    obtain rfl : k = n := by omega
    rw [hg.self]
    exact hg.nonzero
  kept k hk hout := hg.other k hk (by omega)
  fresh k hk h0 hne := by
    obtain rfl : k = n := by
      by_contra hkn
      exact hne ((hg.other k (Nat.lt_of_lt_of_le hk V.cover_le) hkn).trans h0)
    rw [hg.self]
    exact hg.fresh h0
  tab := by
    constructor
    · intro hne
      by_cases hr : w.Ready x n
      · exact .inl (hg.keeps hr ▸ hne)
      · refine .inr ⟨by omega, ?_⟩
        by_contra hle
        exact hr (.inl (by omega))
    · rintro (hne | ⟨-, hlt⟩)
      · rw [hg.grows.table x hx hne]
        exact hne
      · exact hg.ready.resolve_left (by omega)
  freshTable := hg.freshTable
  used c hc := by
    rw [hg.used c hc]
    refine and_congr_right fun _ => and_congr_right fun _ => ?_
    constructor
    · intro hno k hl hu h0 heq
      obtain rfl : k = n := by omega
      exact hno ⟨h0, hg.self ▸ heq⟩
    · rintro hno ⟨h0, heq⟩
      exact hno n (by omega) (by omega) h0 (hg.self.symm ▸ heq)
  count := by
    rw [Words.want_one]
    exact hg.count

theorem want_trans (h : Filled V x lo mid w u) (hlm : lo ≤ mid) (hmh : mid ≤ hi) (hhi : hi ≤ ndirect + nindirect) :
    w.want x lo hi = w.want x lo mid + u.want x mid hi := by
  have hholes : u.holes x mid hi = w.holes x mid hi :=
    Words.holes_congr fun k hl hu => h.kept k (by omega) (.inr hl)
  unfold Words.want
  rw [Words.holes_split w x hlm hmh, hholes]
  have htab := h.tab
  by_cases h0 : w.table x = 0
  · have hyes : u.table x ≠ 0 ↔ lo < mid ∧ ndirect < mid := htab.trans (or_iff_right (not_not.2 h0))
    by_cases h1 : u.table x = 0
    · have hno : ¬ (lo < mid ∧ ndirect < mid) := fun hlt => hyes.2 hlt h1
      simp only [Words.ready_iff_lt h0, Words.ready_iff_lt h1]
      split_ifs <;> omega
    · have hlt := hyes.1 h1
      simp only [Words.ready_iff_lt h0, Words.ready_of_table h1, not_true_eq_false, and_false, if_false]
      split_ifs <;> omega
  · have h1 : u.table x ≠ 0 := htab.2 (.inl h0)
    simp only [Words.ready_of_table h0, Words.ready_of_table h1, not_true_eq_false, and_false, if_false]
    omega

theorem newTable_trans (h : Grows V w u) (h' : Grows V u w') (hx : V.file x) :
    w.table x = 0 ∧ w'.Tab x c ↔ (w.table x = 0 ∧ u.Tab x c) ∨ (u.table x = 0 ∧ w'.Tab x c) := by
  constructor
  · rintro ⟨h0, ht⟩
    by_cases h1 : u.table x = 0
    · exact .inr ⟨h1, ht⟩
    · unfold Words.Tab at ht ⊢
      rw [h'.table x hx h1] at ht
      exact .inl ⟨h0, ht⟩
  · rintro (⟨h0, ht⟩ | ⟨h1, ht⟩)
    · refine ⟨h0, ?_⟩
      unfold Words.Tab at ht ⊢
      rwa [h'.table x hx ht.1]
    · exact ⟨h.table_zero hx h1, ht⟩

theorem trans (h : Filled V x lo mid w u) (h' : Filled V x mid hi u w') (hx : V.file x) (hlm : lo ≤ mid) (hmh : mid ≤ hi)
    (hhi : hi ≤ ndirect + nindirect) : Filled V x lo hi w w' where
  ok := h'.ok
  data := h'.data
  grows := h.grows.trans h'.grows
  mapped k hl hu := by
    by_cases hkm : k < mid
    · have hne := h.mapped k hl hkm
      rwa [h'.grows.ptr x k hx (by omega) hne]
    · exact h'.mapped k (by omega) hu
  kept k hk hout := (h'.kept k hk (by omega)).trans (h.kept k hk (by omega))
  fresh k hk h0 hne := by
    by_cases h1 : u.ptr x k = 0
    · exact h.grows.free _ (h'.ok.owned.pool (r := .block x k) ⟨hx, hk, hne, rfl⟩).upper (h'.fresh k hk h1 hne)
    · rw [h'.grows.ptr x k hx (Nat.lt_of_lt_of_le hk V.cover_le) h1]
      exact h.fresh k hk h0 h1
  tab := by
    rw [h'.tab, h.tab, or_assoc]
    refine or_congr_right ?_
    omega
  freshTable h0 hne := by
    by_cases h1 : u.table x = 0
    · exact h.grows.free _ (h'.ok.tablePool hx hne).upper (h'.freshTable h1 hne)
    · rw [h'.grows.table x hx h1]
      exact h.freshTable h0 h1
  used b hb := by
    rw [h'.used b hb, h.used b hb, newTable_trans h.grows h'.grows hx]
    have hslots : (∀ k, lo ≤ k → k < hi → w.ptr x k = 0 → b ≠ (w'.ptr x k).toNat) ↔
        (∀ k, lo ≤ k → k < mid → w.ptr x k = 0 → b ≠ (u.ptr x k).toNat) ∧
          ∀ k, mid ≤ k → k < hi → u.ptr x k = 0 → b ≠ (w'.ptr x k).toNat := by
      constructor
      · refine fun hno => ⟨fun k hl hu h0 => ?_, fun k hl hu h0 => ?_⟩
        · rw [← h'.grows.ptr x k hx (by omega) (h.mapped k hl hu)]
          exact hno k hl (by omega) h0
        · exact hno k (by omega) hu (h.kept k (by omega) (.inr hl) ▸ h0)
      · rintro ⟨hfirst, hsecond⟩ k hl hu h0
        by_cases hkm : k < mid
        · rw [h'.grows.ptr x k hx (by omega) (h.mapped k hl hkm)]
          exact hfirst k hl hkm h0
        · exact hsecond k (by omega) hu ((h.kept k (by omega) (.inr (by omega))).trans h0)
    rw [hslots]
    tauto
  count := by
    rw [h.want_trans hlm hmh hhi, ← h.count, ← h'.count]
    omega

/-- What a file's slots and the bitmap say is all that `Filled` depends on. -/
theorem congr (h : Filled V x lo hi w u) (hx : V.file x) (hok : DiskOk V u') (hs : SameFiles V u u')
    (hf : ∀ b, InBitmap V.N (bitmapIx b) → u'.free b = u.free b)
    (hc : ∀ b < V.N, u.free b = true → ∀ i, InBlock b i → u' i = u i) (hhi : hi ≤ ndirect + nindirect) :
    Filled V x lo hi w u' := by
  have ht := hs.table x hx
  have hp := fun k => hs.ptr x k hx
  have hp' : ∀ k < V.cover x, u'.ptr x k = u.ptr x k := fun k hk => hp k (Nat.lt_of_lt_of_le hk V.cover_le)
  have hgrows : Grows V u u' := by
    refine ⟨fun y hy _ => hs.table y hy, fun y n hy hn _ => hs.ptr y n hy hn, fun b hb hfree => ?_, fun b hb hfree => ?_⟩
    · rwa [hf b (inBitmap_bitmapIx hb)] at hfree
    · rw [hf b (inBitmap_bitmapIx hb)] at hfree
      exact hc b hb hfree
  refine ⟨hok, fun k hk => ?_, h.grows.trans hgrows, fun k hl hu => ?_, fun k hk hout => ?_, fun k hk => ?_, ?_, ?_,
    fun b hb => ?_, ?_⟩
  · rw [hp' k hk]
    exact h.data k hk
  · rw [hp k (by omega)]
    exact h.mapped k hl hu
  · rw [hp k hk]
    exact h.kept k hk hout
  · rw [hp' k hk]
    exact h.fresh k hk
  · rw [ht]
    exact h.tab
  · rw [ht]
    exact h.freshTable
  · unfold Words.Tab
    rw [hf b hb, h.used b hb, ht]
    refine and_congr_right fun _ => and_congr_right fun _ => forall_congr' fun k => forall_congr' fun hl => forall_congr' fun hu => ?_
    rw [hp k (by omega)]
  · rw [Words.frees_congr fun b hb => hf b (inBitmap_bitmapIx hb)]
    exact h.count

theorem data_not_touched (h : Filled V x lo hi w w') (hx : V.file x) (hk : k < V.cover x) (hne : w'.ptr x k ≠ 0)
    (hhi : hi ≤ ndirect + nindirect) (hb : InBlock (w'.ptr x k).toNat i) : ¬ Touched V x lo hi w w' i := by
  have hplain := Plain.of_block h.ok ⟨hx, hk, hne, rfl⟩ (h.data k hk hne)
  rintro (hbit | ⟨j, hl, hu, -, rfl⟩ | ⟨-, ht, rfl | hin⟩)
  · exact hplain.not_bitmap hb hbit
  · exact hplain.slot_not hx (by omega) (Words.ready_of_ptr (h.mapped j hl hu)) hb
  · exact hplain.field_not hx (by omega) hb
  · exact hplain.table x hx ht (hin.unique hb)

theorem attr_not_touched (h : Filled V x lo hi w w') (hx : V.file x) (hy : V.file y) (hk : k < 34)
    (hhi : hi ≤ ndirect + nindirect) : ¬ Touched V x lo hi w w' (y + k) := by
  rintro (hbit | ⟨j, hl, hu, -, heq⟩ | ⟨-, ht, heq | hin⟩)
  · exact Volume.field_not_bitmap hy (by omega) hbit
  · exact h.ok.slot_ne_field hx hy (by omega) (Words.ready_of_ptr (h.mapped j hl hu)) (.inl hk) heq.symm
  · exact Volume.field_ne hy hx (by omega) (by omega) (.inr (by omega)) heq
  · exact Volume.field_not_inBlock hy (by omega) (h.ok.tables x hx ht) hin

end Filled

namespace Touched

theorem left (ht : Touched V x lo mid w u i) (h : Filled V x lo mid w u) (h' : Grows V u w') (hx : V.file x) (hmh : mid ≤ hi) :
    Touched V x lo hi w w' i := by
  rcases ht with hbit | ⟨k, hl, hu, h0, rfl⟩ | ⟨h0, hne, hin⟩
  · exact .inl hbit
  · exact .inr (.inl ⟨k, hl, by omega, h0, (h'.slotIx hx (Words.ready_of_ptr (h.mapped k hl hu))).symm⟩)
  · have hsame := h'.table x hx hne
    rw [← hsame] at hne hin
    exact .inr (.inr ⟨h0, hne, hin⟩)

theorem right (ht : Touched V x mid hi u w' i) (h : Filled V x lo mid w u) (hx : V.file x) (hlm : lo ≤ mid)
    (hhi : hi ≤ ndirect + nindirect) : Touched V x lo hi w w' i := by
  rcases ht with hbit | ⟨k, hl, hu, h0, rfl⟩ | ⟨h0, hne, hin⟩
  · exact .inl hbit
  · exact .inr (.inl ⟨k, by omega, hu, (h.kept k (by omega) (.inr hl)).symm.trans h0, rfl⟩)
  · exact .inr (.inr ⟨h.grows.table_zero hx h0, hne, hin⟩)

theorem congr (hs : u'.table x = u.table x) : Touched V x lo hi w u' i ↔ Touched V x lo hi w u i := by
  unfold Touched
  simp only [Words.slotIx_congr hs, hs]

end Touched

/-! ## Words that a copy leaves alone -/

/-- Word `i` belongs neither to the file at `x` nor to what the file may get. -/
structure Quiet (V : Volume) (x : Nat) (w : Words) (i : Nat) : Prop where
  bitmap : ¬ InBitmap V.N i
  record : ∀ k < 64, i ≠ x + k
  free : ∀ b < V.N, w.free b = true → ¬ InBlock b i
  table : ∀ b, w.Tab x b → ¬ InBlock b i
  data : ∀ k < V.cover x, w.ptr x k ≠ 0 → ¬ InBlock (w.ptr x k).toNat i

namespace Quiet

theorem of_off (h : DiskOk V w) (hx : V.file x) (hi : ¬ OnDisk V.N i) : Quiet V x w i where
  bitmap hb := hi (hb.onDisk V.room)
  record k hk heq := hi (heq ▸ Volume.field_onDisk hx hk)
  free b hb _ hin := hi (hin.onDisk hb)
  table b ht hin := by
    obtain ⟨hne, rfl⟩ := ht
    exact hi (hin.onDisk (h.tablePool hx hne).upper)
  data k hk hne hin := hi (hin.onDisk (h.owned.pool (r := .block x k) ⟨hx, hk, hne, rfl⟩).upper)

section
variable (hq : Quiet V x w i) (hf : Filled V x lo hi w w') (hx : V.file x)
include hq hf hx

theorem not_table (hne : w'.table x ≠ 0) : ¬ InBlock (w'.table x).toNat i := by
  by_cases h0 : w.table x = 0
  · exact hq.free _ (hf.ok.tablePool hx hne).upper (hf.freshTable h0 hne)
  · exact hq.table _ ⟨h0, by rw [hf.grows.table x hx h0]⟩

theorem not_touched (hhi : hi ≤ ndirect + nindirect) : ¬ Touched V x lo hi w w' i := by
  rintro (hbit | ⟨k, hl, hu, -, rfl⟩ | ⟨-, ht, heq | hin⟩)
  · exact hq.bitmap hbit
  · obtain ⟨hlt, heq⟩ | ⟨-, ht, hin⟩ := DiskOk.slot_cases w' x (n := k) (by omega) (Words.ready_of_ptr (hf.mapped k hl hu))
    · unfold ndirect at hlt
      exact hq.record (34 + k) (by omega) heq
    · exact hq.not_table hf hx ht hin
  · exact hq.record 44 (by omega) heq
  · exact hq.not_table hf hx ht hin

theorem not_data (hk : k < V.cover x) (hne : w'.ptr x k ≠ 0) : ¬ InBlock (w'.ptr x k).toNat i := by
  by_cases h0 : w.ptr x k = 0
  · exact hq.free _ (hf.ok.owned.pool (r := .block x k) ⟨hx, hk, hne, rfl⟩).upper (hf.fresh k hk h0 hne)
  · rw [hf.grows.ptr x k hx (Nat.lt_of_lt_of_le hk V.cover_le) h0]
    exact hq.data k hk h0

end

end Quiet

theorem DiskOk.same_off (h : DiskOk V w) (hw : ∀ i, OnDisk V.N i → w' i = w i) : SameFiles V w w' :=
  .of_words h (fun x k hx _ hk => hw _ (Volume.field_onDisk hx (by omega)))
    fun x i hx ht hi => hw i (hi.onDisk (h.tablePool hx ht).upper)

theorem DiskOk.free_off (hw : ∀ i, OnDisk V.N i → w' i = w i) (hc : InBitmap V.N (bitmapIx c)) : w'.free c = w.free c := by
  unfold Words.free
  rw [hw _ (hc.onDisk V.room)]

theorem DiskOk.off (h : DiskOk V w) (hw : ∀ i, OnDisk V.N i → w' i = w i) : DiskOk V w' := by
  refine (h.same_off hw).diskOk_of_free h (hw _ ?_) fun b hb => DiskOk.free_off hw (inBitmap_bitmapIx hb)
  have hpos := V.pos
  unfold OnDisk nblocksIx blockIx
  omega

section
variable (h : Filled V x lo hi w u) (hx : V.file x) (hhi : hi ≤ ndirect + nindirect)
include h hx hhi

theorem Filled.off (hw : ∀ i, OnDisk V.N i → u' i = u i) : Filled V x lo hi w u' :=
  h.congr hx (h.ok.off hw) (h.ok.same_off hw) (fun _ hb => DiskOk.free_off hw hb)
    (fun _ hb _ i hi => hw i (hi.onDisk hb)) hhi

theorem Filled.store (hk : k < V.cover x) (hne : u.ptr x k ≠ 0) (hw : ∀ i, ¬ InBlock (u.ptr x k).toNat i → u' i = u i) :
    SameFiles V u u' ∧ Filled V x lo hi w u' := by
  have hheld : Holds V u (.block x k) (u.ptr x k).toNat := ⟨hx, hk, hne, rfl⟩
  have hplain := Plain.of_block h.ok hheld (h.data k hk hne)
  have hsame := h.ok.same_data hplain hw
  refine ⟨hsame, h.congr hx (h.ok.data hplain hw) hsame (fun _ hb => h.ok.free_data hplain hw hb) ?_ hhi⟩
  intro b hb hf i hi
  refine hw i fun hin => ?_
  rw [hi.unique hin] at hf
  exact h.ok.not_free hheld hf

end

theorem want_mono (w : Words) (x : Nat) (hlm : lo ≤ mid) (hmh : mid ≤ hi) : w.want x lo mid ≤ w.want x lo hi := by
  unfold Words.want
  rw [w.holes_split x hlm hmh]
  have htab : lo < mid ∧ ¬ w.Ready x (mid - 1) → lo < hi ∧ ¬ w.Ready x (hi - 1) := by
    rintro ⟨hlt, hr⟩
    refine ⟨by omega, fun hr' => hr ?_⟩
    rcases hr' with hr' | hr'
    · exact .inl (by omega)
    · exact .inr hr'
  split_ifs
  · omega
  · tauto
  · omega
  · omega

theorem Filled.want_lt (h : Filled V x lo n w w') (hln : lo ≤ n) (hnh : n < hi) (hcap : n < ndirect + nindirect)
    (hlt : w'.frees V.N < w'.need x n) : w.frees V.N < w.want x lo hi := by
  have hmono : w.want x lo (n + 1) ≤ w.want x lo hi := want_mono w x (by omega) (by omega)
  rw [h.want_trans hln (Nat.le_succ n) hcap, Words.want_one] at hmono
  rw [← h.count]
  omega

theorem Words.want_mapped {w : Words} (hmap : ∀ k, lo ≤ k → k < hi → w.ptr x k ≠ 0) : w.want x lo hi = 0 := by
  have hholes : w.holes x lo hi = 0 := by
    unfold holes
    rw [Finset.card_eq_zero, Finset.filter_eq_empty_iff]
    intro k hk
    rw [Finset.mem_Ico] at hk
    exact hmap k hk.1 hk.2
  have htab : ¬ (lo < hi ∧ ¬ w.Ready x (hi - 1)) := fun ⟨hlt, hr⟩ =>
    hr (ready_of_ptr (hmap (hi - 1) (by omega) (by omega)))
  rw [want, hholes, if_neg htab]

theorem SameFiles.want (h : SameFiles V w w') (hx : V.file x) (hhi : hi ≤ ndirect + nindirect) :
    w'.want x lo hi = w.want x lo hi := by
  unfold Words.want
  rw [Words.holes_congr fun k _ hk => h.ptr x k hx (by omega)]
  simp only [Words.ready_congr (h.table x hx)]

end

end Jos.Fs
