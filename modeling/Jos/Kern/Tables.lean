import Jos.Kern.Pmap
import Jos.Lib.RefCount

/-!
# Page directories as trees of references

A family of page directories `dirs` and the memory they live in. Each
directory refers to tables and each table to pages (`target`), where `own`
picks the directory entries that count: the others name tables that all
directories share. While a page used as a directory or a table has only one
such use (`TabSep`), a store to an entry changes that entry and no other.
-/

namespace Jos

open Lib
open Function (update update_of_ne)

variable {ι : Type}

def pdeOf (dirs : ι → Option Nat) (m : Mem) (i : ι) (d : Nat) : Word :=
  match dirs i with
  | none => 0#32
  | some q => m.read32 (q * pgsize + 4 * d)

def tableOf (dirs : ι → Option Nat) (m : Mem) (i : ι) (d : Nat) : Option Nat :=
  entryPage (pdeOf dirs m i d)

def pteOf (dirs : ι → Option Nat) (m : Mem) (i : ι) (d t : Nat) : Word :=
  match tableOf dirs m i d with
  | none => 0#32
  | some pt => m.read32 (pt * pgsize + 4 * t)

theorem pteOf_dirs {dirs dirs' : ι → Option Nat} (h : dirs' i = dirs i) : pteOf dirs' m i d t = pteOf dirs m i d t := by
  unfold pteOf tableOf pdeOf
  rw [h]

abbrev oneDir (q : Nat) : Unit → Option Nat := fun _ => some q

abbrev Slot (own : Nat → Prop) := {d : Fin 1024 // own d}

/-- What can refer to a page: a directory pointer, an own directory entry, an
entry of an own table. -/
abbrev Ref (ι : Type) (own : Nat → Prop) := ι ⊕ (ι × Slot own) ⊕ (ι × Slot own × Fin 1024)

@[match_pattern] abbrev Ref.dir {own : Nat → Prop} (i : ι) : Ref ι own := .inl i
@[match_pattern] abbrev Ref.pde {own : Nat → Prop} (i : ι) (d : Slot own) : Ref ι own :=
  .inr (.inl (i, d))
@[match_pattern] abbrev Ref.pte {own : Nat → Prop} (i : ι) (d : Slot own) (t : Fin 1024) :
    Ref ι own :=
  .inr (.inr (i, d, t))

def target {own : Nat → Prop} (dirs : ι → Option Nat) (m : Mem) : Ref ι own → Option Nat
  | .dir i => dirs i
  | .pde i d => tableOf dirs m i d
  | .pte i d t => entryPage (pteOf dirs m i d t)

def IsTable {own : Nat → Prop} : Ref ι own → Prop
  | .dir _ | .pde _ _ => True
  | .pte _ _ _ => False

/-- No page serves twice as a directory or a table. -/
structure TabSep (own : Nat → Prop) (dirs : ι → Option Nat) (m : Mem) : Prop where
  dir_inj : dirs i = some q → dirs j = some q → j = i
  dir_ne_table : dirs i = some q → own d → d < 1024 → tableOf dirs m j d = some pt → pt ≠ q
  table_inj : own d → d < 1024 → own d' → d' < 1024 → tableOf dirs m i d = some pt →
    tableOf dirs m j d' = some pt → j = i ∧ d' = d

/-- A page used as a directory or as a table has no other reference. -/
def Sep (own : Nat → Prop) (dirs : ι → Option Nat) (m : Mem) : Prop :=
  Exclusive IsTable (target dirs m : Ref ι own → Option Nat)

variable {dirs : ι → Option Nat} {m m' : Mem}

theorem pdeOf_some (h : dirs i = some q) : pdeOf dirs m i d = m.read32 (q * pgsize + 4 * d) := by
  simp [pdeOf, h]

theorem pteOf_some (h : tableOf dirs m i d = some pt) :
    pteOf dirs m i d t = m.read32 (pt * pgsize + 4 * t) := by
  simp [pteOf, h]

theorem pteOf_none (h : tableOf dirs m i d = none) : pteOf dirs m i d t = 0#32 := by
  simp [pteOf, h]

theorem tableOf_some (h : dirs i = some q) : tableOf dirs m i d = entryPage (m.read32 (q * pgsize + 4 * d)) := by
  rw [tableOf, pdeOf_some h]

theorem exists_table (h : entryPage (pteOf dirs m i d t) = some p) : ∃ pt, tableOf dirs m i d = some pt := by
  cases ht : tableOf dirs m i d with
  | none => simp [pteOf_none ht] at h
  | some pt => exact ⟨pt, rfl⟩

theorem tableOf_none (h : dirs i = none) : tableOf dirs m i d = none := by
  simp [tableOf, pdeOf, h]

theorem word_apart (h : p ≠ p') (hk : k < 1024) (hk' : k' < 1024) :
    p * pgsize + 4 * k + 4 ≤ p' * pgsize + 4 * k' ∨ p' * pgsize + 4 * k' + 4 ≤ p * pgsize + 4 * k := by
  unfold pgsize
  omega

theorem read32_write32_page (hk : k < 1024) (hk' : k' < 1024) :
    (m.write32 (p * pgsize + 4 * k) w).read32 (p' * pgsize + 4 * k') =
      if p' = p ∧ k' = k then w else m.read32 (p' * pgsize + 4 * k') := by
  split
  · rename_i h
    obtain ⟨rfl, rfl⟩ := h
    exact Mem.read32_write32_self ..
  · apply Mem.read32_write32_of_disjoint
    by_cases hp : p' = p
    · subst hp
      omega
    · exact word_apart (Ne.symm hp) hk hk'

/-! ## Consequences of separation -/

theorem Sep.tabSep {own : Nat → Prop} (hs : Sep own dirs m) : TabSep own dirs m where
  dir_inj := by
    intro i q j hi hj
    simpa using hs (.dir i) (.dir j) q trivial hi hj
  dir_ne_table := by
    rintro i q d j pt hi ho hd hj rfl
    simpa using hs (.dir i) (.pde j ⟨⟨d, hd⟩, ho⟩) pt trivial hi hj
  table_inj := by
    intro d d' i pt j ho hd ho' hd' hi hj
    simpa using hs (.pde i ⟨⟨d, hd⟩, ho⟩) (.pde j ⟨⟨d', hd'⟩, ho'⟩) pt trivial hi hj

/-! ## The effect of a store -/

theorem pdeOf_storePde [DecidableEq ι] (hq : dirs i = some q) (hinj : ∀ j, dirs j = some q → j = i)
    (hd : d < 1024) (hd' : d' < 1024) :
    pdeOf dirs (m.write32 (q * pgsize + 4 * d) w) j d' =
      if j = i ∧ d' = d then w else pdeOf dirs m j d' := by
  cases hj : dirs j with
  | none =>
    have hne : j ≠ i := by
      rintro rfl
      simp [hq] at hj
    simp [pdeOf, hj, hne]
  | some q' =>
    rw [pdeOf_some hj, pdeOf_some hj, read32_write32_page hd hd']
    have hiff : q' = q ↔ j = i :=
      ⟨fun h => hinj j (h ▸ hj), fun h => by subst h; simpa [hj] using hq⟩
    simp [hiff]

section
variable [DecidableEq ι] {own : Nat → Prop} (hs : TabSep own dirs m)
include hs

section
variable {i : ι} (ht : tableOf dirs m i d = some pt) (ho : own d) (hd : d < 1024) (hk : t < 1024)
include ht ho hd hk

omit [DecidableEq ι] in
theorem pdeOf_storePte (hd' : d' < 1024) : pdeOf dirs (m.write32 (pt * pgsize + 4 * t) w) j d' = pdeOf dirs m j d' := by
  cases hj : dirs j with
  | none => simp [pdeOf, hj]
  | some q =>
    rw [pdeOf_some hj, pdeOf_some hj, read32_write32_page hk hd']
    simp [Ne.symm (hs.dir_ne_table hj ho hd ht)]

theorem pteOf_storePte (ho' : own d') (hd' : d' < 1024) (hk' : t' < 1024) :
    pteOf dirs (m.write32 (pt * pgsize + 4 * t) w) j d' t' =
      if j = i ∧ d' = d ∧ t' = t then w else pteOf dirs m j d' t' := by
  have htab : tableOf dirs (m.write32 (pt * pgsize + 4 * t) w) j d' = tableOf dirs m j d' := by
    unfold tableOf
    rw [pdeOf_storePte hs ht ho hd hk hd']
  cases hj : tableOf dirs m j d' with
  | none =>
    have hne : ¬ (j = i ∧ d' = d ∧ t' = t) := by
      rintro ⟨rfl, rfl, rfl⟩
      simp [ht] at hj
    rw [pteOf_none (htab.trans hj), pteOf_none hj, if_neg hne]
  | some pt' =>
    rw [pteOf_some (htab.trans hj), pteOf_some hj, read32_write32_page hk hk']
    have hiff : pt' = pt ↔ j = i ∧ d' = d :=
      ⟨fun h => hs.table_inj ho hd ho' hd' ht (h ▸ hj),
        fun ⟨h, h'⟩ => by subst h h'; simpa [hj] using ht⟩
    simp [hiff, and_assoc]

end

section
variable {i : ι} (hq : dirs i = some q) (hd : d < 1024) (hw : entryPage w = tableOf dirs m i d)
include hq hd hw

theorem tableOf_storePde (hd' : d' < 1024) :
    tableOf dirs (m.write32 (q * pgsize + 4 * d) w) j d' = tableOf dirs m j d' := by
  unfold tableOf
  rw [pdeOf_storePde hq (fun _ hj => hs.dir_inj hq hj) hd hd']
  split
  · rename_i h
    obtain ⟨rfl, rfl⟩ := h
    exact hw
  · rfl

/-- A store to a directory entry that keeps naming the same table (or still
names none) leaves every table as it was. -/
theorem pteOf_storePde (ho' : own d') (hd' : d' < 1024) (hk' : t' < 1024) :
    pteOf dirs (m.write32 (q * pgsize + 4 * d) w) j d' t' = pteOf dirs m j d' t' := by
  have htab := tableOf_storePde hs hq hd hw hd' (j := j)
  cases hj : tableOf dirs m j d' with
  | none => rw [pteOf_none (htab.trans hj), pteOf_none hj]
  | some pt' =>
    rw [pteOf_some (htab.trans hj), pteOf_some hj, read32_write32_page hd hk']
    simp [hs.dir_ne_table hq ho' hd' hj]

end

end

/-! ## The effect of stores elsewhere -/

theorem read32_page_congr (h : ∀ a, a / pgsize = p → m' a = m a) (hk : k < 1024) :
    m'.read32 (p * pgsize + 4 * k) = m.read32 (p * pgsize + 4 * k) := by
  refine Mem.read32_congr fun x hx hx' => h x ?_
  unfold pgsize at *
  omega

theorem read32_fill_page (hk : k < 1024) :
    (m.fill (p * pgsize) pgsize 0#8).read32 (p' * pgsize + 4 * k) =
      if p' = p then 0#32 else m.read32 (p' * pgsize + 4 * k) := by
  unfold pgsize
  split
  · subst_vars
    exact Mem.read32_fill_zero m (by omega) (by omega)
  · exact Mem.read32_fill_of_disjoint m (by omega)

theorem write32_page_of_ne (hk : k < 1024) (h : a / pgsize ≠ p) :
    m.write32 (p * pgsize + 4 * k) w a = m a := by
  refine Mem.write32_of_outside ?_
  unfold pgsize at *
  omega

theorem fill_page_of_ne (h : a / pgsize ≠ p) : m.fill (p * pgsize) pgsize b a = m a := by
  refine Mem.fill_of_outside ?_
  unfold pgsize at *
  omega

theorem fill_page_of_eq (h : a / pgsize = p) : m.fill (p * pgsize) pgsize b a = b := by
  refine Mem.fill_of_inside ?_ ?_ <;> unfold pgsize at * <;> omega

theorem pdeOf_congr (h : ∀ q, dirs i = some q → ∀ a, a / pgsize = q → m' a = m a) (hd : d < 1024) :
    pdeOf dirs m' i d = pdeOf dirs m i d := by
  cases hi : dirs i with
  | none => simp [pdeOf, hi]
  | some q =>
    rw [pdeOf_some hi, pdeOf_some hi]
    exact read32_page_congr (h q hi) hd

theorem pteOf_congr (h : pdeOf dirs m' i d = pdeOf dirs m i d)
    (ht : ∀ pt, tableOf dirs m i d = some pt → ∀ a, a / pgsize = pt → m' a = m a) (hk : t < 1024) :
    pteOf dirs m' i d t = pteOf dirs m i d t := by
  have htab : tableOf dirs m' i d = tableOf dirs m i d := by
    unfold tableOf
    rw [h]
  cases hi : tableOf dirs m i d with
  | none => rw [pteOf_none (htab.trans hi), pteOf_none hi]
  | some pt =>
    rw [pteOf_some (htab.trans hi), pteOf_some hi]
    exact read32_page_congr (ht pt hi) hk

/-! ## A fresh table -/

/-- The memory after the zeroed page `p` became the table behind entry `d` of
the directory at page `q`. -/
def withTable (m : Mem) (q d p : Nat) (w : Word) : Mem :=
  (m.fill (p * pgsize) pgsize 0#8).write32 (q * pgsize + 4 * d) w

section
variable [DecidableEq ι] {i j : ι} {q p d : Nat} {w : Word} (hq : dirs i = some q)
  (hinj : ∀ j, dirs j = some q → j = i) (hfresh : ∀ j, dirs j ≠ some p) (hd : d < 1024)
include hq hinj hfresh hd

theorem pdeOf_withTable (hd' : d' < 1024) :
    pdeOf dirs (withTable m q d p w) j d' = if j = i ∧ d' = d then w else pdeOf dirs m j d' := by
  have hfill : pdeOf dirs (m.fill (p * pgsize) pgsize 0#8) j d' = pdeOf dirs m j d' := by
    refine pdeOf_congr (fun q' hj a ha => fill_page_of_ne ?_) hd'
    rintro rfl
    exact hfresh j (ha ▸ hj)
  rw [← hfill]
  exact pdeOf_storePde hq hinj hd hd'

theorem pteOf_withTable {own : Nat → Prop} (hsep : TabSep own dirs m) (hnone : tableOf dirs m i d = none)
    (hw : entryPage w = some p) (htab : ∀ j d', own d' → d' < 1024 → tableOf dirs m j d' ≠ some p)
    (ho' : own d') (hd' : d' < 1024) (hk' : t' < 1024) :
    pteOf dirs (withTable m q d p w) j d' t' = pteOf dirs m j d' t' := by
  have hpq : p ≠ q := by
    rintro rfl
    exact hfresh i hq
  have hpde : pdeOf dirs (withTable m q d p w) j d' = if j = i ∧ d' = d then w else pdeOf dirs m j d' :=
    pdeOf_withTable hq hinj hfresh hd hd'
  by_cases hc : j = i ∧ d' = d
  · obtain ⟨rfl, rfl⟩ := hc
    rw [if_pos ⟨rfl, rfl⟩] at hpde
    have ht : tableOf dirs (withTable m q d' p w) j d' = some p := by
      unfold tableOf
      rw [hpde, hw]
    rw [pteOf_none hnone, pteOf_some ht, withTable, read32_write32_page hd' hk', if_neg (by simp [hpq]),
      read32_fill_page hk', if_pos rfl]
  · rw [if_neg hc] at hpde
    refine pteOf_congr hpde (fun pt hpt a ha => ?_) hk'
    have hne : pt ≠ p := by
      rintro rfl
      exact htab j d' ho' hd' hpt
    have hnq : pt ≠ q := hsep.dir_ne_table hq ho' hd' hpt
    subst ha
    rw [withTable, write32_page_of_ne hd hnq, fill_page_of_ne hne]

end

/-! ## Each change moves one reference -/

theorem target_congr {own : Nat → Prop} {dirs' : ι → Option Nat} (hdirs : ∀ i, dirs' i = dirs i)
    (hpde : ∀ i d, own d → d < 1024 → tableOf dirs' m' i d = tableOf dirs m i d)
    (hpte : ∀ i d t, own d → d < 1024 → t < 1024 → pteOf dirs' m' i d t = pteOf dirs m i d t) :
    (target dirs' m' : Ref ι own → Option Nat) = target dirs m := by
  funext r
  match r with
  | .dir i => exact hdirs i
  | .pde i d => exact hpde i d d.2 d.1.2
  | .pte i d t => exact congrArg entryPage (hpte i d t d.2 d.1.2 t.2)

section
variable [DecidableEq ι] {own : Nat → Prop}

theorem target_storePte (hs : TabSep own dirs m) (ht : tableOf dirs m i d = some pt) (ho : own d)
    (hd : d < 1024) (hk : t < 1024) :
    (target dirs (m.write32 (pt * pgsize + 4 * t) w) : Ref ι own → Option Nat) =
      update (target dirs m) (.pte i ⟨⟨d, hd⟩, ho⟩ ⟨t, hk⟩) (entryPage w) := by
  funext r
  match r with
  | .dir j => rfl
  | .pde j d' =>
    simp only [target, tableOf]
    rw [pdeOf_storePte hs ht ho hd hk d'.1.2]
    rfl
  | .pte j d' t' =>
    simp only [target]
    rw [pteOf_storePte hs ht ho hd hk d'.2 d'.1.2 t'.2]
    by_cases hc : j = i ∧ (d' : Nat) = d ∧ (t' : Nat) = t
    · obtain ⟨rfl, rfl, rfl⟩ := hc
      simp
    · rw [if_neg hc, update_of_ne]
      · rfl
      · intro h
        obtain ⟨rfl, rfl, rfl⟩ := h
        simp at hc

/-- Storing to a directory entry whose table, if any, maps nothing. -/
theorem target_update_pde {m' : Mem} (ho : own d) (hd : d < 1024)
    (hpde : ∀ j d', own d' → d' < 1024 →
      tableOf dirs m' j d' = if j = i ∧ d' = d then v else tableOf dirs m j d')
    (hpte : ∀ j d' t', own d' → d' < 1024 → t' < 1024 →
      entryPage (pteOf dirs m' j d' t') = entryPage (pteOf dirs m j d' t')) :
    (target dirs m' : Ref ι own → Option Nat) =
      update (target dirs m) (.pde i ⟨⟨d, hd⟩, ho⟩) v := by
  funext r
  match r with
  | .dir j => rfl
  | .pde j d' =>
    simp only [target]
    rw [hpde j d' d'.2 d'.1.2]
    by_cases hc : j = i ∧ (d' : Nat) = d
    · obtain ⟨rfl, rfl⟩ := hc
      simp
    · rw [if_neg hc, update_of_ne]
      · rfl
      · intro h
        obtain ⟨rfl, rfl⟩ := h
        simp at hc
  | .pte j d' t' => exact hpte j d' t' d'.2 d'.1.2 t'.2

section
variable {i : ι} (hs : TabSep own dirs m) (hq : dirs i = some q)
include hs hq

theorem target_withTable (hfresh : ∀ r : Ref ι own, target dirs m r ≠ some p) (ho : own d) (hd : d < 1024)
    (hnone : tableOf dirs m i d = none) (hw : entryPage w = some p) :
    (target dirs (withTable m q d p w) : Ref ι own → Option Nat) =
      update (target dirs m) (.pde i ⟨⟨d, hd⟩, ho⟩) (some p) := by
  have hinj : ∀ j, dirs j = some q → j = i := fun _ hj => hs.dir_inj hq hj
  have hdir : ∀ j, dirs j ≠ some p := fun j => hfresh (.dir j)
  refine target_update_pde ho hd (fun j d' _ hd' => ?_) (fun j d' t' ho' hd' hk' => ?_)
  · unfold tableOf
    rw [pdeOf_withTable hq hinj hdir hd hd']
    split
    · exact hw
    · rfl
  · rw [pteOf_withTable hq hinj hdir hd hs hnone hw
      (fun j d ho hd => hfresh (.pde j ⟨⟨d, hd⟩, ho⟩)) ho' hd' hk']

theorem pteOf_clearPde (hd : d < 1024) (ho' : own d') (hd' : d' < 1024) (hk' : t' < 1024) :
    pteOf dirs (m.write32 (q * pgsize + 4 * d) 0#32) j d' t' =
      if j = i ∧ d' = d then 0#32 else pteOf dirs m j d' t' := by
  have hpde : pdeOf dirs (m.write32 (q * pgsize + 4 * d) 0#32) j d' =
      if j = i ∧ d' = d then 0#32 else pdeOf dirs m j d' :=
    pdeOf_storePde hq (fun _ hj => hs.dir_inj hq hj) hd hd'
  split at hpde
  · rename_i hc
    rw [if_pos hc]
    refine pteOf_none ?_
    simp [tableOf, hpde]
  · rename_i hc
    rw [if_neg hc]
    exact pteOf_congr hpde (fun pt hpt a ha =>
      write32_page_of_ne hd (ha ▸ hs.dir_ne_table hq ho' hd' hpt)) hk'

theorem target_clearPde (ho : own d) (hd : d < 1024) (hempty : ∀ t, t < 1024 → entryPage (pteOf dirs m i d t) = none) :
    (target dirs (m.write32 (q * pgsize + 4 * d) 0#32) : Ref ι own → Option Nat) =
      update (target dirs m) (.pde i ⟨⟨d, hd⟩, ho⟩) none := by
  refine target_update_pde ho hd (fun j d' _ hd' => ?_) (fun j d' t' ho' hd' hk' => ?_)
  · unfold tableOf
    rw [pdeOf_storePde hq (fun _ hj => hs.dir_inj hq hj) hd hd']
    split <;> simp
  · rw [pteOf_clearPde hs hq hd ho' hd' hk']
    split
    · rename_i hc
      obtain ⟨rfl, rfl⟩ := hc
      rw [hempty t' hk', entryPage_zero]
    · rfl

end

theorem target_update_dir {v : Option Nat} (hm : ∀ j, j ≠ i → ∀ d, d < 1024 →
      pdeOf dirs m' j d = pdeOf dirs m j d)
    (ht : ∀ j, j ≠ i → ∀ d t, own d → d < 1024 → t < 1024 → pteOf dirs m' j d t = pteOf dirs m j d t)
    (hold : ∀ d, own d → d < 1024 → tableOf dirs m i d = none)
    (hnew : ∀ d, own d → d < 1024 → tableOf (update dirs i v) m' i d = none) :
    (target (update dirs i v) m' : Ref ι own → Option Nat) =
      update (target dirs m) (.dir i) v := by
  have hother : ∀ j, j ≠ i → ∀ d, pdeOf (update dirs i v) m' j d = pdeOf dirs m' j d := by
    intro j hj d
    unfold pdeOf
    rw [update_of_ne hj]
  funext r
  match r with
  | .dir j =>
    by_cases hj : j = i
    · subst hj
      simp [target]
    · simp [target, hj, update_of_ne]
  | .pde j d =>
    simp only [target, ne_eq, reduceCtorEq, not_false_eq_true, update_of_ne]
    by_cases hj : j = i
    · subst hj
      rw [hnew d d.2 d.1.2, hold d d.2 d.1.2]
    · unfold tableOf
      rw [hother j hj, hm j hj d d.1.2]
  | .pte j d t =>
    simp only [target, ne_eq, reduceCtorEq, not_false_eq_true, update_of_ne]
    by_cases hj : j = i
    · subst hj
      rw [pteOf_none (hnew d d.2 d.1.2), pteOf_none (hold d d.2 d.1.2)]
    · rw [← ht j hj d t d.2 d.1.2 t.2]
      unfold pteOf tableOf
      rw [hother j hj]

/-! ## A mapping and the permissions of its directory entry -/

omit [DecidableEq ι] in
theorem TabSep.congr (hs : TabSep own dirs m)
    (h : ∀ i d, own d → d < 1024 → tableOf dirs m' i d = tableOf dirs m i d) : TabSep own dirs m' where
  dir_inj := hs.dir_inj
  dir_ne_table := by
    intro i q d j pt hi ho hd hj
    rw [h j d ho hd] at hj
    exact hs.dir_ne_table hi ho hd hj
  table_inj := by
    intro d d' i pt j ho hd ho' hd' hi hj
    rw [h i d ho hd] at hi
    rw [h j d' ho' hd'] at hj
    exact hs.table_inj ho hd ho' hd' hi hj

/-- Table entry `t` of the table at page `pt` becomes `w`, and entry `d` of the
directory at page `q` gains `perm`. -/
def withMapping (m : Mem) (pt t q d : Nat) (w perm : Word) : Mem :=
  (m.write32 (pt * pgsize + 4 * t) w).write32 (q * pgsize + 4 * d)
    ((m.write32 (pt * pgsize + 4 * t) w).read32 (q * pgsize + 4 * d) ||| perm)

theorem withMapping_clear (m : Mem) (pt t q d : Nat) (w perm : Word) :
    withMapping (m.write32 (pt * pgsize + 4 * t) 0#32) pt t q d w perm = withMapping m pt t q d w perm := by
  unfold withMapping
  rw [Mem.write32_write32_self]

section
variable {i j : ι} {q pt d t : Nat} {w perm : Word} (hs : TabSep own dirs m) (hq : dirs i = some q)
  (ht : tableOf dirs m i d = some pt) (ho : own d) (hd : d < 1024) (hk : t < 1024)
include hs hq ht ho hd hk

omit [DecidableEq ι] in
theorem withMapping_eq : withMapping m pt t q d w perm =
    (m.write32 (pt * pgsize + 4 * t) w).write32 (q * pgsize + 4 * d) (pdeOf dirs m i d ||| perm) := by
  have h : pdeOf dirs (m.write32 (pt * pgsize + 4 * t) w) i d = pdeOf dirs m i d :=
    pdeOf_storePte hs ht ho hd hk hd
  rw [pdeOf_some hq] at h
  rw [withMapping, h]

theorem pdeOf_withMapping (hd' : d' < 1024) : pdeOf dirs (withMapping m pt t q d w perm) j d' =
    if j = i ∧ d' = d then pdeOf dirs m i d ||| perm else pdeOf dirs m j d' := by
  rw [withMapping_eq hs hq ht ho hd hk, pdeOf_storePde hq (fun _ hj => hs.dir_inj hq hj) hd hd',
    pdeOf_storePte hs ht ho hd hk hd']

variable (hperm : IsPerm perm)
include hperm

theorem pteOf_withMapping (ho' : own d') (hd' : d' < 1024) (hk' : t' < 1024) :
    pteOf dirs (withMapping m pt t q d w perm) j d' t' =
      if j = i ∧ d' = d ∧ t' = t then w else pteOf dirs m j d' t' := by
  have hsame : ∀ j d', own d' → d' < 1024 →
      tableOf dirs (m.write32 (pt * pgsize + 4 * t) w) j d' = tableOf dirs m j d' := by
    intro j d' _ hd'
    unfold tableOf
    rw [pdeOf_storePte hs ht ho hd hk hd']
  have hkeep : entryPage (pdeOf dirs m i d ||| perm) =
      tableOf dirs (m.write32 (pt * pgsize + 4 * t) w) i d := by
    rw [hsame i d ho hd, ht]
    exact entryPage_or hperm ht
  rw [withMapping_eq hs hq ht ho hd hk, pteOf_storePde (hs.congr hsame) hq hd hkeep ho' hd' hk',
    pteOf_storePte hs ht ho hd hk ho' hd' hk']

theorem target_withMapping : (target dirs (withMapping m pt t q d w perm) : Ref ι own → Option Nat) =
    update (target dirs m) (.pte i ⟨⟨d, hd⟩, ho⟩ ⟨t, hk⟩) (entryPage w) := by
  rw [← target_storePte hs ht ho hd hk]
  refine target_congr (fun _ => rfl) (fun j d' _ hd' => ?_) (fun j d' t' ho' hd' hk' => ?_)
  · unfold tableOf
    rw [pdeOf_withMapping hs hq ht ho hd hk hd', pdeOf_storePte hs ht ho hd hk hd']
    split
    · rename_i hc
      obtain ⟨rfl, rfl⟩ := hc
      rw [entryPage_or hperm ht]
      exact ht.symm
    · rfl
  · rw [pteOf_withMapping hs hq ht ho hd hk hperm ho' hd' hk',
      pteOf_storePte hs ht ho hd hk ho' hd' hk']

end

end

end Jos
