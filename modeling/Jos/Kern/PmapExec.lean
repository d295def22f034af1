import Jos.Kern.Tables

/-!
# What the page-table functions compute

Each function of `kern/pmap.c` as an equation for its outcome, so that no
later proof unfolds one again.
-/

namespace Jos

open Lib
open Function (update update_apply update_eq_self)

variable {s : Pmap}

theorem page2pa_toNat (h : pp < 65536) : (page2pa pp).toNat = pp * 4096 := by
  simp only [page2pa, BitVec.toNat_shiftLeft, BitVec.toNat_ofNat, Nat.shiftLeft_eq]
  omega

theorem pgnum_page2pa (h : pp < 65536) : pgnum (page2pa pp) = pp := by
  rw [pgnum_eq, page2pa_toNat h]
  omega

theorem mask_page2pa (pp : Nat) : page2pa pp &&& 0xFFF#32 = 0#32 := by
  apply BitVec.eq_of_getLsbD_eq
  intro i _
  rw [BitVec.getLsbD_and, mask_getLsbD, page2pa, BitVec.getLsbD_shiftLeft]
  by_cases h : i < 12 <;> simp [h]

theorem flags_pack (h : IsPerm perm) :
    (page2pa pp ||| perm ||| pteP) &&& 0xFFF#32 = perm ||| pteP := by
  rw [and_or_mask, and_or_mask, mask_page2pa, mask_perm h, mask_perm isPerm_pteP, BitVec.zero_or]

theorem userEntry_pack (h : UserPerm perm) : UserEntry (page2pa pp ||| perm ||| pteP) := fun _ => by
  rw [flags_pack h.isPerm]
  exact h.or_present

theorem entryPage_pack (h : pp < 65536) (hp : IsPerm perm) :
    entryPage (page2pa pp ||| perm ||| pteP) = some pp := by
  rw [entryPage_eq_some]
  refine ⟨?_, by rw [pgnum_or isPerm_pteP, pgnum_or hp, pgnum_page2pa h]⟩
  rw [BitVec.or_comm]
  exact present_or (by decide)

theorem entryPage_page2pa (h : pp < 65536) : entryPage (page2pa pp ||| pteP) = some pp := by
  simpa using entryPage_pack h (by decide : IsPerm 0#32)

/-! ## Primitive accesses -/

@[simp] theorem exec_load (a : Nat) : exec (load a) s = (.ok (s.mem.read32 a), s) := rfl

theorem exec_store (h : a ≠ 0) :
    exec (store a w) s = (.ok (), { s with mem := s.mem.write32 a w }) := by
  simp [store, h]

theorem exec_store_null : exec (store 0 w) s = (.error .kernelFault, s) := by
  simp [store]

theorem exec_forM_store (ha : a ≠ 0) (w : Nat → Word) (l : List Nat) :
    exec (l.forM fun i => store (a + 4 * i) (w i)) s =
      (.ok ⟨⟩, { s with mem := s.mem.writeWords a w l }) := by
  induction l generalizing s with
  | nil => rfl
  | cons i l ih =>
    refine (exec_bind_ok (exec_store (by omega))).trans ?_
    exact ih

theorem exec_forM_copy (ha : a ≠ 0) (l : List Nat)
    (hd : ∀ i ∈ l, ∀ j ∈ l, a + 4 * i + 4 ≤ b + 4 * j ∨ b + 4 * j + 4 ≤ a + 4 * i) :
    exec (l.forM fun i => do store (a + 4 * i) (← load (b + 4 * i))) s =
      (.ok ⟨⟩, { s with mem := s.mem.writeWords a (fun i => s.mem.read32 (b + 4 * i)) l }) := by
  have key : ∀ (k : List Nat) (t : Pmap), (∀ i ∈ k, i ∈ l) →
      (∀ i ∈ l, t.mem.read32 (b + 4 * i) = s.mem.read32 (b + 4 * i)) →
      exec (k.forM fun i => do store (a + 4 * i) (← load (b + 4 * i))) t =
        (.ok ⟨⟩, { t with mem := t.mem.writeWords a (fun i => s.mem.read32 (b + 4 * i)) k }) := by
    intro k
    induction k with
    | nil => exact fun _ _ _ => rfl
    | cons i k ih =>
      intro t hk ht
      have hstep : exec (do store (a + 4 * i) (← load (b + 4 * i))) t =
          (.ok (), { t with mem := t.mem.write32 (a + 4 * i) (s.mem.read32 (b + 4 * i)) }) := by
        rw [exec_bind_ok (exec_load _), ht i (hk i (by simp))]
        exact exec_store (by omega)
      refine (exec_bind_ok hstep).trans (ih _ (fun j hj => hk j (by simp [hj])) fun j hj => ?_)
      rw [← ht j hj]
      exact Mem.read32_write32_of_disjoint _ (hd i (hk i (by simp)) j hj)
  exact key l s (fun _ h => h) (fun _ _ => rfl)

theorem exec_kaddr :
    exec (kaddr pa) s =
      if pgnum pa < s.layout.npages then (.ok pa.toNat, s) else (.error .kaddr, s) := by
  by_cases h : pgnum pa < s.layout.npages
  · simp [kaddr, exec_bind, h, Nat.not_le.mpr h]
  · simp [kaddr, exec_bind, h, Nat.not_lt.mp h]

theorem exec_pa2page :
    exec (pa2page pa) s =
      if pgnum pa < s.layout.npages then (.ok (pgnum pa), s) else (.error .pa2page, s) := by
  by_cases h : pgnum pa < s.layout.npages
  · simp [pa2page, exec_bind, h, Nat.not_le.mpr h]
  · simp [pa2page, exec_bind, h, Nat.not_lt.mp h]

/-! ## The counters and links after one change -/

def Pmap.ref (s : Pmap) (p : Nat) : BitVec 16 := (s.pages p).ppRef

def Pmap.next (s : Pmap) (p : Nat) : Option Nat := (s.pages p).ppLink

theorem Pmap.ref_update (s : Pmap) (p : Nat) (info : PageInfo) :
    (s.setPage p info).ref = update s.ref p info.ppRef := by
  funext x
  simp only [Pmap.ref, Pmap.setPage, update_apply]
  split <;> rfl

theorem Pmap.next_update (s : Pmap) (p : Nat) (info : PageInfo) :
    (s.setPage p info).next = update s.next p info.ppLink := by
  funext x
  simp only [Pmap.next, Pmap.setPage, update_apply]
  split <;> rfl

@[simp] theorem Pmap.incref_ref : (s.incref p).ref = update s.ref p (s.ref p + 1#16) :=
  Pmap.ref_update ..

@[simp] theorem Pmap.incref_next : (s.incref p).next = s.next :=
  (Pmap.next_update ..).trans (update_eq_self ..)

@[simp] theorem Pmap.decref_ref : (s.decref p).ref = update s.ref p (s.ref p - 1#16) :=
  Pmap.ref_update ..

@[simp] theorem Pmap.decref_next : (s.decref p).next = s.next :=
  (Pmap.next_update ..).trans (update_eq_self ..)

@[simp] theorem Pmap.unlink_ref : (s.unlink p).ref = s.ref :=
  (Pmap.ref_update ..).trans (update_eq_self ..)

@[simp] theorem Pmap.unlink_next : (s.unlink p).next = update s.next p none :=
  Pmap.next_update ..

@[simp] theorem Pmap.link_ref : (s.link p).ref = s.ref :=
  (Pmap.ref_update ..).trans (update_eq_self ..)

@[simp] theorem Pmap.link_next : (s.link p).next = update s.next p s.pageFreeList :=
  Pmap.next_update ..

/-! ## The allocator -/

def Pmap.take (s : Pmap) (p : Nat) : Pmap :=
  { s.unlink p with mem := s.mem.fill (p * pgsize) pgsize 0#8 }

def Pmap.drop (s : Pmap) (p : Nat) : Pmap :=
  if s.ref p - 1#16 = 0#16 then (s.decref p).link p else s.decref p

/-- `page_decref(p)` would free a page that is already on a list. -/
def Pmap.Stuck (s : Pmap) (p : Nat) : Prop :=
  s.ref p - 1#16 = 0#16 ∧ s.next p ≠ none

theorem exec_pageAlloc_none (h : s.pageFreeList = none) :
    exec (pageAlloc zero) s = (.ok none, s) := by
  simp [pageAlloc, exec_bind, h]

theorem exec_pageAlloc_false (h : s.pageFreeList = some p) :
    exec (pageAlloc false) s = (.ok (some p), s.unlink p) := by
  simp [pageAlloc, exec_bind, exec_map, h]

theorem exec_page2kva (h : p < s.layout.npages) : exec (page2kva p) s = (.ok (p * pgsize), s) := by
  have hle := s.layout.npages_le
  rw [page2kva, exec_kaddr, pgnum_page2pa (by omega), if_pos h, page2pa_toNat (by omega)]
  rfl

theorem exec_pageAlloc_true (h : s.pageFreeList = some p) (hp : p < s.layout.npages) :
    exec (pageAlloc true) s = (.ok (some p), s.take p) := by
  have hk : exec (page2kva p) (s.unlink p) = (.ok (p * pgsize), s.unlink p) := exec_page2kva hp
  simp [pageAlloc, exec_bind, exec_map, h, hk, Pmap.take]
  rfl

theorem exec_pageDecref (h : ¬ s.Stuck p) : exec (pageDecref p) s = (.ok (), s.drop p) := by
  have hp : (s.decref p).pages p = ⟨s.next p, s.ref p - 1#16⟩ := by
    simp [Pmap.decref, Pmap.setPage, Pmap.next, Pmap.ref]
  simp only [pageDecref, exec_bind, exec_modify, exec_get, pageFree, hp, Pmap.drop]
  by_cases h0 : s.ref p - 1#16 = 0#16
  · have hl : s.next p = none := by
      by_contra hl
      exact h ⟨h0, hl⟩
    simp [h0, hl, exec_bind, hp]
  · simp [h0]

theorem exec_pageDecref_stuck (h : s.Stuck p) :
    exec (pageDecref p) s = (.error .pageFree, s.decref p) := by
  obtain ⟨h0, hl⟩ := h
  have hp : (s.decref p).pages p = ⟨s.next p, s.ref p - 1#16⟩ := by
    simp [Pmap.decref, Pmap.setPage, Pmap.next, Pmap.ref]
  simp [pageDecref, exec_bind, pageFree, hp, h0, hl]

/-! ## Walking the tables -/

/-- The state after `pgdir_walk` put the fresh page `p` behind the directory
entry at `a`. -/
def Pmap.newTable (s : Pmap) (a p : Nat) : Pmap :=
  { (s.take p).incref p with
    mem := (s.mem.fill (p * pgsize) pgsize 0#8).write32 a (page2pa p ||| pteP) }

theorem Pmap.newTable_ref : (s.newTable a p).ref = update s.ref p (s.ref p + 1#16) := by
  have h : (s.newTable a p).ref = ((s.unlink p).incref p).ref := rfl
  rw [h, Pmap.incref_ref, Pmap.unlink_ref]

theorem Pmap.newTable_next : (s.newTable a p).next = update s.next p none := by
  have h : (s.newTable a p).next = ((s.unlink p).incref p).next := rfl
  rw [h, Pmap.incref_next, Pmap.unlink_next]

theorem exec_tableEntry :
    exec (tableEntry pgdir va) s =
      if pgnum (s.mem.read32 (pgdir + 4 * pdx va)) < s.layout.npages then
        (.ok (some (pgnum (s.mem.read32 (pgdir + 4 * pdx va)) * pgsize + 4 * ptx va)), s)
      else (.error .kaddr, s) := by
  simp only [tableEntry, exec_bind, exec_load, exec_kaddr, pgnum_pteAddr, pteAddr_toNat]
  by_cases h : pgnum (s.mem.read32 (pgdir + 4 * pdx va)) < s.layout.npages
  · simp [h, pgsize]
  · simp [h]

theorem exec_pgdirWalk_false :
    exec (pgdirWalk pgdir va false) s =
      match entryPage (s.mem.read32 (pgdir + 4 * pdx va)) with
      | none => (.ok none, s)
      | some pt =>
        if pt < s.layout.npages then (.ok (some (pt * pgsize + 4 * ptx va)), s)
        else (.error .kaddr, s) := by
  simp only [pgdirWalk, exec_bind, exec_load]
  by_cases h : s.mem.read32 (pgdir + 4 * pdx va) &&& pteP = pteP
  · simp [h, entryPage, exec_tableEntry]
  · simp [h, entryPage]

theorem exec_pgdirWalk_present (h : entryPage (s.mem.read32 (pgdir + 4 * pdx va)) = some pt)
    (hp : pt < s.layout.npages) :
    exec (pgdirWalk pgdir va create) s = (.ok (some (pt * pgsize + 4 * ptx va)), s) := by
  obtain ⟨hpres, rfl⟩ := entryPage_eq_some.mp h
  simp [pgdirWalk, exec_bind, hpres, exec_tableEntry, hp]

section
variable (h : entryPage (s.mem.read32 (pgdir + 4 * pdx va)) = none)
include h

theorem exec_pgdirWalk_full (hf : s.pageFreeList = none) : exec (pgdirWalk pgdir va true) s = (.ok none, s) := by
  have hpres := entryPage_eq_none.mp h
  simp [pgdirWalk, exec_bind, hpres, exec_pageAlloc_none hf]

theorem exec_pgdirWalk_new (hf : s.pageFreeList = some p) (hp : p < s.layout.npages) (ha : pgdir + 4 * pdx va ≠ 0) :
    exec (pgdirWalk pgdir va true) s =
      (.ok (some (p * pgsize + 4 * ptx va)), s.newTable (pgdir + 4 * pdx va) p) := by
  have hpres := entryPage_eq_none.mp h
  have hle := s.layout.npages_le
  have hentry := entryPage_eq_some.mp (@entryPage_page2pa p (by omega))
  have hread : (s.newTable (pgdir + 4 * pdx va) p).mem.read32 (pgdir + 4 * pdx va) =
      page2pa p ||| pteP := Mem.read32_write32_self ..
  have htab : exec (tableEntry pgdir va) (s.newTable (pgdir + 4 * pdx va) p) =
      (.ok (some (p * pgsize + 4 * ptx va)), s.newTable (pgdir + 4 * pdx va) p) := by
    rw [exec_tableEntry, hread, hentry.2]
    exact if_pos hp
  simp only [pgdirWalk, exec_bind, exec_load, hpres, ne_eq, not_false_eq_true, if_true,
    exec_pageAlloc_true hf hp, exec_modify, exec_store ha]
  exact htab

end

/-! ## Looking up, removing and inserting a mapping -/

theorem exec_pageLookup_noTable (h : entryPage (s.mem.read32 (pgdir + 4 * pdx va)) = none) :
    exec (pageLookup pgdir va cell) s = (.ok (none, cell), s) := by
  simp [pageLookup, exec_bind, exec_pgdirWalk_false, h]

section
variable (ht : entryPage (s.mem.read32 (pgdir + 4 * pdx va)) = some pt) (hpt : pt < s.layout.npages)
include ht hpt

theorem exec_pageLookup_unmapped (h : entryPage (s.mem.read32 (pt * pgsize + 4 * ptx va)) = none) :
    exec (pageLookup pgdir va cell) s = (.ok (none, cell), s) := by
  simp [pageLookup, exec_bind, exec_pgdirWalk_present ht hpt, entryPage_eq_none.mp h]

section
variable (h : entryPage (s.mem.read32 (pt * pgsize + 4 * ptx va)) = some p) (hp : p < s.layout.npages)
include h hp

theorem exec_pageLookup_mapped : exec (pageLookup pgdir va cell) s =
      (.ok (some p, if cell ≠ 0 then pt * pgsize + 4 * ptx va else cell), s) := by
  obtain ⟨hpres, rfl⟩ := entryPage_eq_some.mp h
  simp [pageLookup, exec_bind, exec_map, exec_pgdirWalk_present ht hpt, hpres, exec_pa2page, pgnum_pteAddr, hp]

theorem exec_pageRemove_mapped (hu : s.uninit ≠ 0) (ha : pt ≠ 0) (hs : ¬ s.Stuck p) : exec (pageRemove pgdir va) s =
      (.ok (), { s.drop p with mem := s.mem.write32 (pt * pgsize + 4 * ptx va) 0#32 }) := by
  have hne : pt * pgsize + 4 * ptx va ≠ 0 := by
    unfold pgsize
    omega
  have hmem : (s.drop p).mem = s.mem := by
    unfold Pmap.drop
    split <;> rfl
  simp [pageRemove, exec_bind, exec_pageLookup_mapped ht hpt h hp, hu, exec_pageDecref hs,
    exec_store hne, hmem]

theorem exec_pageRemove_stuck (hs : s.Stuck p) : exec (pageRemove pgdir va) s = (.error .pageFree, s.decref p) := by
  simp [pageRemove, exec_bind, exec_pageLookup_mapped ht hpt h hp, exec_pageDecref_stuck hs]

end

end

@[simp] theorem Pmap.incref_mem : (s.incref p).mem = s.mem := rfl
@[simp] theorem Pmap.incref_layout : (s.incref p).layout = s.layout := rfl
@[simp] theorem Pmap.incref_uninit : (s.incref p).uninit = s.uninit := rfl

@[simp] theorem Pmap.drop_mem : (s.drop p).mem = s.mem := by
  unfold Pmap.drop
  split <;> rfl

@[simp] theorem Pmap.drop_layout : (s.drop p).layout = s.layout := by
  unfold Pmap.drop
  split <;> rfl

@[simp] theorem Pmap.drop_uninit : (s.drop p).uninit = s.uninit := by
  unfold Pmap.drop
  split <;> rfl

theorem Pmap.drop_withMem (s : Pmap) (m : Mem) (p : Nat) :
    ({ s with mem := m } : Pmap).drop p = { s.drop p with mem := m } := by
  have href : ({ s with mem := m } : Pmap).ref p = s.ref p := rfl
  by_cases hz : s.ref p - 1#16 = 0#16
  · simp only [Pmap.drop, href, hz, if_true]
    rfl
  · simp only [Pmap.drop, href, hz, if_false]
    rfl

/-- The reference counts after `pp` took the place of what the entry at `a` named. -/
def Pmap.replace (s : Pmap) (a pp : Nat) : Pmap :=
  match entryPage (s.mem.read32 a) with
  | none => s.incref pp
  | some old => (s.incref pp).drop old

theorem exec_pageInsert_noMem (hw : exec (pgdirWalk pgdir va true) s = (.ok none, t)) :
    exec (pageInsert pgdir pp va perm) s = (.ok (-eNoMem), t) := by
  simp [pageInsert, exec_bind, hw]

section
variable {t : Pmap}
  (hw : exec (pgdirWalk (q * pgsize) va true) s = (.ok (some (pt * pgsize + 4 * ptx va)), t))
  (ht : entryPage (t.mem.read32 (q * pgsize + 4 * pdx va)) = some pt) (hpt : pt < t.layout.npages)
include hw ht hpt

theorem exec_pageInsert (hne : pt ≠ 0) (hd : q ≠ 0) (hu : t.uninit ≠ 0)
    (hold : ∀ old, entryPage (t.mem.read32 (pt * pgsize + 4 * ptx va)) = some old →
      old < t.layout.npages ∧ ¬ (t.incref pp).Stuck old) :
    exec (pageInsert (q * pgsize) pp va perm) s =
      (.ok 0, { t.replace (pt * pgsize + 4 * ptx va) pp with
        mem := withMapping t.mem pt (ptx va) q (pdx va) (page2pa pp ||| perm ||| pteP) perm }) := by
  have ha : pt * pgsize + 4 * ptx va ≠ 0 := by
    unfold pgsize
    omega
  have hb : q * pgsize + 4 * pdx va ≠ 0 := by
    unfold pgsize
    omega
  cases he : entryPage (t.mem.read32 (pt * pgsize + 4 * ptx va)) with
  | none =>
    simp [pageInsert, exec_bind, exec_map, hw, entryPage_eq_none.mp he, exec_store ha, exec_store hb,
      Pmap.replace, he, withMapping]
  | some old =>
    obtain ⟨hlt, hs⟩ := hold old he
    have hrem := exec_pageRemove_mapped (s := t.incref pp) ht hpt he hlt hu hne hs
    simp [pageInsert, exec_bind, exec_map, hw, (entryPage_eq_some.mp he).1, hrem, exec_store ha,
      exec_store hb, Pmap.replace, he, withMapping, Mem.write32_write32_self]

theorem exec_pageInsert_stuck
    (he : entryPage (t.mem.read32 (pt * pgsize + 4 * ptx va)) = some old)
    (hlt : old < t.layout.npages) (hs : (t.incref pp).Stuck old) :
    ∃ u, exec (pageInsert (q * pgsize) pp va perm) s = (.error .pageFree, u) := by
  have hrem := exec_pageRemove_stuck (s := t.incref pp) ht hpt he hlt hs
  exact ⟨_, by simp [pageInsert, exec_bind, hw, (entryPage_eq_some.mp he).1, hrem]; rfl⟩

end

end Jos
