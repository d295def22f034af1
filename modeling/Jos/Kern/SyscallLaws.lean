import Jos.Kern.EnvLaws
import Jos.Kern.Syscall

/-!
# What the memory system calls do to memory

The parts of `sys_page_alloc`, `sys_page_map` and `sys_ipc_try_send` that
change page tables, on directories of live environments.
-/

namespace Jos

open Lib

theorem userPerm_of_not_badPerm (h : ¬ badPerm perm) : UserPerm perm := by
  unfold badPerm at h
  push Not at h
  obtain ⟨hu, -, hs⟩ := h
  refine ⟨hu, sub_iff.mpr fun i hi => ?_⟩
  have hz : (perm &&& ~~~pteSyscall).getLsbD i = false := by
    rw [hs]
    simp
  have hlt : i < 32 := BitVec.lt_of_getLsbD hi
  simpa [hi, hlt] using hz

theorem lt_utop_of_not_badVa (h : ¬ badVa va) : va < utop := by
  unfold badVa at h
  push Not at h
  exact BitVec.not_le.mp h.1

section
variable {ι : Type} [Fintype ι] [DecidableEq ι] {P : Platform} {dirs : ι → Option Nat} {s : Pmap}

/-- A page nothing referred to is mapped at `va`, with all its contents cleared. -/
structure Supplied (dirs : ι → Option Nat) (i : ι) (va : Word) (pp : Nat) (perm : Word) (s s' : Pmap) : Prop where
  fresh : ∀ r : Ref ι Own, target dirs s.mem r ≠ some pp
  free : ∀ l, Chain s.next s.pageFreeList l → pp ∈ l
  pte : PteSet dirs s.mem s'.mem i (pdx va) (ptx va) (page2pa pp ||| perm ||| pteP)

theorem Pmap.take_link (hf : s.pageFreeList = some p) (hlast : (s.take p).pageFreeList = none) :
    (s.take p).link p = { s with mem := ((s.take p).link p).mem } := by
  have hnext : (s.pages p).ppLink = none := hlast
  have hpages : ((s.take p).link p).pages = s.pages := by
    funext x
    by_cases hx : x = p
    · subst hx
      simp only [Pmap.link, Pmap.take, Pmap.unlink, Function.update_self, hnext]
      rw [← hnext]
    · simp [Pmap.link, Pmap.take, Pmap.unlink, Function.update_of_ne hx]
  calc (s.take p).link p = { (s.take p).link p with pages := ((s.take p).link p).pages } := rfl
    _ = { s with mem := ((s.take p).link p).mem } := by
      rw [hpages]
      simp [Pmap.link, Pmap.take, Pmap.unlink, hf]

/-- What a call returns, and what it has done: nothing, if it fails. -/
def AllocDone (P : Platform) (dirs : ι → Option Nat) (i : ι) (va perm : Word) (s : Pmap) (r : Int) (s' : Pmap) : Prop :=
  Steady P dirs s' ∧ Touches dirs i s.mem s'.mem ∧
    ((r = -eNoMem ∧ SameTables dirs s.mem s'.mem ∧ s' = { s with mem := s'.mem }) ∨
      (r = 0 ∧ ∃ pp, Supplied dirs i va pp perm s s' ∧ refs dirs s'.mem pp = 1 ∧
        ∀ a, a / pgsize = pp → s'.mem a = 0#8))

theorem pageAllocAt_ok (h : Steady P dirs s) (hq : dirs i = some q) (hva : va < utop) (hperm : UserPerm perm) :
    Triple (pageAllocAt (q * pgsize) va perm) s (AllocDone P dirs i va perm s) (fun _ _ => False) := by
  obtain ⟨l, hok⟩ := h.ok
  unfold pageAllocAt
  cases hf : s.pageFreeList with
  | none =>
    refine .ok_bind (exec_pageAlloc_none hf) ?_
    exact .pure ⟨h, .refl _, .inl ⟨rfl, .refl _, rfl⟩⟩
  | some p =>
    obtain ⟨hpool, hfresh, _, _⟩ := hok.head_unused hf
    obtain ⟨l', rfl, htake, hsame⟩ := hok.take_same hf
    have hb : Bounded dirs (s.take p).mem := hsame.bounded h.bounded
    have h0 : refs dirs (s.take p).mem p = 0 := (hsame.refs_eq p).trans (count_eq_zero.mpr hfresh)
    have htaken : ∀ a, (s.take p).mem a ≠ s.mem a → a / pgsize = p := fun a ha => by
      by_contra hne
      exact ha (fill_page_of_ne hne)
    refine .ok_bind (exec_pageAlloc_true hf (hok.pool_lt hpool)) ?_
    refine .bind (insertFresh_ok htake hb h0 hq hva hperm) ?_
    rintro r t (⟨rfl, hst, hins⟩ | ⟨rfl, rfl, hlast⟩)
    · rw [if_pos rfl]
      refine .pure ⟨hst, fun a ha r hr => ?_,
        .inr ⟨rfl, p, ⟨hfresh, fun l2 hl2 => ?_, ?_⟩, hins.refs_fresh hva h0, fun a ha => ?_⟩⟩
      · by_cases hta : (s.take p).mem a = s.mem a
        · exact hins.touches a (hta ▸ ha) r (by rw [hsame.target_eq]; exact hr)
        · rw [htaken a hta] at hr
          exact absurd hr (hfresh r)
      · rw [hl2.unique hok.counted.chain]
        simp
      · intro j d k ho hk
        rw [hins.pte j d k ho hk, hsame.pte ho hk]
      · have hnot : ∀ r : Ref ι Own, target dirs (s.take p).mem r ≠ some p := by
          rw [hsame.target_eq]
          exact hfresh
        have hkept : t.mem a = (s.take p).mem a := by
          by_contra hne
          have hin := hins.within hne
          rw [ha] at hin
          rcases hin with (hdir | ⟨d, ho, htab⟩) | hfree
          · exact hnot (.dir i) hdir
          · exact hnot (.pde i ⟨⟨d, ho.lt⟩, ho⟩) htab
          · exact (htake.head_unused hfree).2.2.2 (Finset.mem_insert_self p ∅)
        rw [hkept]
        exact fill_page_of_eq ha
    · rw [if_neg (by decide)]
      obtain ⟨hexec, hback⟩ := pageFree_ok htake (Finset.mem_insert_self p ∅)
      rw [Finset.erase_insert (Finset.notMem_empty p)] at hback
      refine .ok_bind hexec (.pure ⟨⟨⟨_, hback⟩, hb⟩, hok.touches fun a ha => .inr ?_, .inl ⟨rfl, hsame, ?_⟩⟩)
      · rw [htaken a ha]
        exact hfresh
      · exact Pmap.take_link hf hlast

/-- Memory after a page was mapped once more: the invariant holds, and the counts are
still bounded if the page's was not at the bound. -/
def Remapped (P : Platform) (dirs : ι → Option Nat) (pp : Nat) (s s' : Pmap) : Prop :=
  (∃ l, MemOk P dirs [] ∅ l s') ∧ (refs dirs s.mem pp < 65535 → Bounded dirs s'.mem)

theorem Inserted.remapped (h : Inserted P dirs ∅ i va pp perm s s') (hb : Bounded dirs s.mem) :
    Remapped P dirs pp s s' := by
  obtain ⟨l', hok', -⟩ := h.ok
  rw [Finset.erase_empty] at hok'
  refine ⟨⟨l', hok'⟩, fun hlt a => ?_⟩
  by_cases ha : a = pp
  · subst ha
    have := h.refs_pp
    omega
  · have h1 := h.refs_le a ha
    have h2 := hb a
    omega

/-- There is a table for `va`, or a page to make it of. -/
def HasTable (dirs : ι → Option Nat) (s : Pmap) (i : ι) (va : Word) : Prop :=
  tableOf dirs s.mem i (pdx va) ≠ none ∨ s.pageFreeList ≠ none

omit [Fintype ι] [DecidableEq ι] in
theorem exec_pageInsert_noTable (hq : dirs i = some q) (h : ¬ HasTable dirs s i va) :
    exec (pageInsert (q * pgsize) pp va perm) s = (.ok (-eNoMem), s) := by
  simp only [HasTable, not_or, not_not] at h
  exact exec_pageInsert_noMem (exec_pgdirWalk_full ((tableOf_some hq).symm.trans h.1) h.2)

theorem remap_ok (h : Steady P dirs s) (hq : dirs j = some q) (hva : va < utop) (hperm : UserPerm perm)
    (hp : Mapped dirs s.mem pp) :
    Triple (pageInsert (q * pgsize) pp va perm) s
      (fun r s' => (r = 0 ∧ HasTable dirs s j va ∧ Inserted P dirs ∅ j va pp perm s s') ∨
        (r = -eNoMem ∧ ¬ HasTable dirs s j va ∧ s = s')) (fun _ _ => False) := by
  obtain ⟨l, hok⟩ := h.ok
  have hins := pageInsert_ok hok hq hva (fun _ => h.bounded) (.inr hp) hperm
  by_cases htab : HasTable dirs s j va
  · refine hins.imp ?_
    rintro r t (⟨hr, hins⟩ | ⟨-, -, hfree, hnone⟩)
    · exact .inl ⟨hr, htab, hins⟩
    · simp [HasTable, hfree, hnone] at htab
  · exact .of_ok (exec_pageInsert_noTable hq htab) (.inr ⟨rfl, htab, rfl⟩)

omit [DecidableEq ι] in
theorem lookup_ok (h : Steady P dirs s) (hq : dirs i = some q) (hva : va < utop)
    {f : Option Nat × Nat → PmapM α} {Q : α → Pmap → Prop} {E : Panic → Pmap → Prop}
    (hnone : entryPage (pteOf dirs s.mem i (pdx va) (ptx va)) = none → Triple (f (none, s.uninit)) s Q E)
    (hsome : ∀ p pte, pte ≠ 0 → entryPage (pteOf dirs s.mem i (pdx va) (ptx va)) = some p →
      s.mem.read32 pte = pteOf dirs s.mem i (pdx va) (ptx va) → Triple (f (some p, pte)) s Q E) :
    Triple (do f (← pageLookup (q * pgsize) va (← get).uninit)) s Q E := by
  obtain ⟨l, hok⟩ := h.ok
  have ho := own_pdx hva
  refine .get_bind ?_
  have hlook := pageLookup_ok hok hq hva
  cases hp : entryPage (pteOf dirs s.mem i (pdx va) (ptx va)) with
  | none =>
    rw [hp] at hlook
    refine .ok_bind hlook ?_
    exact hnone hp
  | some p =>
    obtain ⟨pt, ht⟩ := exists_table hp
    rw [hp, ht] at hlook
    refine .ok_bind hlook (hsome p _ ?_ hp (pteOf_some ht).symm)
    have := P.pool_pos (hok.table_pool ho ht)
    unfold pgsize
    omega

/-- The page `p` that `srcva` maps is mapped once more, with no right to write that
its first mapping lacks. -/
structure Shared (P : Platform) (dirs : ι → Option Nat) (i : ι) (srcva : Word) (j : ι) (dstva perm : Word) (p : Nat)
    (s s' : Pmap) : Prop where
  source : entryPage (pteOf dirs s.mem i (pdx srcva) (ptx srcva)) = some p
  rights : perm &&& pteW ≠ 0 → pteOf dirs s.mem i (pdx srcva) (ptx srcva) &&& pteW ≠ 0
  inserted : Inserted P dirs ∅ j dstva p perm s s'

def MapDone (P : Platform) (dirs : ι → Option Nat) (i : ι) (srcva : Word) (j : ι) (dstva perm : Word) (s : Pmap) (r : Int)
    (s' : Pmap) : Prop :=
  ((r = -eInval ∨ r = -eNoMem) ∧ s' = s) ∨ (r = 0 ∧ ∃ p, Shared P dirs i srcva j dstva perm p s s')

theorem pageMapAt_ok (h : Steady P dirs s) (hq : dirs i = some q) (hq' : dirs j = some q')
    (hva : srcva < utop) (hva' : dstva < utop) (hperm : UserPerm perm) :
    Triple (pageMapAt (q * pgsize) srcva (q' * pgsize) dstva perm) s (MapDone P dirs i srcva j dstva perm s)
      (fun _ _ => False) := by
  unfold pageMapAt
  refine lookup_ok h hq hva (fun _ => .pure (.inl ⟨.inl rfl, rfl⟩)) fun p pte hpte hp hread => ?_
  have hins : (perm &&& pteW ≠ 0 → pteOf dirs s.mem i (pdx srcva) (ptx srcva) &&& pteW ≠ 0) →
      Triple (do return if (← pageInsert (q' * pgsize) p dstva perm) < 0 then -eNoMem else 0) s
        (MapDone P dirs i srcva j dstva perm s) (fun _ _ => False) := fun hw => by
    refine .bind (remap_ok h hq' hva' hperm ⟨i, _, _, own_pdx hva, ptx_lt srcva, hp⟩) ?_
    rintro r t (⟨rfl, -, hins⟩ | ⟨rfl, -, rfl⟩)
    · exact .pure (.inr ⟨rfl, p, hp, hw, hins⟩)
    · exact .pure (.inl ⟨.inr rfl, rfl⟩)
  by_cases hw : perm &&& pteW ≠ 0
  · simp only [if_pos hw, if_neg hpte]
    refine .ok_bind (exec_load pte) ?_
    by_cases hwz : s.mem.read32 pte &&& pteW = 0
    · rw [if_pos hwz]
      exact .pure (.inl ⟨.inl rfl, rfl⟩)
    · rw [if_neg hwz]
      exact hins fun _ => hread ▸ hwz
  · simp only [if_neg hw]
    exact hins fun h => absurd h hw

/-- What a page sent from `srcva` needs: it is mapped, the receiver asks for the right to write
and the sender has it, and the receiver has a table. -/
structure Passes (dirs : ι → Option Nat) (s : Pmap) (i : ι) (srcva : Word) (j : ι) (dstva perm : Word) : Prop where
  mapped : entryPage (pteOf dirs s.mem i (pdx srcva) (ptx srcva)) ≠ none
  asked : perm &&& pteW ≠ 0
  held : pteOf dirs s.mem i (pdx srcva) (ptx srcva) &&& pteW ≠ 0
  table : HasTable dirs s j dstva

/-- What a transfer returns, and what it has done. -/
def SendDone (P : Platform) (dirs : ι → Option Nat) (i : ι) (srcva : Word) (j : ι) (dstva perm : Word) (s : Pmap)
    (r : Option Int) (s' : Pmap) : Prop :=
  (r = none ∧ Passes dirs s i srcva j dstva perm ∧ ∃ p, Shared P dirs i srcva j dstva perm p s s') ∨
    (r ≠ none ∧ ¬ Passes dirs s i srcva j dstva perm)

theorem ipcPageAt_ok (h : Steady P dirs s) (hq : dirs i = some q) (hq' : dirs j = some q')
    (hva : srcva < utop) (hva' : dstva < utop) (hperm : UserPerm perm) :
    Triple (ipcPageAt (q * pgsize) srcva (q' * pgsize) dstva perm) s (SendDone P dirs i srcva j dstva perm s)
      (fun _ _ => False) := by
  unfold ipcPageAt
  refine lookup_ok h hq hva (fun hn => .pure (.inr ⟨nofun, fun hp => hp.mapped hn⟩)) fun p pte hpte hp hread => ?_
  by_cases hw : perm &&& pteW = 0
  · simp only [if_pos hw]
    exact .pure (.inr ⟨nofun, fun hp => hp.asked hw⟩)
  · simp only [if_neg hw, if_neg hpte]
    refine .ok_bind (exec_load pte) ?_
    rw [hread]
    by_cases hwz : pteOf dirs s.mem i (pdx srcva) (ptx srcva) &&& pteW = 0
    · rw [if_pos hwz]
      exact .pure (.inr ⟨nofun, fun hp => hp.held hwz⟩)
    · rw [if_neg hwz]
      refine .bind (remap_ok h hq' hva' hperm ⟨i, _, _, own_pdx hva, ptx_lt srcva, hp⟩) ?_
      rintro r t (⟨rfl, htab, hins⟩ | ⟨rfl, htab, rfl⟩)
      · exact .pure (.inl ⟨rfl, ⟨by simp [hp], hw, hwz, htab⟩, p, hp, fun _ => hwz, hins⟩)
      · exact .pure (.inr ⟨nofun, fun hp => htab hp.table⟩)

end

end Jos
