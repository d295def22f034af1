import Jos.Kern.Space

/-!
# The page-table functions keep the invariant of memory

`page_insert`, `page_remove` and the allocator from a state where `MemOk`
holds: they return, and the state they leave is again one where it holds. The
only assumption besides is that no reference count is about to wrap
(`Bounded`).
-/

namespace Jos

open Lib

def Bounded {ι : Type} [Fintype ι] (dirs : ι → Option Nat) (m : Mem) : Prop :=
  ∀ p, refs dirs m p ≤ 65535

def Mapped {ι : Type} (dirs : ι → Option Nat) (m : Mem) (p : Nat) : Prop :=
  ∃ i d t, Own d ∧ t < 1024 ∧ entryPage (pteOf dirs m i d t) = some p

section
variable {ι : Type} [Fintype ι] {P : Platform} {dirs : ι → Option Nat}
  {pend : List Nat} {held : Finset Nat} {l : List Nat} {s : Pmap}

theorem refs_pos (ho : Own d) (hk : t < 1024) (hp : entryPage (pteOf dirs s.mem i d t) = some p) :
    0 < refs dirs s.mem p :=
  count_pos (i := (.pte i ⟨⟨d, ho.lt⟩, ho⟩ ⟨t, hk⟩ : Ref ι Own)) hp

theorem MemOk.mappable (h : MemOk P dirs pend held l s) (hp : p ∈ held ∨ Mapped dirs s.mem p) :
    P.pool p ∧ p ∉ l ∧ ∀ r : Ref ι Own, IsTable r → target dirs s.mem r ≠ some p := by
  rcases hp with hp | ⟨i, d, t, ho, hk, hp⟩
  · obtain ⟨hpool, hu⟩ := h.counted.held_ok hp
    refine ⟨hpool, h.counted.not_free_of_held hp, fun r _ => ?_⟩
    simp only [uses, Nat.add_eq_zero_iff] at hu
    exact count_eq_zero.mp hu.1 r
  · have hfree := h.counted.not_free_of_target (r := (.pte i ⟨⟨d, ho.lt⟩, ho⟩ ⟨t, hk⟩ : Ref ι Own)) hp
    exact ⟨h.page_pool ho hk hp, hfree, h.mapped_not_table ho hk hp⟩

/-! ## The allocator -/

theorem pageFree_ok (h : MemOk P dirs pend held l s) (hp : p ∈ held) :
    exec (pageFree p) s = (.ok (), s.link p) ∧ MemOk P dirs pend (held.erase p) (p :: l) (s.link p) := by
  obtain ⟨hnext, href, hok⟩ := h.putBack hp
  refine ⟨?_, hok⟩
  unfold Pmap.next at hnext
  unfold Pmap.ref at href
  simp [pageFree, exec_bind, hnext, href]

omit [Fintype ι] in
theorem pde_read (hq : dirs i = some q) :
    s.mem.read32 (q * pgsize + 4 * pdx va) = pdeOf dirs s.mem i (pdx va) :=
  (pdeOf_some hq).symm

omit [Fintype ι] in
theorem pte_read (ht : tableOf dirs s.mem i (pdx va) = some pt) :
    s.mem.read32 (pt * pgsize + 4 * ptx va) = pteOf dirs s.mem i (pdx va) (ptx va) :=
  (pteOf_some ht).symm

/-- `page_lookup` returns what the tables say and changes nothing. -/
theorem pageLookup_ok (h : MemOk P dirs pend held l s) (hq : dirs i = some q) (hva : va < utop) :
    exec (pageLookup (q * pgsize) va s.uninit) s =
      match entryPage (pteOf dirs s.mem i (pdx va) (ptx va)), tableOf dirs s.mem i (pdx va) with
      | some p, some pt => (.ok (some p, pt * pgsize + 4 * ptx va), s)
      | _, _ => (.ok (none, s.uninit), s) := by
  have ho := own_pdx hva
  cases ht : tableOf dirs s.mem i (pdx va) with
  | none =>
    rw [pteOf_none ht, entryPage_zero]
    exact exec_pageLookup_noTable ((tableOf_some hq).symm.trans ht)
  | some pt =>
    have htab := (tableOf_some hq).symm.trans ht
    have hlt := h.pool_lt (h.table_pool ho ht)
    rw [pteOf_some ht]
    cases hp : entryPage (s.mem.read32 (pt * pgsize + 4 * ptx va)) with
    | none => exact exec_pageLookup_unmapped htab hlt hp
    | some p =>
      have hpool := h.page_pool ho (ptx_lt va) (by rw [pteOf_some ht]; exact hp)
      simp [exec_pageLookup_mapped htab hlt hp (h.pool_lt hpool), h.uninit_ne]

end

/-! ## Removing and inserting a mapping -/

/-- The table entries of `m'` are those of `m`, except that entry `t` of table
`d` of directory `i` is `w`. -/
def PteSet {ι : Type} [DecidableEq ι] (dirs : ι → Option Nat) (m m' : Mem) (i : ι) (d t : Nat) (w : Word) :
    Prop :=
  ∀ j d' t', Own d' → t' < 1024 →
    pteOf dirs m' j d' t' = if j = i ∧ d' = d ∧ t' = t then w else pteOf dirs m j d' t'

section
variable {ι : Type} [Fintype ι] [DecidableEq ι] {P : Platform} {dirs : ι → Option Nat}
  {pend : List Nat} {held : Finset Nat} {l : List Nat} {s : Pmap}

theorem MemOk.pteSet_clear (h : MemOk P dirs pend held l s) (ht : tableOf dirs s.mem i d = some pt)
    (ho : Own d) (hk : t < 1024) :
    PteSet dirs s.mem (s.mem.write32 (pt * pgsize + 4 * t) 0#32) i d t 0#32 :=
  fun _ _ _ ho' hk' => pteOf_storePte h.sep.tabSep ht ho ho.lt hk ho' ho'.lt hk'

omit [DecidableEq ι] in
theorem uses_lt_of_bounded (hb : Bounded dirs s.mem)
    (hr : ∀ a, refs dirs m' a + (if p = a then 1 else 0) = refs dirs s.mem a) (hpend : pend.length ≤ 1) :
    uses (target dirs m' : Ref ι Own → Option Nat) pend p < 65536 := by
  have h1 := hr p
  have h2 := hb p
  have h3 := List.count_le_length (a := p) (l := pend)
  rw [if_pos rfl] at h1
  unfold refs at h1 h2
  unfold uses
  omega

def IsSpace (dirs : ι → Option Nat) (m : Mem) (i : ι) (p : Nat) : Prop :=
  dirs i = some p ∨ ∃ d, Own d ∧ tableOf dirs m i d = some p

/-- The reference is that of `i` to its directory or to one of its tables. -/
def IsTableOf (i : ι) : Ref ι Own → Prop
  | .dir j | .pde j _ => j = i
  | .pte _ _ _ => False

/-- What changed lies in pages that nothing refers to but `i`, as its directory and tables. -/
def Touches (dirs : ι → Option Nat) (i : ι) (m m' : Mem) : Prop :=
  ∀ a, m' a ≠ m a → ∀ r : Ref ι Own, target dirs m r = some (a / pgsize) → IsTableOf i r

omit [Fintype ι] [DecidableEq ι] in
theorem Touches.refl (m : Mem) : Touches dirs i m m := fun _ h => absurd rfl h

omit [DecidableEq ι] in
theorem MemOk.touches (h : MemOk P dirs pend held l s)
    (hm : ∀ a, m' a ≠ s.mem a → IsSpace dirs s.mem i (a / pgsize) ∨
      ∀ r : Ref ι Own, target dirs s.mem r ≠ some (a / pgsize)) : Touches dirs i s.mem m' := by
  intro a ha r hr
  rcases hm a ha with (hq | ⟨d, ho, ht⟩) | hfresh
  · obtain rfl := h.sep (.dir i) r _ trivial hq hr
    rfl
  · obtain rfl := h.sep (.pde i ⟨⟨d, ho.lt⟩, ho⟩) r _ trivial ht hr
    rfl
  · exact absurd hr (hfresh r)

def IsRefOf (b : ι) : Ref ι Own → Prop
  | .dir j | .pde j _ | .pte j _ _ => j = b

/-- The directory, the tables and the pages of `b` hold what they held. -/
def KeepsSpace (dirs : ι → Option Nat) (b : ι) (m m' : Mem) : Prop :=
  ∀ a (r : Ref ι Own), IsRefOf b r → target dirs m r = some (a / pgsize) → m' a = m a

omit [Fintype ι] [DecidableEq ι] in
theorem KeepsSpace.refl (m : Mem) : KeepsSpace dirs b m m := fun _ _ _ _ => rfl

omit [Fintype ι] [DecidableEq ι] in
theorem Touches.keeps (h : Touches dirs i m m') (hne : b ≠ i) : KeepsSpace dirs b m m' := by
  intro a r hr ht
  by_contra ha
  have hi := h a ha r ht
  match r with
  | .dir j => exact hne (hr.symm.trans hi)
  | .pde j d => exact hne (hr.symm.trans hi)
  | .pte j d t => exact hi

omit [Fintype ι] [DecidableEq ι] in
theorem Touches.page (h : Touches dirs i m m') (ho : Own d) (hk : t < 1024)
    (hp : entryPage (pteOf dirs m b d t) = some (a / pgsize)) : m' a = m a := by
  by_contra ha
  exact h a ha (.pte b ⟨⟨d, ho.lt⟩, ho⟩ ⟨t, hk⟩) hp

omit [Fintype ι] [DecidableEq ι] in
theorem KeepsSpace.pde (h : KeepsSpace dirs b m m') (hd : d < 1024) : pdeOf dirs m' b d = pdeOf dirs m b d :=
  pdeOf_congr (fun _ hq a ha => h a (.dir b) rfl (by rw [ha]; exact hq)) hd

omit [Fintype ι] [DecidableEq ι] in
theorem KeepsSpace.pte (h : KeepsSpace dirs b m m') (ho : Own d) (hk : t < 1024) :
    pteOf dirs m' b d t = pteOf dirs m b d t :=
  pteOf_congr (h.pde ho.lt) (fun _ ht a ha => h a (.pde b ⟨⟨d, ho.lt⟩, ho⟩) rfl (by rw [ha]; exact ht)) hk

omit [Fintype ι] [DecidableEq ι] in
theorem KeepsSpace.page (h : KeepsSpace dirs b m m') (ho : Own d) (hk : t < 1024)
    (hp : entryPage (pteOf dirs m b d t) = some (a / pgsize)) : m' a = m a :=
  h a (.pte b ⟨⟨d, ho.lt⟩, ho⟩ ⟨t, hk⟩) rfl hp

theorem withMapping_of_ne (hd : d < 1024) (hk : t < 1024) (hpt : a / pgsize ≠ pt) (hq : a / pgsize ≠ q) :
    withMapping m pt t q d w perm a = m a :=
  (write32_page_of_ne hd hq).trans (write32_page_of_ne hk hpt)

theorem newTable_of_ne {s : Pmap} (hd : d < 1024) (hp : a / pgsize ≠ p) (hq : a / pgsize ≠ q) :
    (s.newTable (q * pgsize + 4 * d) p).mem a = s.mem a :=
  (write32_page_of_ne hd hq).trans (fill_page_of_ne hp)

theorem MemOk.unmap (h : MemOk P dirs pend held l s) (hb : Bounded dirs s.mem) (hpend : pend.length ≤ 1)
    (ht : tableOf dirs s.mem i d = some pt) (ho : Own d) (hk : t < 1024)
    (hp : entryPage (pteOf dirs s.mem i d t) = some p) :
    ¬ s.Stuck p ∧ ∃ l', MemOk P dirs pend held l'
      { s.drop p with mem := s.mem.write32 (pt * pgsize + 4 * t) 0#32 } ∧ l.length ≤ l'.length := by
  obtain ⟨hok, hr⟩ := h.clearPte ht ho hk hp
  obtain ⟨hstuck, l', hok', hl'⟩ := hok.drop (uses_lt_of_bounded hb hr hpend)
  rw [Pmap.drop_withMem] at hok'
  refine ⟨hstuck, l', hok', ?_⟩
  rw [hl']
  split <;> simp

structure Removed (P : Platform) (dirs : ι → Option Nat) (held : Finset Nat) (i : ι) (va : Word)
    (s s' : Pmap) : Prop where
  ok : ∃ l', MemOk P dirs [] held l' s'
  unmapped : entryPage (pteOf dirs s'.mem i (pdx va) (ptx va)) = none
  others : ∀ j d t, Own d → t < 1024 → ¬ (j = i ∧ d = pdx va ∧ t = ptx va) →
    pteOf dirs s'.mem j d t = pteOf dirs s.mem j d t
  pde : ∀ j d, d < 1024 → pdeOf dirs s'.mem j d = pdeOf dirs s.mem j d
  refs_le : ∀ a, refs dirs s'.mem a ≤ refs dirs s.mem a
  within : s'.mem a ≠ s.mem a → IsSpace dirs s.mem i (a / pgsize)

omit [DecidableEq ι] in
theorem Removed.touches (h : Removed P dirs held i va s s') (hok : MemOk P dirs [] held l s) :
    Touches dirs i s.mem s'.mem := hok.touches fun _ ha => .inl (h.within ha)

theorem pageRemove_ok (h : MemOk P dirs [] held l s) (hb : Bounded dirs s.mem) (hq : dirs i = some q)
    (hva : va < utop) :
    Triple (pageRemove (q * pgsize) va) s (fun _ s' => Removed P dirs held i va s s')
      (fun _ _ => False) := by
  have ho := own_pdx hva
  have hlook := pageLookup_ok h hq hva
  cases hp : entryPage (pteOf dirs s.mem i (pdx va) (ptx va)) with
  | none =>
    rw [hp] at hlook
    have hexec : exec (pageRemove (q * pgsize) va) s = (.ok (), s) := by
      simp [pageRemove, exec_bind, hlook]
    exact .of_ok hexec
      ⟨⟨l, h⟩, hp, fun _ _ _ _ _ _ => rfl, fun _ _ _ => rfl, fun _ => Nat.le_refl _,
        fun h => absurd rfl h⟩
  | some p =>
    obtain ⟨pt, ht⟩ := exists_table hp
    have hpos := P.pool_pos (h.table_pool ho ht)
    obtain ⟨hstuck, l', hok, -⟩ := h.unmap hb (by simp) ht ho (ptx_lt va) hp
    have hset := h.pteSet_clear ht ho (ptx_lt va)
    obtain ⟨_, hr⟩ := h.clearPte ht ho (ptx_lt va) hp
    refine .of_ok (exec_pageRemove_mapped ((tableOf_some hq).symm.trans ht) (h.pool_lt (h.table_pool ho ht))
      (by rw [pte_read ht]; exact hp) (h.pool_lt (h.page_pool ho (ptx_lt va) hp)) h.uninit_ne
      (Nat.pos_iff_ne_zero.mp hpos) hstuck)
      ⟨⟨l', hok⟩, ?_, fun j d t ho' hk' hne => (hset j d t ho' hk').trans (if_neg hne),
        fun j d hd => pdeOf_storePte h.sep.tabSep ht ho ho.lt (ptx_lt va) hd,
        fun a => Nat.le_trans (Nat.le_add_right _ _) (Nat.le_of_eq (hr a)), fun {a} ha => ?_⟩
    · rw [hset i _ _ ho (ptx_lt va), if_pos ⟨rfl, rfl, rfl⟩, entryPage_zero]
    · have hpage : a / pgsize = pt := by
        by_contra hne
        exact ha (write32_page_of_ne (ptx_lt va) hne)
      exact .inr ⟨_, ho, by rw [hpage]; exact ht⟩

/-- The counters and the tables after `pp` took the place of what a table entry named. -/
theorem MemOk.insert (h : MemOk P dirs [] held l s) (hq : dirs i = some q)
    (ht : tableOf dirs s.mem i d = some pt) (ho : Own d) (hk : t < 1024)
    (hb : entryPage (pteOf dirs s.mem i d t) ≠ none → Bounded dirs s.mem)
    (hpp : pp ∈ held ∨ Mapped dirs s.mem pp) (hperm : UserPerm perm) :
    (∀ old, entryPage (pteOf dirs s.mem i d t) = some old → ¬ (s.incref pp).Stuck old) ∧
      (∃ l', MemOk P dirs [] (held.erase pp) l' { s.replace (pt * pgsize + 4 * t) pp with
        mem := withMapping s.mem pt t q d (page2pa pp ||| perm ||| pteP) perm } ∧ l.length ≤ l'.length) ∧
      ∀ a, refs dirs (withMapping s.mem pt t q d (page2pa pp ||| perm ||| pteP) perm) a +
        (if entryPage (pteOf dirs s.mem i d t) = some a then 1 else 0) =
          refs dirs s.mem a + if pp = a then 1 else 0 := by
  obtain ⟨hpool, hnl, htab⟩ := h.mappable hpp
  have hinc := h.incref hpool hnl htab
  have hread : s.mem.read32 (pt * pgsize + 4 * t) = pteOf dirs s.mem i d t := (pteOf_some ht).symm
  unfold Pmap.replace
  rw [hread]
  cases he : entryPage (pteOf dirs s.mem i d t) with
  | none =>
    obtain ⟨hok, hr⟩ := hinc.mapAt hq ht ho hk he hperm
    exact ⟨by simp, ⟨l, hok, Nat.le_refl _⟩, fun a => by simpa using hr a⟩
  | some old =>
    obtain ⟨hstuck, l', hok, hlen⟩ := hinc.unmap (hb (by simp [he])) (by simp) ht ho hk he
    obtain ⟨_, hclear⟩ := h.clearPte ht ho hk he
    have ht' : tableOf dirs (s.mem.write32 (pt * pgsize + 4 * t) 0#32) i d = some pt := by
      unfold tableOf
      rw [pdeOf_storePte h.sep.tabSep ht ho ho.lt hk ho.lt]
      exact ht
    have he' : entryPage (pteOf dirs (s.mem.write32 (pt * pgsize + 4 * t) 0#32) i d t) = none := by
      rw [h.pteSet_clear ht ho hk i d t ho hk, if_pos ⟨rfl, rfl, rfl⟩, entryPage_zero]
    obtain ⟨hok', hr⟩ := hok.mapAt hq ht' ho hk he' hperm
    have hmem : withMapping (s.mem.write32 (pt * pgsize + 4 * t) 0#32) pt t q d
        (page2pa pp ||| perm ||| pteP) perm =
        withMapping s.mem pt t q d (page2pa pp ||| perm ||| pteP) perm := withMapping_clear ..
    refine ⟨fun old' ho' => Option.some.inj ho' ▸ hstuck, ⟨l', ?_, hlen⟩, fun a => ?_⟩
    · rw [← hmem]
      exact hok'
    · have h1 := hr a
      have h2 := hclear a
      have h3 : refs dirs (withMapping s.mem pt t q d (page2pa pp ||| perm ||| pteP) perm) a =
          refs dirs (s.mem.write32 (pt * pgsize + 4 * t) 0#32) a + if pp = a then 1 else 0 := by
        rw [← hmem]
        exact h1
      simp only [Option.some.injEq]
      omega

structure Inserted (P : Platform) (dirs : ι → Option Nat) (held : Finset Nat) (i : ι) (va : Word) (pp : Nat)
    (perm : Word) (s s' : Pmap) : Prop where
  ok : ∃ l', MemOk P dirs [] (held.erase pp) l' s' ∧
    ∀ l, Chain s.next s.pageFreeList l →
      l.length ≤ l'.length + if tableOf dirs s.mem i (pdx va) = none then 1 else 0
  pde : ∀ j d, d < 1024 → ¬ (j = i ∧ d = pdx va) → pdeOf dirs s'.mem j d = pdeOf dirs s.mem j d
  pte : PteSet dirs s.mem s'.mem i (pdx va) (ptx va) (page2pa pp ||| perm ||| pteP)
  refs_le : ∀ a, a ≠ pp → refs dirs s'.mem a ≤ max 1 (refs dirs s.mem a)
  refs_pp : refs dirs s'.mem pp + (if entryPage (pteOf dirs s.mem i (pdx va) (ptx va)) = some pp then 1 else 0) =
    refs dirs s.mem pp + 1
  touches : Touches dirs i s.mem s'.mem
  /-- A new table is made of the first free page. -/
  within : s'.mem a ≠ s.mem a → IsSpace dirs s.mem i (a / pgsize) ∨ s.pageFreeList = some (a / pgsize)

/-- Replacing a mapping takes a count that has not wrapped. -/
theorem pageInsert_ok (h : MemOk P dirs [] held l s) (hq : dirs i = some q) (hva : va < utop)
    (hb : entryPage (pteOf dirs s.mem i (pdx va) (ptx va)) ≠ none → Bounded dirs s.mem)
    (hpp : pp ∈ held ∨ Mapped dirs s.mem pp) (hperm : UserPerm perm) :
    Triple (pageInsert (q * pgsize) pp va perm) s
      (fun r s' => (r = 0 ∧ Inserted P dirs held i va pp perm s s') ∨
        (r = -eNoMem ∧ s' = s ∧ s.pageFreeList = none ∧ tableOf dirs s.mem i (pdx va) = none))
      (fun _ _ => False) := by
  have ho := own_pdx hva
  have hk := ptx_lt va
  have hqpos := Nat.pos_iff_ne_zero.mp (P.pool_pos (h.dir_pool hq))
  cases ht : tableOf dirs s.mem i (pdx va) with
  | some pt =>
    have htab := (tableOf_some hq).symm.trans ht
    have hpt := h.table_pool ho ht
    obtain ⟨hstuck, ⟨l', hok, hlen⟩, hr⟩ := h.insert hq ht ho hk hb hpp hperm
    have hwithin : ∀ {a}, withMapping s.mem pt (ptx va) q (pdx va) (page2pa pp ||| perm ||| pteP) perm a ≠ s.mem a →
        IsSpace dirs s.mem i (a / pgsize) := by
      intro a ha
      by_cases hpq : a / pgsize = q
      · exact .inl (by rw [hpq]; exact hq)
      · have hpage : a / pgsize = pt := by
          by_contra hne
          exact ha (withMapping_of_ne ho.lt hk hne hpq)
        exact .inr ⟨_, ho, by rw [hpage]; exact ht⟩
    refine .of_ok (exec_pageInsert (exec_pgdirWalk_present htab (h.pool_lt hpt)) htab (h.pool_lt hpt)
      (Nat.pos_iff_ne_zero.mp (P.pool_pos hpt)) hqpos h.uninit_ne fun old hold => ?_)
      (.inl ⟨rfl, ⟨l', hok, fun l2 hl2 => ?_⟩, ?_, ?_, ?_, ?_, h.touches fun a ha => .inl (hwithin ha),
        fun ha => .inl (hwithin ha)⟩)
    · rw [pte_read ht] at hold
      exact ⟨h.pool_lt (h.page_pool ho hk hold), hstuck old hold⟩
    · obtain rfl := hl2.unique h.counted.chain
      exact Nat.le_trans hlen (Nat.le_add_right ..)
    · intro j d hd hne
      exact (pdeOf_withMapping h.sep.tabSep hq ht ho ho.lt hk hd).trans (if_neg hne)
    · exact fun j d t ho' hk' => pteOf_withMapping h.sep.tabSep hq ht ho ho.lt hk hperm.isPerm ho' ho'.lt hk'
    · intro a ha
      have := hr a
      rw [if_neg (Ne.symm ha)] at this
      exact Nat.le_trans (Nat.le_trans (Nat.le_add_right ..) (Nat.le_of_eq this)) (Nat.le_max_right ..)
    · rw [hr pp, if_pos rfl]
  | none =>
    have htab := (tableOf_some hq).symm.trans ht
    cases hf : s.pageFreeList with
    | none => exact .of_ok (exec_pageInsert_noMem (exec_pgdirWalk_full htab hf)) (.inr ⟨rfl, rfl, rfl, rfl⟩)
    | some p =>
      obtain ⟨hppool, hfresh, _, _⟩ := h.head_unused hf
      have hp := h.pool_lt hppool
      obtain ⟨l', rfl, hnew, hrn, hpden, hpten⟩ := h.newTable hf hq ho ht
      have ha : q * pgsize + 4 * pdx va ≠ 0 := by
        unfold pgsize
        omega
      -- In the state with the fresh table the entry is still absent.
      have ht' : tableOf dirs (s.newTable (q * pgsize + 4 * pdx va) p).mem i (pdx va) = some p := by
        unfold tableOf
        rw [hpden i (pdx va) ho.lt, if_pos ⟨rfl, rfl⟩]
        exact entryPage_page2pa (Nat.lt_of_lt_of_le hp s.layout.npages_le)
      have htab' := (tableOf_some hq).symm.trans ht'
      have hp0 : refs dirs s.mem p = 0 := count_eq_zero.mpr hfresh
      have hold' := hpten i (pdx va) (ptx va) ho hk
      have hb' : entryPage (pteOf dirs (s.newTable (q * pgsize + 4 * pdx va) p).mem i (pdx va) (ptx va)) ≠ none →
          Bounded dirs (s.newTable (q * pgsize + 4 * pdx va) p).mem := by
        intro hne a
        have h1 := hrn a
        have h2 := hb (hold' ▸ hne) a
        split at h1
        · subst_vars
          omega
        · omega
      have hpp' : pp ∈ held ∨ Mapped dirs (s.newTable (q * pgsize + 4 * pdx va) p).mem pp := by
        refine hpp.imp_right ?_
        rintro ⟨j, d, t, hod, hkt, hm⟩
        exact ⟨j, d, t, hod, hkt, by rw [hpten j d t hod hkt]; exact hm⟩
      obtain ⟨hstuck, ⟨l'', hok, hlen⟩, hr⟩ := hnew.insert hq ht' ho hk hb' hpp' hperm
      have hwithin : ∀ {a}, withMapping (s.newTable (q * pgsize + 4 * pdx va) p).mem p (ptx va) q (pdx va)
          (page2pa pp ||| perm ||| pteP) perm a ≠ s.mem a → IsSpace dirs s.mem i (a / pgsize) ∨ a / pgsize = p := by
        intro a ha
        by_cases hpq : a / pgsize = q
        · exact .inl (.inl (by rw [hpq]; exact hq))
        · refine .inr (Decidable.byContradiction fun hne => ?_)
          exact ha ((withMapping_of_ne ho.lt hk hne hpq).trans (newTable_of_ne ho.lt hne hpq))
      refine .of_ok (exec_pageInsert (exec_pgdirWalk_new htab hf hp ha) htab' hp
        (Nat.pos_iff_ne_zero.mp (P.pool_pos hppool)) hqpos h.uninit_ne fun old hold => ?_)
        (.inl ⟨rfl, ⟨l'', hok, fun l2 hl2 => ?_⟩, ?_, ?_, ?_, ?_,
          h.touches fun a ha => (hwithin ha).imp_right fun hpage => by rw [hpage]; exact hfresh,
          fun ha => (hwithin ha).imp_right fun hpage => by rw [hpage]; exact hf⟩)
      · rw [pte_read ht'] at hold
        exact ⟨hnew.pool_lt (hnew.page_pool ho hk hold), hstuck old hold⟩
      · obtain rfl := hl2.unique h.counted.chain
        rw [if_pos ht]
        simpa using hlen
      · intro j d hd hne
        refine (pdeOf_withMapping hnew.sep.tabSep hq ht' ho ho.lt hk hd).trans ?_
        rw [if_neg hne, hpden j d hd, if_neg hne]
      · intro j d t ho' hk'
        exact (pteOf_withMapping hnew.sep.tabSep hq ht' ho ho.lt hk hperm.isPerm ho' ho'.lt hk').trans
          (by rw [hpten j d t ho' hk'])
      · intro a hne
        have h1 := hr a
        have h2 := hrn a
        rw [if_neg (Ne.symm hne)] at h1
        refine Nat.le_trans (Nat.le_trans (Nat.le_add_right ..) (Nat.le_of_eq h1)) ?_
        by_cases hpa : p = a
        · subst hpa
          rw [if_pos rfl] at h2
          omega
        · rw [if_neg hpa] at h2
          omega
      · have h1 := hr pp
        have h2 := hrn pp
        have hne : p ≠ pp := by
          rintro rfl
          obtain ⟨_, hnl, _⟩ := h.mappable hpp
          exact hnl (by simp)
        rw [if_neg hne] at h2
        rw [if_pos rfl, h2, hold'] at h1
        exact h1

theorem Inserted.refs_fresh (h : Inserted P dirs held i va p perm s s') (hva : va < utop)
    (h0 : refs dirs s.mem p = 0) : refs dirs s'.mem p = 1 := by
  have hne : entryPage (pteOf dirs s.mem i (pdx va) (ptx va)) ≠ some p := fun hp => by
    have := refs_pos (own_pdx hva) (ptx_lt va) hp
    omega
  have := h.refs_pp
  rw [if_neg hne, h0] at this
  exact this

end

end Jos
