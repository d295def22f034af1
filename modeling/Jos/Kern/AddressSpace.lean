import Jos.Kern.FirstProgram

/-!
# An address space is a finite map

What the hardware makes of a page directory is a map from the pages below
`UTOP` to frames with permissions. `page_insert` and `page_remove` update it at
one page, `page_lookup` reads it, and a failing `page_insert` leaves it alone.
-/

namespace Jos

open Lib

/-! ## The map -/

abbrev UserPage := Fin 0xEEC00

theorem pgnum_lt_of_lt_utop (h : va < utop) : pgnum va < 0xEEC00 := by
  rw [BitVec.lt_def, utop_toNat] at h
  rw [pgnum_eq]
  omega

def userPage (va : Word) (h : va < utop) : UserPage := ⟨pgnum va, pgnum_lt_of_lt_utop h⟩

def UserPage.addr (n : UserPage) : Word := BitVec.ofNat 32 (n.1 * 4096)

/-- The frame and the permissions that both entries grant, for each page. -/
def mmuView (m : Mem) (q : Nat) : UserPage → Option (Nat × Word) := fun n => translate m (q * pgsize) n.addr

theorem UserPage.addr_toNat (n : UserPage) : n.addr.toNat = n.1 * 4096 := by
  have := n.2
  rw [UserPage.addr, BitVec.toNat_ofNat]
  omega

theorem UserPage.addr_lt (n : UserPage) : n.addr < utop := by
  rw [BitVec.lt_def, utop_toNat, n.addr_toNat]
  omega

theorem UserPage.pdx_addr (n : UserPage) : pdx n.addr = n.1 / 1024 := by
  rw [pdx_eq, n.addr_toNat]
  omega

theorem UserPage.ptx_addr (n : UserPage) : ptx n.addr = n.1 % 1024 := by
  rw [ptx_eq, n.addr_toNat]
  omega

theorem pdx_pgnum (va : Word) : pdx va = pgnum va / 1024 := by
  rw [pdx_eq, pgnum_eq]
  omega

theorem ptx_pgnum (va : Word) : ptx va = pgnum va % 1024 := by
  rw [ptx_eq, pgnum_eq]

theorem UserPage.eq_iff (n : UserPage) (h : va < utop) :
    n = userPage va h ↔ pdx n.addr = pdx va ∧ ptx n.addr = ptx va := by
  rw [n.pdx_addr, n.ptx_addr, pdx_pgnum, ptx_pgnum, Fin.ext_iff]
  simp only [userPage]
  omega

/-- The map says for every address below `UTOP` what the hardware does with it. -/
theorem translate_eq_mmuView (h : va < utop) : translate m (q * pgsize) va = mmuView m q (userPage va h) := by
  obtain ⟨hd, ht⟩ := ((userPage va h).eq_iff h).mp rfl
  unfold mmuView translate
  rw [hd, ht]

/-! ## Directories built by the kernel -/

/-- The directory and its tables are pages distinct from each other and from
the mapped pages, and so is the page that becomes the next table. -/
structure Distinct (q : Nat) (s : Pmap) : Prop where
  sep : Sep Own (oneDir q) s.mem
  head : s.pageFreeList = some p → 0 < p ∧ p < s.layout.npages ∧
    ∀ r : Ref Unit Own, target (oneDir q) s.mem r ≠ some p

/-- The states in which the directory at page `q` was made by `env_setup_vm`
and then changed by `page_insert` and `page_remove` alone. In between, the
kernel and the environments do what they like with the rest of memory. -/
inductive Built (q : Nat) : Pmap → Prop
  | setup : s.uninit ≠ 0 → (∀ p, s.pageFreeList = some p → p < s.layout.npages) →
      exec envSetupVm s = (.ok (some (q * pgsize)), s') → Distinct q s' → Built q s'
  | insert : Built q s → pp < s.layout.npages → va < utop → IsPerm perm →
      exec (pageInsert (q * pgsize) pp va perm) s = (.ok r, s') → Distinct q s' → Built q s'
  | remove : Built q s → va < utop → exec (pageRemove (q * pgsize) va) s = (.ok (), s') →
      Distinct q s' → Built q s'
  | other : Built q s → s'.layout = s.layout → s'.uninit ≠ 0 → SameTables (oneDir q) s.mem s'.mem →
      Distinct q s' → Built q s'

/-- What holds of every such directory: its tables and the pages it maps are
pages of the machine, and a table entry grants no more than its directory entry. -/
structure SpaceOk (q : Nat) (s : Pmap) : Prop where
  dir_pos : 0 < q
  uninit_ne : s.uninit ≠ 0
  table : Own d → tableOf (oneDir q) s.mem () d = some pt → 0 < pt ∧ pt < s.layout.npages
  page : Own d → t < 1024 → entryPage (pteOf (oneDir q) s.mem () d t) = some p → p < s.layout.npages
  flags : Own d → t < 1024 → Sub (pteOf (oneDir q) s.mem () d t &&& 0xFFF#32) (pdeOf (oneDir q) s.mem () d)

def entryView (w : Word) : Option (Nat × Word) := (entryPage w).map fun p => (p, w &&& 0xFFF#32)

section
variable {q : Nat} {s s' : Pmap}

theorem SpaceOk.translate_eq (h : SpaceOk q s) (hva : va < utop) :
    translate s.mem (q * pgsize) va = entryView (pteOf (oneDir q) s.mem () (pdx va) (ptx va)) := by
  have hq : oneDir q () = some q := rfl
  unfold entryView
  cases hp : entryPage (pteOf (oneDir q) s.mem () (pdx va) (ptx va)) with
  | none =>
    cases ht : translate s.mem (q * pgsize) va with
    | none => rfl
    | some r =>
      obtain ⟨pt, _, hp', _⟩ := (translate_eq_some hq).mp ht
      simp [hp] at hp'
  | some p =>
    obtain ⟨pt, ht⟩ := exists_table hp
    have hf := h.flags (own_pdx hva) (ptx_lt va)
    unfold Sub at hf
    exact (translate_eq_some hq).mpr ⟨pt, ht, hp, by rw [BitVec.and_assoc, BitVec.and_comm (pdeOf ..), hf]⟩

theorem SpaceOk.mmuView_eq (h : SpaceOk q s) (n : UserPage) :
    mmuView s.mem q n = entryView (pteOf (oneDir q) s.mem () (pdx n.addr) (ptx n.addr)) :=
  h.translate_eq n.addr_lt

theorem SpaceOk.mmuView_page (h : SpaceOk q s) (hva : va < utop) :
    mmuView s.mem q (userPage va hva) = entryView (pteOf (oneDir q) s.mem () (pdx va) (ptx va)) := by
  rw [← translate_eq_mmuView, h.translate_eq hva]

/-- One table entry changed is one page of the map changed. -/
theorem SpaceOk.mmuView_update (h : SpaceOk q s) (h' : SpaceOk q s') (hva : va < utop)
    (hset : PteSet (oneDir q) s.mem s'.mem () (pdx va) (ptx va) w) :
    mmuView s'.mem q = Function.update (mmuView s.mem q) (userPage va hva) (entryView w) := by
  funext n
  rw [h'.mmuView_eq, hset () _ _ (own_pdx n.addr_lt) (ptx_lt _), Function.update_apply]
  simp only [true_and, n.eq_iff hva]
  split
  · rfl
  · rw [h.mmuView_eq]

/-! ## The three functions -/

section
variable (h : SpaceOk q s)
include h

theorem SpaceOk.pageLookup (hva : va < utop) (cell : Nat) : ∃ cell', exec (pageLookup (q * pgsize) va cell) s =
      (.ok (entryPage (pteOf (oneDir q) s.mem () (pdx va) (ptx va)), cell'), s) := by
  have ho := own_pdx hva
  have hq : oneDir q () = some q := rfl
  cases ht : tableOf (oneDir q) s.mem () (pdx va) with
  | none =>
    rw [pteOf_none ht, entryPage_zero]
    exact ⟨cell, exec_pageLookup_noTable ht⟩
  | some pt =>
    have htab := (tableOf_some hq).symm.trans ht
    have hlt := (h.table ho ht).2
    cases hp : entryPage (pteOf (oneDir q) s.mem () (pdx va) (ptx va)) with
    | none => exact ⟨cell, exec_pageLookup_unmapped htab hlt (by rw [pte_read ht]; exact hp)⟩
    | some p =>
      exact ⟨_, exec_pageLookup_mapped htab hlt (by rw [pte_read ht]; exact hp) (h.page ho (ptx_lt va) hp)⟩

theorem SpaceOk.clear (hs : TabSep Own (oneDir q) s.mem) (ho : Own d) (hk : t < 1024)
    (ht : tableOf (oneDir q) s.mem () d = some pt) (hl : s'.layout = s.layout) (hu : s'.uninit = s.uninit)
    (hm : s'.mem = s.mem.write32 (pt * pgsize + 4 * t) 0#32) :
    SpaceOk q s' ∧ PteSet (oneDir q) s.mem s'.mem () d t 0#32 := by
  have hset : PteSet (oneDir q) s.mem s'.mem () d t 0#32 := by
    rw [hm]
    exact fun _ _ _ ho' hk' => pteOf_storePte hs ht ho ho.lt hk ho' ho'.lt hk'
  have hpde : ∀ d', d' < 1024 → pdeOf (oneDir q) s'.mem () d' = pdeOf (oneDir q) s.mem () d' := by
    intro d' hd'
    rw [hm]
    exact pdeOf_storePte hs ht ho ho.lt hk hd'
  refine ⟨⟨h.dir_pos, hu ▸ h.uninit_ne, ?_, ?_, ?_⟩, hset⟩
  · intro d' pt' ho' ht'
    rw [tableOf, hpde d' ho'.lt] at ht'
    rw [hl]
    exact h.table ho' ht'
  · intro d' t' p ho' hk' hp
    rw [hset () d' t' ho' hk'] at hp
    rw [hl]
    split at hp
    · simp at hp
    · exact h.page ho' hk' hp
  · intro d' t' ho' hk'
    rw [hset () d' t' ho' hk', hpde d' ho'.lt]
    split
    · simp [Sub]
    · exact h.flags ho' hk'

theorem SpaceOk.pageRemove (hd : Distinct q s) (hva : va < utop) : Triple (pageRemove (q * pgsize) va) s
      (fun _ s' => SpaceOk q s' ∧ PteSet (oneDir q) s.mem s'.mem () (pdx va) (ptx va) 0#32 ∨
        s' = s ∧ entryPage (pteOf (oneDir q) s.mem () (pdx va) (ptx va)) = none)
      (fun e _ => e = .pageFree ∧ ∃ p, entryPage (pteOf (oneDir q) s.mem () (pdx va) (ptx va)) = some p ∧
        s.Stuck p) := by
  have ho := own_pdx hva
  have hq : oneDir q () = some q := rfl
  cases hp : entryPage (pteOf (oneDir q) s.mem () (pdx va) (ptx va)) with
  | none =>
    obtain ⟨cell, hlook⟩ := h.pageLookup hva s.uninit
    rw [hp] at hlook
    have hexec : exec (Jos.pageRemove (q * pgsize) va) s = (.ok (), s) := by
      simp [Jos.pageRemove, exec_bind, hlook]
    exact .of_ok hexec (.inr ⟨rfl, rfl⟩)
  | some p =>
    obtain ⟨pt, ht⟩ := exists_table hp
    have htab := (tableOf_some hq).symm.trans ht
    have hpte : entryPage (s.mem.read32 (pt * pgsize + 4 * ptx va)) = some p := by
      rw [pte_read ht]
      exact hp
    obtain ⟨hpos, hlt⟩ := h.table ho ht
    have hplt := h.page ho (ptx_lt va) hp
    by_cases hs : s.Stuck p
    · exact .of_error (exec_pageRemove_stuck htab hlt hpte hplt hs) ⟨rfl, p, rfl, hs⟩
    · exact .of_ok (exec_pageRemove_mapped htab hlt hpte hplt h.uninit_ne (Nat.pos_iff_ne_zero.mp hpos) hs)
        (.inl (h.clear hd.sep.tabSep ho (ptx_lt va) ht (Pmap.drop_layout ..) (Pmap.drop_uninit ..) rfl))

theorem SpaceOk.map (hs : TabSep Own (oneDir q) s.mem) (ho : Own d) (hk : t < 1024)
    (ht : tableOf (oneDir q) s.mem () d = some pt) (hpp : pp < s.layout.npages) (hperm : IsPerm perm)
    (hl : s'.layout = s.layout) (hu : s'.uninit = s.uninit)
    (hm : s'.mem = withMapping s.mem pt t q d (page2pa pp ||| perm ||| pteP) perm) :
    SpaceOk q s' ∧ PteSet (oneDir q) s.mem s'.mem () d t (page2pa pp ||| perm ||| pteP) := by
  have hq : oneDir q () = some q := rfl
  have hset : PteSet (oneDir q) s.mem s'.mem () d t (page2pa pp ||| perm ||| pteP) := by
    rw [hm]
    exact fun _ _ _ ho' hk' => pteOf_withMapping hs hq ht ho ho.lt hk hperm ho' ho'.lt hk'
  have hpde : ∀ d', d' < 1024 → pdeOf (oneDir q) s'.mem () d' =
      if () = () ∧ d' = d then pdeOf (oneDir q) s.mem () d ||| perm else pdeOf (oneDir q) s.mem () d' := by
    intro d' hd'
    rw [hm]
    exact pdeOf_withMapping hs hq ht ho ho.lt hk hd'
  simp only [true_and] at hpde
  refine ⟨⟨h.dir_pos, hu ▸ h.uninit_ne, ?_, ?_, ?_⟩, hset⟩
  · intro d' pt' ho' ht'
    rw [tableOf, hpde d' ho'.lt] at ht'
    rw [hl]
    split at ht'
    · rename_i hd
      rw [entryPage_or hperm ht, Option.some.injEq] at ht'
      exact ht' ▸ h.table ho ht
    · exact h.table ho' ht'
  · intro d' t' p ho' hk' hp
    rw [hset () d' t' ho' hk'] at hp
    rw [hl]
    split at hp
    · rw [entryPage_pack (Nat.lt_of_lt_of_le hpp s.layout.npages_le) hperm, Option.some.injEq] at hp
      exact hp ▸ hpp
    · exact h.page ho' hk' hp
  · intro d' t' ho' hk'
    rw [hset () d' t' ho' hk', hpde d' ho'.lt]
    by_cases hd : d' = d
    · subst hd
      rw [if_pos rfl]
      split
      · rw [flags_pack hperm, BitVec.or_comm]
        refine Sub.or ?_ (sub_refl perm)
        rw [Sub, BitVec.and_comm]
        exact (entryPage_eq_some.mp ht).1
      · exact (h.flags ho' hk').or_right perm
    · rw [if_neg (fun hx => hd hx.2.1), if_neg hd]
      exact h.flags ho' hk'

theorem SpaceOk.newTable (hd : Distinct q s) (hf : s.pageFreeList = some p) (ho : Own d)
    (ht : tableOf (oneDir q) s.mem () d = none) :
    SpaceOk q (s.newTable (q * pgsize + 4 * d) p) ∧
      TabSep Own (oneDir q) (s.newTable (q * pgsize + 4 * d) p).mem ∧
      tableOf (oneDir q) (s.newTable (q * pgsize + 4 * d) p).mem () d = some p ∧
      ∀ j d' t', Own d' → t' < 1024 → pteOf (oneDir q) (s.newTable (q * pgsize + 4 * d) p).mem j d' t' =
        pteOf (oneDir q) s.mem j d' t' := by
  have hq : oneDir q () = some q := rfl
  have hs := hd.sep.tabSep
  obtain ⟨hpos, hlt, hfresh⟩ := hd.head hf
  have hw : entryPage (page2pa p ||| pteP) = some p :=
    entryPage_page2pa (Nat.lt_of_lt_of_le hlt s.layout.npages_le)
  have hinj : ∀ j, oneDir q j = some q → j = () := fun _ _ => rfl
  have hdir : ∀ j, oneDir q j ≠ some p := fun j => hfresh (.dir j)
  have hpte : ∀ j d' t', Own d' → t' < 1024 →
      pteOf (oneDir q) (withTable s.mem q d p (page2pa p ||| pteP)) j d' t' = pteOf (oneDir q) s.mem j d' t' :=
    fun j d' t' ho' hk' => pteOf_withTable hq hinj hdir ho.lt hs ht hw
      (fun j d ho hd => hfresh (.pde j ⟨⟨d, hd⟩, ho⟩)) ho' ho'.lt hk'
  have hpde : ∀ d', d' < 1024 → pdeOf (oneDir q) (withTable s.mem q d p (page2pa p ||| pteP)) () d' =
      if () = () ∧ d' = d then page2pa p ||| pteP else pdeOf (oneDir q) s.mem () d' :=
    fun d' hd' => pdeOf_withTable hq hinj hdir ho.lt hd'
  simp only [true_and] at hpde
  have htab : ∀ d', d' < 1024 → tableOf (oneDir q) (withTable s.mem q d p (page2pa p ||| pteP)) () d' =
      if d' = d then some p else tableOf (oneDir q) s.mem () d' := by
    intro d' hd'
    rw [tableOf, hpde d' hd']
    split
    · exact hw
    · rfl
  refine ⟨⟨h.dir_pos, h.uninit_ne, ?_, ?_, ?_⟩, ?_, ?_, hpte⟩
  · intro d' pt ho' ht'
    have ht'' := (htab d' ho'.lt).symm.trans ht'
    split at ht''
    · exact Option.some.inj ht'' ▸ ⟨hpos, hlt⟩
    · exact h.table ho' ht''
  · intro d' t' p' ho' hk' hp
    exact h.page ho' hk' ((congrArg entryPage (hpte () d' t' ho' hk')).symm.trans hp)
  · intro d' t' ho' hk'
    refine (?_ : Sub (pteOf (oneDir q) (withTable s.mem q d p (page2pa p ||| pteP)) () d' t' &&& _)
      (pdeOf (oneDir q) (withTable s.mem q d p (page2pa p ||| pteP)) () d'))
    rw [hpte () d' t' ho' hk', hpde d' ho'.lt]
    split
    · rename_i hdd
      rw [hdd, pteOf_none ht]
      simp [Sub]
    · exact h.flags ho' hk'
  · have hsep : Sep Own (oneDir q) (withTable s.mem q d p (page2pa p ||| pteP)) := by
      unfold Sep
      rw [target_withTable hs hq hfresh ho ho.lt ht hw]
      exact hd.sep.store (fun x _ => hfresh x) (fun _ x => hfresh x)
    exact hsep.tabSep
  · exact (htab d ho.lt).trans (if_pos rfl)

end

theorem Pmap.replace_layout (s : Pmap) (a pp : Nat) : (s.replace a pp).layout = s.layout := by
  unfold Pmap.replace
  split <;> simp

theorem Pmap.replace_uninit (s : Pmap) (a pp : Nat) : (s.replace a pp).uninit = s.uninit := by
  unfold Pmap.replace
  split <;> simp

theorem SpaceOk.pageInsert (h : SpaceOk q s) (hd : Distinct q s) (hva : va < utop) (hpp : pp < s.layout.npages)
    (hperm : IsPerm perm) :
    Triple (pageInsert (q * pgsize) pp va perm) s
      (fun r s' => (r = 0 ∧ SpaceOk q s' ∧
          PteSet (oneDir q) s.mem s'.mem () (pdx va) (ptx va) (page2pa pp ||| perm ||| pteP)) ∨
        (r = -eNoMem ∧ s' = s))
      (fun e _ => e = .pageFree ∧ ∃ p, entryPage (pteOf (oneDir q) s.mem () (pdx va) (ptx va)) = some p ∧
        (s.incref pp).Stuck p) := by
  have ho := own_pdx hva
  have hk := ptx_lt va
  have hq : oneDir q () = some q := rfl
  have hq0 := Nat.pos_iff_ne_zero.mp h.dir_pos
  cases ht : tableOf (oneDir q) s.mem () (pdx va) with
  | some pt =>
    have htab := (tableOf_some hq).symm.trans ht
    obtain ⟨hpos, hlt⟩ := h.table ho ht
    have hwalk : exec (pgdirWalk (q * pgsize) va true) s = (.ok (some (pt * pgsize + 4 * ptx va)), s) :=
      exec_pgdirWalk_present htab hlt
    -- The page mapped so far, if any, is given up first.
    by_cases hst : ∃ p, entryPage (pteOf (oneDir q) s.mem () (pdx va) (ptx va)) = some p ∧
        (s.incref pp).Stuck p
    · obtain ⟨p, hp, hstuck⟩ := hst
      obtain ⟨u, hexec⟩ : ∃ u, exec (Jos.pageInsert (q * pgsize) pp va perm) s = (.error .pageFree, u) :=
        exec_pageInsert_stuck hwalk htab hlt (by rw [pte_read ht]; exact hp) (h.page ho hk hp) hstuck
      exact .of_error hexec ⟨rfl, p, hp, hstuck⟩
    · refine .of_ok (exec_pageInsert hwalk htab hlt (Nat.pos_iff_ne_zero.mp hpos) hq0 h.uninit_ne
        fun old hold => ?_) (.inl ⟨rfl, h.map hd.sep.tabSep ho hk ht hpp hperm
          (Pmap.replace_layout ..) (Pmap.replace_uninit ..) rfl⟩)
      rw [pte_read ht] at hold
      exact ⟨h.page ho hk hold, fun hs => hst ⟨old, hold, hs⟩⟩
  | none =>
    have htab := (tableOf_some hq).symm.trans ht
    cases hf : s.pageFreeList with
    | none => exact .of_ok (exec_pageInsert_noMem (exec_pgdirWalk_full htab hf)) (.inr ⟨rfl, rfl⟩)
    | some p =>
      obtain ⟨hpos, hlt, hfresh⟩ := hd.head hf
      obtain ⟨hnew, hsep, htp, hpte⟩ := h.newTable hd hf ho ht
      have ha : q * pgsize + 4 * pdx va ≠ 0 := by
        unfold pgsize
        omega
      have htab' := (tableOf_some hq).symm.trans htp
      refine .of_ok (exec_pageInsert (exec_pgdirWalk_new htab hf hlt ha) htab' hlt
        (Nat.pos_iff_ne_zero.mp hpos) hq0 h.uninit_ne fun old hold => ?_) ?_
      · rw [pte_read htp, hpte () _ _ ho hk, pteOf_none ht, entryPage_zero] at hold
        simp at hold
      · refine .inl ⟨rfl, And.imp_right (fun hset j d t ho' hk' => ?_)
          (hnew.map hsep ho hk htp hpp hperm (Pmap.replace_layout ..) (Pmap.replace_uninit ..) rfl)⟩
        rw [← hpte j d t ho' hk']
        exact hset j d t ho' hk'

/-! ## Every directory the kernel builds -/

theorem forM_copy_keeps (ha : a ≠ 0) (l : List Nat) :
    Triple (l.forM fun i => do store (a + 4 * i) (← load (b + 4 * i))) s
      (fun _ s' => (∀ j, j ∉ l → s'.mem.read32 (a + 4 * j) = s.mem.read32 (a + 4 * j)) ∧
        s'.layout = s.layout ∧ s'.uninit = s.uninit) (fun _ _ => False) := by
  induction l generalizing s with
  | nil => exact .pure ⟨fun _ _ => rfl, rfl, rfl⟩
  | cons i l ih =>
    have hstep : exec (do store (a + 4 * i) (← load (b + 4 * i))) s =
        (.ok (), { s with mem := s.mem.write32 (a + 4 * i) (s.mem.read32 (b + 4 * i)) }) := by
      rw [exec_bind_ok (exec_load _)]
      exact exec_store (by omega)
    refine .ok_bind hstep ?_
    refine ih.imp ?_
    rintro _ s' ⟨hkeep, hl, hu⟩
    refine ⟨fun j hj => ?_, hl, hu⟩
    simp only [List.mem_cons, not_or] at hj
    rw [hkeep j hj.2, Mem.read32_write32_index, if_neg (Ne.symm hj.1)]

theorem range_pdxUtop : List.range pdxUtop = 0 :: List.range' 1 954 := by
  change List.range (954 + 1) = _
  rw [List.range_eq_range', List.range'_succ]

/-- The directory `env_setup_vm` returns has nothing below `UTOP`. -/
theorem envSetupVm_empty (hlist : ∀ p, s.pageFreeList = some p → p < s.layout.npages) :
    Triple envSetupVm s (fun r s' => ∀ pgdir, r = some pgdir → pgdir ≠ 0 ∧
      (∀ d, Own d → s'.mem.read32 (pgdir + 4 * d) = 0#32) ∧ s'.uninit = s.uninit) (fun _ _ => True) := by
  unfold envSetupVm
  cases hf : s.pageFreeList with
  | none =>
    refine .bind (.of_ok (exec_pageAlloc_none hf) (Q := fun r _ => r = none) rfl) ?_
    rintro _ t rfl
    exact .pure fun _ h => by simp at h
  | some p =>
    have hp := hlist p hf
    refine .ok_bind (exec_pageAlloc_true hf hp) ?_
    refine .modify_bind ?_
    have hkva : exec (page2kva p) ((s.take p).incref p) = (.ok (p * pgsize), (s.take p).incref p) :=
      exec_page2kva hp
    refine .ok_bind hkva ?_
    by_cases hp0 : p * pgsize = 0
    · -- The first store goes through a null pointer.
      refine .bind (Q := fun _ _ => False) (.of_error (e := .kernelFault) (t := (s.take p).incref p) ?_
        trivial) fun _ _ h => h.elim
      rw [hp0, range_pdxUtop]
      exact exec_bind_error exec_store_null
    · have hz := exec_forM_store (s := (s.take p).incref p) hp0 (fun _ => 0#32) (List.range pdxUtop)
      generalize hm : ((s.take p).incref p).mem.writeWords (p * pgsize) (fun _ => 0#32)
        (List.range pdxUtop) = m at hz
      refine .bind (.of_ok hz (Q := fun _ t => t.uninit = s.uninit ∧ t.mem = m) ⟨rfl, rfl⟩) ?_
      rintro _ t ⟨hu, rfl⟩
      refine .bind (.get (Q := fun _ t' => t' = t) rfl) ?_
      rintro a _ rfl
      refine .bind ((forM_copy_keeps hp0 _).imp_error fun _ _ h => h.elim) ?_
      rintro _ t' ⟨hkeep, -, hu'⟩
      refine .ok_bind (exec_store (by omega)) ?_
      refine .pure ?_
      rintro _ ⟨⟩
      refine ⟨hp0, fun d ho => ?_, hu'.trans hu⟩
      have hne : pdx uvpt ≠ d := by
        rintro rfl
        exact not_own_uvpt ho
      rw [Mem.read32_write32_index, if_neg hne, hkeep d (fun hm => (mem_upper_iff.mp hm).1 ho), ← hm,
        Mem.read32_writeWords, if_pos (List.mem_range.mpr ho)]

theorem SpaceOk.of_empty (hq : 0 < q) (hu : s.uninit ≠ 0)
    (hzero : ∀ d, Own d → s.mem.read32 (q * pgsize + 4 * d) = 0#32) : SpaceOk q s := by
  have hpde : ∀ d, Own d → pdeOf (oneDir q) s.mem () d = 0#32 := hzero
  have htab : ∀ d, Own d → tableOf (oneDir q) s.mem () d = none := fun d ho => by simp [tableOf, hpde d ho]
  refine ⟨hq, hu, fun ho ht => ?_, fun ho _ hp => ?_, fun ho _ => ?_⟩
  · simp [htab _ ho] at ht
  · simp [pteOf_none (htab _ ho)] at hp
  · rw [pteOf_none (htab _ ho)]
    simp [Sub]

theorem SpaceOk.other (h : SpaceOk q s) (hl : s'.layout = s.layout) (hu : s'.uninit ≠ 0)
    (hsame : SameTables (oneDir q) s.mem s'.mem) : SpaceOk q s' := by
  refine ⟨h.dir_pos, hu, fun ho ht => ?_, fun ho hk hp => ?_, fun ho hk => ?_⟩
  · rw [tableOf, hsame.pde ho.lt] at ht
    rw [hl]
    exact h.table ho ht
  · rw [hsame.pte ho hk] at hp
    rw [hl]
    exact h.page ho hk hp
  · rw [hsame.pte ho hk, hsame.pde ho.lt]
    exact h.flags ho hk

theorem Built.distinct (h : Built q s) : Distinct q s := by
  cases h <;> assumption

theorem Built.spaceOk (h : Built q s) : SpaceOk q s := by
  induction h with
  | setup hu hlist hexec _ =>
    obtain ⟨hne, hzero, hu'⟩ := (envSetupVm_empty hlist).ok hexec _ rfl
    refine .of_empty (Nat.pos_of_ne_zero fun h0 => hne ?_) (hu' ▸ hu) hzero
    rw [h0, Nat.zero_mul]
  | insert hb hpp hva hperm hexec _ ih =>
    rcases (ih.pageInsert hb.distinct hva hpp hperm).ok hexec with ⟨-, hok, -⟩ | ⟨-, rfl⟩
    · exact hok
    · exact ih
  | remove hb hva hexec _ ih =>
    rcases (ih.pageRemove hb.distinct hva).ok hexec with ⟨hok, -⟩ | ⟨rfl, -⟩
    · exact hok
    · exact ih
  | other _ hl hu hsame _ ih => exact ih.other hl hu hsame

theorem entryView_pack (hpp : pp < 65536) (hperm : IsPerm perm) :
    entryView (page2pa pp ||| perm ||| pteP) = some (pp, perm ||| pteP) := by
  rw [entryView, entryPage_pack hpp hperm, Option.map_some, flags_pack hperm]

theorem SpaceOk.mapped (h : SpaceOk q s) (hva : va < utop)
    (hp : entryPage (pteOf (oneDir q) s.mem () (pdx va) (ptx va)) = some p) :
    ∃ f, mmuView s.mem q (userPage va hva) = some (p, f) :=
  ⟨_, by rw [h.mmuView_page hva, entryView, hp]; rfl⟩

/-- The two-level table refines the map. Besides returning, `page_insert` and
`page_remove` can only stop in `page_free`, when the page they give up for the
last time is linked into the free list already. -/
theorem page_table_refines_map (h : Built q s) (hva : va < utop) :
    (∀ pp perm, pp < s.layout.npages → IsPerm perm →
      (∃ s', exec (pageInsert (q * pgsize) pp va perm) s = (.ok 0, s') ∧
        mmuView s'.mem q = Function.update (mmuView s.mem q) (userPage va hva) (some (pp, perm ||| pteP))) ∨
      exec (pageInsert (q * pgsize) pp va perm) s = (.ok (-eNoMem), s) ∨
      ∃ s' p f, exec (pageInsert (q * pgsize) pp va perm) s = (.error .pageFree, s') ∧
        mmuView s.mem q (userPage va hva) = some (p, f) ∧ (s.incref pp).Stuck p) ∧
    ((∃ s', exec (pageRemove (q * pgsize) va) s = (.ok (), s') ∧
        mmuView s'.mem q = Function.update (mmuView s.mem q) (userPage va hva) none) ∨
      ∃ s' p f, exec (pageRemove (q * pgsize) va) s = (.error .pageFree, s') ∧
        mmuView s.mem q (userPage va hva) = some (p, f) ∧ s.Stuck p) ∧
    ∀ cell, ∃ cell', exec (pageLookup (q * pgsize) va cell) s =
      (.ok ((mmuView s.mem q (userPage va hva)).map Prod.fst, cell'), s) := by
  have hok := h.spaceOk
  have hd := h.distinct
  refine ⟨fun pp perm hpp hperm => ?_, ?_, fun cell => ?_⟩
  · have ht := hok.pageInsert hd hva hpp hperm
    cases hexec : exec (pageInsert (q * pgsize) pp va perm) s with
    | mk r s' =>
      cases r with
      | error e =>
        obtain ⟨rfl, p, hp, hst⟩ := ht.error hexec
        obtain ⟨f, hf⟩ := hok.mapped hva hp
        exact .inr (.inr ⟨s', p, f, rfl, hf, hst⟩)
      | ok r =>
        rcases ht.ok hexec with ⟨rfl, hok', hset⟩ | ⟨rfl, rfl⟩
        · refine .inl ⟨s', rfl, ?_⟩
          rw [hok.mmuView_update hok' hva hset,
            entryView_pack (Nat.lt_of_lt_of_le hpp s.layout.npages_le) hperm]
        · exact .inr (.inl rfl)
  · have ht := hok.pageRemove hd hva
    cases hexec : exec (pageRemove (q * pgsize) va) s with
    | mk r s' =>
      cases r with
      | error e =>
        obtain ⟨rfl, p, hp, hst⟩ := ht.error hexec
        obtain ⟨f, hf⟩ := hok.mapped hva hp
        exact .inr ⟨s', p, f, rfl, hf, hst⟩
      | ok u =>
        refine .inl ⟨s', rfl, ?_⟩
        rcases ht.ok hexec with ⟨hok', hset⟩ | ⟨rfl, hnone⟩
        · exact hok.mmuView_update hok' hva hset
        · rw [eq_comm, Function.update_eq_self_iff, hok.mmuView_page hva, entryView, hnone]
          rfl
  · obtain ⟨cell', hlook⟩ := hok.pageLookup hva cell
    refine ⟨cell', hlook.trans ?_⟩
    rw [hok.mmuView_page hva, entryView, Option.map_map]
    cases entryPage (pteOf (oneDir q) s.mem () (pdx va) (ptx va)) <;> rfl

end

section
variable {ι : Type} [Fintype ι] {P : Platform} {dirs : ι → Option Nat} {s : Pmap}

/-- A reference of the only directory as one of directory `i`. -/
def Ref.of (i : ι) : Ref Unit Own → Ref ι Own
  | .dir _ => .dir i
  | .pde _ d => .pde i d
  | .pte _ d t => .pte i d t

omit [Fintype ι] in
theorem target_of (hq : dirs i = some q) (r : Ref Unit Own) :
    target (oneDir q) m r = target dirs m (Ref.of i r) := by
  have htab : ∀ d, tableOf (oneDir q) m () d = tableOf dirs m i d := fun d => by
    unfold tableOf
    rw [pdeOf_some hq]
    rfl
  match r with
  | .dir _ => exact hq.symm
  | .pde _ d => exact htab d
  | .pte _ d t =>
    simp only [target, Ref.of, pteOf]
    rw [htab d]

/-- In the running kernel every live directory is distinct from all others and
from what is mapped. -/
theorem MemOk.distinct (h : MemOk P dirs pend held l s) (hq : dirs i = some q) : Distinct q s := by
  refine ⟨fun r r' a hr ha ha' => ?_, fun {p} hf => ?_⟩
  · rw [target_of hq] at ha ha'
    have hr' : IsTable (Ref.of i r) := by
      rcases r with _ | ⟨_, d⟩ | ⟨_, d, t⟩
      · trivial
      · trivial
      · exact hr
    have heq := h.sep _ _ a hr' ha ha'
    rcases r with _ | ⟨_, d⟩ | ⟨_, d, t⟩ <;> rcases r' with _ | ⟨_, d'⟩ | ⟨_, d', t'⟩ <;> simp_all [Ref.of]
  · obtain ⟨hpool, hfresh, -, -⟩ := h.head_unused hf
    exact ⟨P.pool_pos hpool, h.pool_lt hpool, fun r => target_of hq r ▸ hfresh (Ref.of i r)⟩

end

theorem zero_lt_utop : 0#32 < utop := by decide

/-- The first directory of a machine with 64MB. -/
theorem page_table_refines_map_pc64 : ∃ q s, Built q s ∧
    ∀ cell, ∃ cell', exec (pageLookup (q * pgsize) 0#32 cell) s =
      (.ok ((mmuView s.mem q (userPage 0#32 zero_lt_utop)).map Prod.fst, cell'), s) := by
  obtain ⟨k, l, hboot, hl, hlen⟩ := pc64_boots
  obtain ⟨P, -, -, -, -, hok, -, hb⟩ := hboot.machineOk
  have hsteady := hok.kernel.steady hb
  obtain ⟨b0, rfl⟩ := hboot.envInited
  obtain ⟨q, s, hexec, hnew, -⟩ := envSetupVm_progress (n := 0) hsteady (i := slot0) rfl ⟨l, hl, by omega⟩
  obtain ⟨l0, hmem⟩ := hsteady.ok
  obtain ⟨l1, hmem1⟩ := hnew.steady.ok
  have hbuilt : Built q s := .setup hmem.uninit_ne
    (fun p hp => hmem.pool_lt (hmem.head_unused hp).1) hexec (hmem1.distinct (Function.update_self ..))
  exact ⟨q, s, hbuilt, (page_table_refines_map hbuilt zero_lt_utop).2.2⟩

end Jos
