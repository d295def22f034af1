import Jos.Kern.PmapExec

/-!
# The invariant of physical memory

`Platform` is what `mem_init` leaves behind and nothing changes afterwards.
`MemOk` is the invariant of everything that does change: reference counts and
free list agree with the page tables of the live directories, pages used as
directories or tables are used for nothing else, a table entry grants no more
than its directory entry and nothing a system call may not ask for, and the
upper part of every directory is the kernel's.
-/

namespace Jos

open Lib
open Function (update update_of_ne update_self)

/-- The directory entries below `UTOP` belong to the environment. -/
def Own (d : Nat) : Prop := d < pdxUtop

instance : DecidablePred Own := fun d => inferInstanceAs (Decidable (d < pdxUtop))

theorem Own.lt (h : Own d) : d < 1024 := by
  unfold Own pdxUtop at h
  omega

theorem own_pdx (h : va < utop) : Own (pdx va) := pdx_lt_of_lt_utop h

/-- Entry `d` of the directory at page `kq` names the table at page `kt`, which
shows user mode the 1024 frames from `frame` on. -/
structure Window (base : Mem) (kq d kt frame : Nat) : Prop where
  table : entryPage (base.read32 (kq * pgsize + 4 * d)) = some kt
  pde_flags : base.read32 (kq * pgsize + 4 * d) &&& 0xFFF#32 = pteU ||| pteP
  page : t < 1024 → entryPage (base.read32 (kt * pgsize + 4 * t)) = some (frame + t)
  pte_flags : t < 1024 → base.read32 (kt * pgsize + 4 * t) &&& 0xFFF#32 = pteU ||| pteP

/-- `pool` are the pages on `page_free_list` when `mem_init` returns, `base` the
memory at that time, `kq` the page of `kern_pgdir`, and `kPages` and `kEnvs` the
pages of the tables behind `UPAGES` and `UENVS`. -/
structure Platform where
  layout : Layout
  pool : Nat → Prop
  base : Mem
  kq : Nat
  kPages : Nat
  kEnvs : Nat
  pool_pos : pool p → 0 < p
  pool_lt : pool p → p < layout.npages
  kernPgdir_eq : layout.kernPgdir = kq * pgsize
  kq_kept : ¬ pool kq
  kPages_kept : ¬ pool kPages
  kEnvs_kept : ¬ pool kEnvs
  upages : Window base kq (pdx upages) kPages (layout.pages / pgsize)
  uenvs : Window base kq (pdx uenvs) kEnvs (layout.envs / pgsize)
  /-- Nothing above `ULIM` is visible to user mode. -/
  hidden : pdx ulim ≤ d → d < 1024 → base.read32 (kq * pgsize + 4 * d) &&& pteU = 0#32

/-- What `mem_init` and `env_setup_vm` put into entry `d ≥ PDX(UTOP)` of the
directory at page `q`. -/
def Platform.upper (P : Platform) (q d : Nat) : Word :=
  if d = pdx uvpt then page2pa q ||| pteP ||| pteU else P.base.read32 (P.kq * pgsize + 4 * d)

structure MemOk {ι : Type} [Fintype ι] (P : Platform) (dirs : ι → Option Nat) (pend : List Nat)
    (held : Finset Nat) (l : List Nat) (s : Pmap) : Prop where
  layout_eq : s.layout = P.layout
  uninit_ne : s.uninit ≠ 0
  counted : Counted P.pool (target dirs s.mem : Ref ι Own → Option Nat) pend held
    s.ref s.next s.pageFreeList l
  sep : Sep Own dirs s.mem
  owned : ∀ r : Ref ι Own, target dirs s.mem r = some p → P.pool p
  pend_owned : p ∈ pend → P.pool p
  /-- A page with a pending reference is no directory and no table. -/
  quiet : p ∈ pend → ∀ r : Ref ι Own, IsTable r → target dirs s.mem r ≠ some p
  flags : Own d → t < 1024 → Sub (pteOf dirs s.mem i d t &&& 0xFFF#32) (pdeOf dirs s.mem i d)
  user : Own d → t < 1024 → UserEntry (pteOf dirs s.mem i d t)
  shared : dirs i = some q → ¬ Own d → d < 1024 → pdeOf dirs s.mem i d = P.upper q d
  frozen : ¬ P.pool (a / pgsize) → s.mem a = P.base a

def refs {ι : Type} [Fintype ι] (dirs : ι → Option Nat) (m : Mem) (p : Nat) : Nat :=
  count (target dirs m : Ref ι Own → Option Nat) p

section
variable {ι : Type} [Fintype ι] {P : Platform} {dirs : ι → Option Nat}
  {pend : List Nat} {held : Finset Nat} {l : List Nat} {s : Pmap}

section
variable (h : MemOk P dirs pend held l s)
include h

theorem MemOk.pool_lt (hp : P.pool p) : p < s.layout.npages := by
  rw [h.layout_eq]
  exact P.pool_lt hp

theorem MemOk.dir_pool (hq : dirs i = some q) : P.pool q :=
  h.owned (.dir i) hq

theorem MemOk.table_pool (ho : Own d) (ht : tableOf dirs s.mem i d = some pt) : P.pool pt :=
  h.owned (.pde i ⟨⟨d, ho.lt⟩, ho⟩) ht

theorem MemOk.page_pool (ho : Own d) (hk : t < 1024) (ht : entryPage (pteOf dirs s.mem i d t) = some p) : P.pool p :=
  h.owned (.pte i ⟨⟨d, ho.lt⟩, ho⟩ ⟨t, hk⟩) ht

theorem MemOk.mapped_not_table (ho : Own d) (hk : t < 1024) (hp : entryPage (pteOf dirs s.mem i d t) = some p) :
    ∀ r : Ref ι Own, IsTable r → target dirs s.mem r ≠ some p := by
  intro r hr ht
  have hne := h.sep r (.pte i ⟨⟨d, ho.lt⟩, ho⟩ ⟨t, hk⟩) p hr ht hp
  rw [← hne] at hr
  exact hr

theorem MemOk.head_unused (hf : s.pageFreeList = some p) :
    P.pool p ∧ (∀ r : Ref ι Own, target dirs s.mem r ≠ some p) ∧ p ∉ pend ∧ p ∉ held := by
  have hc := h.counted
  rw [hf] at hc
  obtain ⟨hp, hu, hh⟩ := hc.head_free
  simp only [uses, Nat.add_eq_zero_iff, List.count_eq_zero] at hu
  exact ⟨hp, count_eq_zero.mp hu.1, hu.2, hh⟩

end

/-! ## Stores outside directories and tables -/

/-- Memory changed only in pages of the pool that are no directory and no table. -/
theorem MemOk.touch (h : MemOk P dirs pend held l s) (m' : Mem)
    (hm : ∀ a, m' a ≠ s.mem a → P.pool (a / pgsize) ∧
      ∀ r : Ref ι Own, IsTable r → target dirs s.mem r ≠ some (a / pgsize)) :
    MemOk P dirs pend held l { s with mem := m' } ∧
      (∀ i d, d < 1024 → pdeOf dirs m' i d = pdeOf dirs s.mem i d) ∧
      ∀ i d t, Own d → t < 1024 → pteOf dirs m' i d t = pteOf dirs s.mem i d t := by
  have hsame : ∀ r : Ref ι Own, IsTable r → ∀ a, target dirs s.mem r = some (a / pgsize) →
      m' a = s.mem a := by
    intro r hr a ha
    by_contra hne
    exact (hm a hne).2 r hr ha
  have hpde : ∀ i d, d < 1024 → pdeOf dirs m' i d = pdeOf dirs s.mem i d := fun i d hd =>
    pdeOf_congr (fun q hq a ha => hsame (.dir i) trivial a (by rw [ha]; exact hq)) hd
  have hpte : ∀ i d t, Own d → t < 1024 → pteOf dirs m' i d t = pteOf dirs s.mem i d t :=
    fun i d t ho hk => pteOf_congr (hpde i d ho.lt)
      (fun pt hpt a ha => hsame (.pde i ⟨⟨d, ho.lt⟩, ho⟩) trivial a (by rw [ha]; exact hpt)) hk
  have htarget : (target dirs m' : Ref ι Own → Option Nat) = target dirs s.mem :=
    target_congr (fun _ => rfl) (fun i d _ hd => by unfold tableOf; rw [hpde i d hd])
      (fun i d t ho _ hk => hpte i d t ho hk)
  refine ⟨⟨h.layout_eq, h.uninit_ne, ?_, ?_, ?_, h.pend_owned, ?_, ?_, ?_, ?_, ?_⟩, hpde, hpte⟩
  · rw [htarget]
    exact h.counted
  · unfold Sep
    rw [htarget]
    exact h.sep
  · rw [htarget]
    exact h.owned
  · rw [htarget]
    exact h.quiet
  · intro d t i ho hk
    rw [hpte i d t ho hk, hpde i d ho.lt]
    exact h.flags ho hk
  · intro d t i ho hk
    rw [hpte i d t ho hk]
    exact h.user ho hk
  · intro i q d hq ho hd
    rw [hpde i d hd]
    exact h.shared hq ho hd
  · intro a ha
    rw [← h.frozen ha]
    by_contra hne
    exact ha (hm a hne).1

/-! ## Changes of counters and free list -/

theorem MemOk.withCounts {s' : Pmap} (h : MemOk P dirs pend held l s) (hl : s'.layout = s.layout)
    (hu : s'.uninit = s.uninit) (hm : s'.mem = s.mem)
    (hc : Counted P.pool (target dirs s.mem : Ref ι Own → Option Nat) pend' held' s'.ref s'.next
      s'.pageFreeList l')
    (hp : ∀ p ∈ pend', P.pool p ∧ ∀ r : Ref ι Own, IsTable r → target dirs s.mem r ≠ some p) :
    MemOk P dirs pend' held' l' s' := by
  refine ⟨by rw [hl, h.layout_eq], by rw [hu]; exact h.uninit_ne, ?_, ?_, ?_, fun hx => (hp _ hx).1, ?_,
    ?_, ?_, ?_, ?_⟩ <;> rw [hm]
  · exact hc
  · exact h.sep
  · exact h.owned
  · exact fun hx => (hp _ hx).2
  · exact h.flags
  · exact h.user
  · exact h.shared
  · exact h.frozen

section
variable (h : MemOk P dirs pend held l s)
include h

theorem MemOk.pend_ok : ∀ p ∈ pend, P.pool p ∧ ∀ r : Ref ι Own, IsTable r → target dirs s.mem r ≠ some p :=
  fun _ hp => ⟨h.pend_owned hp, h.quiet hp⟩

theorem MemOk.unlink (hf : s.pageFreeList = some p) :
    ∃ l', l = p :: l' ∧ MemOk P dirs pend (insert p held) l' (s.unlink p) := by
  have hc := h.counted
  rw [hf] at hc
  obtain ⟨l', rfl, htake⟩ := hc.take
  refine ⟨l', rfl, h.withCounts rfl rfl rfl ?_ h.pend_ok⟩
  rw [Pmap.unlink_ref, Pmap.unlink_next]
  exact htake

/-- `page_alloc(ALLOC_ZERO)`. -/
theorem MemOk.take (hf : s.pageFreeList = some p) :
    ∃ l', l = p :: l' ∧ MemOk P dirs pend (insert p held) l' (s.take p) ∧
      (∀ i d, d < 1024 → pdeOf dirs (s.take p).mem i d = pdeOf dirs s.mem i d) ∧
      ∀ i d t, Own d → t < 1024 → pteOf dirs (s.take p).mem i d t = pteOf dirs s.mem i d t := by
  obtain ⟨hp, hfresh, _, _⟩ := h.head_unused hf
  obtain ⟨l', hl, hu⟩ := h.unlink hf
  refine ⟨l', hl, hu.touch (s.mem.fill (p * pgsize) pgsize 0#8) fun a ha => ?_⟩
  have hap : a / pgsize = p := by
    by_contra hne
    exact ha (fill_page_of_ne hne)
  rw [hap]
  exact ⟨hp, fun r _ => hfresh r⟩

theorem MemOk.incref (hp : P.pool p) (hl : p ∉ l) (ht : ∀ r : Ref ι Own, IsTable r → target dirs s.mem r ≠ some p) :
    MemOk P dirs (p :: pend) (held.erase p) l (s.incref p) := by
  refine h.withCounts rfl rfl rfl ?_ ?_
  · rw [Pmap.incref_ref, Pmap.incref_next]
    exact h.counted.incref hl
  · intro x hx
    rcases List.mem_cons.mp hx with rfl | hx
    · exact ⟨hp, ht⟩
    · exact h.pend_ok x hx

end

theorem MemOk.ref_pred (h : MemOk P dirs (p :: pend) held l s) :
    s.ref p - 1#16 = BitVec.ofNat 16 (uses (target dirs s.mem : Ref ι Own → Option Nat) pend p) := by
  rw [h.counted.ref_eq (h.pend_owned (by simp)), uses_cons, if_pos rfl]
  exact ofNat_succ_sub_one 16 _

/-- `page_decref` gives up a counted reference, as long as the count has not wrapped. -/
theorem MemOk.drop (h : MemOk P dirs (p :: pend) held l s)
    (hb : uses (target dirs s.mem : Ref ι Own → Option Nat) pend p < 65536) :
    ¬ s.Stuck p ∧ ∃ l', MemOk P dirs pend held l' (s.drop p) ∧
      l' = if uses (target dirs s.mem : Ref ι Own → Option Nat) pend p = 0 then p :: l else l := by
  have hp : P.pool p := h.pend_owned (by simp)
  have hpend : ∀ x ∈ pend, P.pool x ∧ ∀ r : Ref ι Own, IsTable r → target dirs s.mem r ≠ some x :=
    fun x hx => h.pend_ok x (List.mem_cons_of_mem _ hx)
  have hnext : s.next p = none := by
    refine h.counted.unlinked hp (h.counted.not_free_of_uses ?_)
    simp [uses_cons]
  refine ⟨fun hs => hs.2 hnext, _, ?_, rfl⟩
  have hzero : s.ref p - 1#16 = 0#16 ↔
      uses (target dirs s.mem : Ref ι Own → Option Nat) pend p = 0 := by
    rw [h.ref_pred, ← BitVec.toNat_inj]
    simp only [BitVec.toNat_ofNat, Nat.zero_mod]
    rw [Nat.mod_eq_of_lt hb]
  unfold Pmap.drop
  by_cases hu : uses (target dirs s.mem : Ref ι Own → Option Nat) pend p = 0
  · rw [if_pos (hzero.mpr hu), if_pos hu]
    refine h.withCounts rfl rfl rfl ?_ hpend
    rw [Pmap.link_ref, Pmap.link_next, Pmap.decref_ref, Pmap.decref_next]
    exact h.counted.release hp hu
  · rw [if_neg (fun hz => hu (hzero.mp hz)), if_neg hu]
    refine h.withCounts rfl rfl rfl ?_ hpend
    rw [Pmap.decref_ref, Pmap.decref_next]
    exact h.counted.decref hu

/-- `page_free` of a page that was taken and not used. -/
theorem MemOk.putBack (h : MemOk P dirs pend held l s) (hp : p ∈ held) :
    s.next p = none ∧ s.ref p = 0#16 ∧ MemOk P dirs pend (held.erase p) (p :: l) (s.link p) := by
  obtain ⟨hpool, hu⟩ := h.counted.held_ok hp
  refine ⟨h.counted.unlinked hpool (h.counted.not_free_of_held hp), ?_, ?_⟩
  · rw [h.counted.ref_eq hpool, hu]
  · refine h.withCounts rfl rfl rfl ?_ h.pend_ok
    rw [Pmap.link_ref, Pmap.link_next]
    exact h.counted.putBack hp

end

/-! ## Changes of directories and tables -/

section
variable {ι : Type} [Fintype ι] [DecidableEq ι] {P : Platform} {dirs dirs' : ι → Option Nat}
  {pend : List Nat} {held : Finset Nat} {l : List Nat} {s : Pmap} {m' : Mem} {r : Ref ι Own}

/-- A counted reference is stored in one that named nothing. -/
theorem MemOk.stored (h : MemOk P dirs (p :: pend) held l s)
    (htarget : target dirs' m' = update (target dirs s.mem) r (some p)) (hr : target dirs s.mem r = none)
    (hfresh : IsTable r → (∀ x : Ref ι Own, target dirs s.mem x ≠ some p) ∧ p ∉ pend)
    (hpte : ∀ j d t, Own d → t < 1024 →
      Sub (pteOf dirs' m' j d t &&& 0xFFF#32) (pdeOf dirs' m' j d) ∧ UserEntry (pteOf dirs' m' j d t))
    (hpde : ∀ j q d, dirs' j = some q → ¬ Own d → d < 1024 → pdeOf dirs' m' j d = P.upper q d)
    (hm : ∀ a, ¬ P.pool (a / pgsize) → m' a = s.mem a) :
    MemOk P dirs' pend held l { s with mem := m' } ∧
      ∀ a, refs dirs' m' a = refs dirs s.mem a + if p = a then 1 else 0 := by
  refine ⟨⟨h.layout_eq, h.uninit_ne, ?_, ?_, ?_, fun hb => h.pend_owned (List.mem_cons_of_mem _ hb), ?_,
    fun ho hk => (hpte _ _ _ ho hk).1, fun ho hk => (hpte _ _ _ ho hk).2, hpde _ _ _, ?_⟩,
    fun a => (congrArg (count · a) htarget).trans (count_store hr p a)⟩
  · exact h.counted.recount fun a => (congrArg (fun f => uses f pend a) htarget).trans (uses_store hr a)
  · unfold Sep
    rw [htarget]
    exact h.sep.store (h.quiet (by simp)) fun hr => (hfresh hr).1
  · intro b x hb
    rw [htarget] at hb
    rcases of_update_some hb with ⟨_, rfl⟩ | hb
    · exact h.pend_owned (by simp)
    · exact h.owned x hb
  · intro b hb x htab hx
    rw [htarget] at hx
    rcases of_update_some hx with ⟨rfl, rfl⟩ | hx
    · exact (hfresh htab).2 hb
    · exact h.quiet (List.mem_cons_of_mem _ hb) x htab hx
  · intro a ha
    exact (hm a ha).trans (h.frozen ha)

section
variable (h : MemOk P dirs pend held l s)
include h

/-- A reference is cleared, its use still counted. -/
theorem MemOk.cleared
    (htarget : target dirs' m' = update (target dirs s.mem) r none) (hr : target dirs s.mem r = some p)
    (hpte : ∀ j d t, Own d → t < 1024 → pteOf dirs' m' j d t = 0#32 ∨
      pteOf dirs' m' j d t = pteOf dirs s.mem j d t ∧ pdeOf dirs' m' j d = pdeOf dirs s.mem j d)
    (hpde : ∀ j q d, dirs' j = some q → ¬ Own d → d < 1024 → pdeOf dirs' m' j d = P.upper q d)
    (hm : ∀ a, ¬ P.pool (a / pgsize) → m' a = s.mem a) :
    MemOk P dirs' (p :: pend) held l { s with mem := m' } ∧
      ∀ a, refs dirs' m' a + (if p = a then 1 else 0) = refs dirs s.mem a := by
  have hsub : ∀ {x : Ref ι Own} {b : Nat}, target dirs' m' x = some b → x ≠ r ∧ target dirs s.mem x = some b := by
    intro x b hb
    rw [htarget] at hb
    exact of_update_none hb
  refine ⟨⟨h.layout_eq, h.uninit_ne, ?_, ?_, fun x hb => h.owned x (hsub hb).2, ?_, ?_, ?_, ?_, hpde _ _ _, ?_⟩,
    fun a => (congrArg (count · a + _) htarget).trans (count_clear hr a)⟩
  · exact h.counted.recount fun a => (congrArg (fun f => uses f (p :: pend) a) htarget).trans (uses_clear hr a)
  · unfold Sep
    rw [htarget]
    exact h.sep.clear _
  · intro b hb
    rcases List.mem_cons.mp hb with rfl | hb
    · exact h.owned r hr
    · exact h.pend_owned hb
  · intro b hb x htab hx
    rcases List.mem_cons.mp hb with rfl | hb
    · exact (hsub hx).1 (h.sep x r b htab (hsub hx).2 hr).symm
    · exact h.quiet hb x htab (hsub hx).2
  · intro d t j ho hk
    rcases hpte j d t ho hk with h0 | ⟨h1, h2⟩
    · rw [h0]
      simp [Sub]
    · rw [h1, h2]
      exact h.flags ho hk
  · intro d t j ho hk
    rcases hpte j d t ho hk with h0 | ⟨h1, -⟩
    · rw [h0]
      exact userEntry_zero
    · rw [h1]
      exact h.user ho hk
  · intro a ha
    exact (hm a ha).trans (h.frozen ha)

theorem MemOk.frozen_dir (hq : dirs i = some q) (ho : Own d)
    (ha : ¬ P.pool (a / pgsize)) : m'.write32 (q * pgsize + 4 * d) w a = m' a := by
  refine write32_page_of_ne ho.lt ?_
  rintro rfl
  exact ha (h.dir_pool hq)

theorem MemOk.frozen_table (ht : tableOf dirs s.mem i d = some pt) (ho : Own d)
    (hk : t < 1024) (ha : ¬ P.pool (a / pgsize)) : m'.write32 (pt * pgsize + 4 * t) w a = m' a := by
  refine write32_page_of_ne hk ?_
  rintro rfl
  exact ha (h.table_pool ho ht)

/-- `pgdir_walk` puts a fresh table behind an absent directory entry. -/
theorem MemOk.newTable (hf : s.pageFreeList = some p)
    (hq : dirs i = some q) (ho : Own d) (hnone : tableOf dirs s.mem i d = none) :
    ∃ l', l = p :: l' ∧ MemOk P dirs pend held l' (s.newTable (q * pgsize + 4 * d) p) ∧
      (∀ a, refs dirs (s.newTable (q * pgsize + 4 * d) p).mem a =
        refs dirs s.mem a + if p = a then 1 else 0) ∧
      (∀ j d', d' < 1024 → pdeOf dirs (s.newTable (q * pgsize + 4 * d) p).mem j d' =
        if j = i ∧ d' = d then page2pa p ||| pteP else pdeOf dirs s.mem j d') ∧
      ∀ j d' t', Own d' → t' < 1024 →
        pteOf dirs (s.newTable (q * pgsize + 4 * d) p).mem j d' t' = pteOf dirs s.mem j d' t' := by
  have hs := h.sep.tabSep
  obtain ⟨hp, hfresh, hpend, hheld⟩ := h.head_unused hf
  have hp' : p < 65536 := Nat.lt_of_lt_of_le (h.pool_lt hp) s.layout.npages_le
  have hw : entryPage (page2pa p ||| pteP) = some p := entryPage_page2pa hp'
  have hinj : ∀ j, dirs j = some q → j = i := fun _ hj => hs.dir_inj hq hj
  have hdir : ∀ j, dirs j ≠ some p := fun j => hfresh (.dir j)
  have hpte : ∀ j d' t', Own d' → t' < 1024 →
      pteOf dirs (withTable s.mem q d p (page2pa p ||| pteP)) j d' t' = pteOf dirs s.mem j d' t' :=
    fun j d' t' ho' hk' => pteOf_withTable hq hinj hdir ho.lt hs hnone hw
      (fun j d ho hd => hfresh (.pde j ⟨⟨d, hd⟩, ho⟩)) ho' ho'.lt hk'
  have hpde : ∀ j d', d' < 1024 → pdeOf dirs (withTable s.mem q d p (page2pa p ||| pteP)) j d' =
      if j = i ∧ d' = d then page2pa p ||| pteP else pdeOf dirs s.mem j d' :=
    fun j d' hd' => pdeOf_withTable hq hinj hdir ho.lt hd'
  obtain ⟨l', rfl, hu⟩ := h.unlink hf
  have hinc := hu.incref hp (List.nodup_cons.mp h.counted.chain.nodup).1 fun x _ => hfresh x
  rw [Finset.erase_insert hheld] at hinc
  unfold withTable at hpde hpte
  refine ⟨l', rfl, and_assoc.mp ⟨hinc.stored (target_withTable hs hq hfresh ho ho.lt hnone hw) hnone
    (fun _ => ⟨hfresh, hpend⟩) (fun j d' t' ho' hk' => ?_) (fun j q' d' hq' ho' hd' => ?_) fun a ha => ?_, hpde, hpte⟩⟩
  · rw [hpte j d' t' ho' hk', hpde j d' ho'.lt]
    refine ⟨?_, h.user ho' hk'⟩
    split
    · rename_i hc
      obtain ⟨rfl, rfl⟩ := hc
      rw [pteOf_none hnone]
      simp [Sub]
    · exact h.flags ho' hk'
  · rw [hpde j d' hd', if_neg (by rintro ⟨_, rfl⟩; exact ho' ho)]
    exact h.shared hq' ho' hd'
  · refine (h.frozen_dir hq ho ha).trans (fill_page_of_ne ?_)
    rintro rfl
    exact ha hp

theorem MemOk.clearPte (ht : tableOf dirs s.mem i d = some pt)
    (ho : Own d) (hk : t < 1024) (hp : entryPage (pteOf dirs s.mem i d t) = some p) :
    MemOk P dirs (p :: pend) held l { s with mem := s.mem.write32 (pt * pgsize + 4 * t) 0#32 } ∧
      ∀ a, refs dirs (s.mem.write32 (pt * pgsize + 4 * t) 0#32) a + (if p = a then 1 else 0) =
        refs dirs s.mem a := by
  have hs := h.sep.tabSep
  have htarget := target_storePte (w := 0#32) hs ht ho ho.lt hk
  rw [entryPage_zero] at htarget
  refine h.cleared htarget hp (fun j d' t' ho' hk' => ?_) (fun j q d' hq ho' hd' => ?_)
    fun a ha => h.frozen_table ht ho hk ha
  · rw [pteOf_storePte hs ht ho ho.lt hk ho' ho'.lt hk', pdeOf_storePte hs ht ho ho.lt hk ho'.lt]
    split
    · exact .inl rfl
    · exact .inr ⟨rfl, rfl⟩
  · rw [pdeOf_storePte hs ht ho ho.lt hk hd']
    exact h.shared hq ho' hd'

end

theorem MemOk.mapAt (h : MemOk P dirs (p :: pend) held l s) (hq : dirs i = some q)
    (ht : tableOf dirs s.mem i d = some pt) (ho : Own d) (hk : t < 1024)
    (hn : entryPage (pteOf dirs s.mem i d t) = none) (huser : UserPerm perm) :
    MemOk P dirs pend held l
        { s with mem := withMapping s.mem pt t q d (page2pa p ||| perm ||| pteP) perm } ∧
      ∀ a, refs dirs (withMapping s.mem pt t q d (page2pa p ||| perm ||| pteP) perm) a =
        refs dirs s.mem a + if p = a then 1 else 0 := by
  have hs := h.sep.tabSep
  have hperm := huser.isPerm
  have hpool : P.pool p := h.pend_owned (by simp)
  have hw : entryPage (page2pa p ||| perm ||| pteP) = some p :=
    entryPage_pack (Nat.lt_of_lt_of_le (h.pool_lt hpool) s.layout.npages_le) hperm
  have htarget := target_withMapping (w := page2pa p ||| perm ||| pteP) hs hq ht ho ho.lt hk hperm
  rw [hw] at htarget
  refine h.stored htarget hn (fun hr => hr.elim) (fun j d' t' ho' hk' => ⟨?_, ?_⟩) (fun j q' d' hq' ho' hd' => ?_)
    fun a ha => (h.frozen_dir hq ho ha).trans (h.frozen_table ht ho hk ha)
  · rw [pteOf_withMapping hs hq ht ho ho.lt hk hperm ho' ho'.lt hk',
      pdeOf_withMapping hs hq ht ho ho.lt hk ho'.lt]
    by_cases hc : j = i ∧ d' = d
    · obtain ⟨rfl, rfl⟩ := hc
      simp only [true_and, and_self, if_true]
      by_cases hkt : t' = t
      · rw [if_pos hkt, flags_pack hperm, BitVec.or_comm]
        refine Sub.or ?_ (sub_refl perm)
        rw [Sub, BitVec.and_comm]
        exact (entryPage_eq_some.mp ht).1
      · rw [if_neg hkt]
        exact (h.flags ho' hk').or_right perm
    · rw [if_neg (fun hx => hc ⟨hx.1, hx.2.1⟩), if_neg hc]
      exact h.flags ho' hk'
  · rw [pteOf_withMapping hs hq ht ho ho.lt hk hperm ho' ho'.lt hk']
    split
    · exact userEntry_pack huser
    · exact h.user ho' hk'
  · rw [pdeOf_withMapping hs hq ht ho ho.lt hk hd', if_neg (by rintro ⟨_, rfl⟩; exact ho' ho)]
    exact h.shared hq' ho' hd'

theorem MemOk.clearPde (h : MemOk P dirs pend held l s) (hq : dirs i = some q) (ho : Own d)
    (ht : tableOf dirs s.mem i d = some pt)
    (hempty : ∀ t, t < 1024 → entryPage (pteOf dirs s.mem i d t) = none) :
    MemOk P dirs (pt :: pend) held l { s with mem := s.mem.write32 (q * pgsize + 4 * d) 0#32 } ∧
      ∀ a, refs dirs (s.mem.write32 (q * pgsize + 4 * d) 0#32) a + (if pt = a then 1 else 0) =
        refs dirs s.mem a := by
  have hs := h.sep.tabSep
  have hinj : ∀ j, dirs j = some q → j = i := fun _ hj => hs.dir_inj hq hj
  refine h.cleared (target_clearPde hs hq ho ho.lt hempty) ht (fun j d' t' ho' hk' => ?_)
    (fun j q' d' hq' ho' hd' => ?_) fun a ha => h.frozen_dir hq ho ha
  · rw [pteOf_clearPde hs hq ho.lt ho' ho'.lt hk', pdeOf_storePde hq hinj ho.lt ho'.lt]
    split
    · exact .inl rfl
    · exact .inr ⟨rfl, rfl⟩
  · rw [pdeOf_storePde hq hinj ho.lt hd', if_neg (by rintro ⟨_, rfl⟩; exact ho' ho)]
    exact h.shared hq' ho' hd'

omit [Fintype ι] in
theorem pdeOf_update_of_ne (hj : j ≠ i) : pdeOf (update dirs i v) m' j d = pdeOf dirs m' j d := by
  unfold pdeOf
  rw [update_of_ne hj]

omit [Fintype ι] in
theorem pteOf_update_of_ne (hj : j ≠ i) : pteOf (update dirs i v) m' j d t = pteOf dirs m' j d t := by
  unfold pteOf tableOf
  rw [pdeOf_update_of_ne hj]

theorem MemOk.removeDir (h : MemOk P dirs pend held l s) (hq : dirs i = some q)
    (hempty : ∀ d, Own d → tableOf dirs s.mem i d = none) :
    MemOk P (update dirs i none) (q :: pend) held l s ∧
      ∀ a, refs (update dirs i none) s.mem a + (if q = a then 1 else 0) =
        refs dirs s.mem a := by
  have hempty' : ∀ d, tableOf (update dirs i none) s.mem i d = none :=
    fun d => tableOf_none (update_self ..)
  have htarget : (target (update dirs i none) s.mem : Ref ι Own → Option Nat) =
      update (target dirs s.mem) (.dir i) none :=
    target_update_dir (fun _ _ _ _ => rfl) (fun _ _ _ _ _ _ _ => rfl) (fun d ho _ => hempty d ho)
      (fun d _ _ => hempty' d)
  refine h.cleared htarget hq (fun j d t _ _ => ?_) (fun j q' d hq' ho hd => ?_) fun _ _ => rfl
  · by_cases hj : j = i
    · subst hj
      exact .inl (pteOf_none (hempty' d))
    · exact .inr ⟨pteOf_update_of_ne hj, pdeOf_update_of_ne hj⟩
  · have hj : j ≠ i := by
      rintro rfl
      simp at hq'
    rw [update_of_ne hj] at hq'
    rw [pdeOf_update_of_ne hj]
    exact h.shared hq' ho hd

theorem MemOk.newDir (h : MemOk P dirs (p :: pend) held l s) (hi : dirs i = none)
    (hfresh : ∀ r : Ref ι Own, target dirs s.mem r ≠ some p) (hpend : p ∉ pend) (m' : Mem)
    (hm : ∀ a, a / pgsize ≠ p → m' a = s.mem a)
    (hown : ∀ d, Own d → m'.read32 (p * pgsize + 4 * d) = 0#32)
    (hupper : ∀ d, ¬ Own d → d < 1024 → m'.read32 (p * pgsize + 4 * d) = P.upper p d) :
    MemOk P (update dirs i (some p)) pend held l { s with mem := m' } ∧
      ∀ a, refs (update dirs i (some p)) m' a =
        refs dirs s.mem a + if p = a then 1 else 0 := by
  have hpde : ∀ j, j ≠ i → ∀ d, d < 1024 → pdeOf dirs m' j d = pdeOf dirs s.mem j d := by
    intro j _ d hd
    refine pdeOf_congr (fun q hq a ha => hm a ?_) hd
    rintro rfl
    exact hfresh (.dir j) (ha ▸ hq)
  have hpte : ∀ j, j ≠ i → ∀ d t, Own d → d < 1024 → t < 1024 →
      pteOf dirs m' j d t = pteOf dirs s.mem j d t := by
    intro j hj d t ho hd hk
    refine pteOf_congr (hpde j hj d hd) (fun pt hpt a ha => hm a ?_) hk
    rintro rfl
    exact hfresh (.pde j ⟨⟨d, hd⟩, ho⟩) (ha ▸ hpt)
  have hnew : ∀ d, pdeOf (update dirs i (some p)) m' i d = m'.read32 (p * pgsize + 4 * d) :=
    fun d => pdeOf_some (update_self ..)
  have hempty : ∀ d, Own d → tableOf (update dirs i (some p)) m' i d = none := by
    intro d ho
    rw [tableOf, hnew, hown d ho, entryPage_zero]
  have htarget : (target (update dirs i (some p)) m' : Ref ι Own → Option Nat) =
      update (target dirs s.mem) (.dir i) (some p) :=
    target_update_dir hpde hpte (fun d _ _ => tableOf_none hi) (fun d ho _ => hempty d ho)
  refine h.stored htarget hi (fun _ => ⟨hfresh, hpend⟩) (fun j d t ho hk => ?_) (fun j q d hq ho hd => ?_)
    fun a ha => hm a ?_
  · by_cases hj : j = i
    · subst hj
      rw [pteOf_none (hempty d ho)]
      exact ⟨by simp [Sub], userEntry_zero⟩
    · rw [pteOf_update_of_ne hj, pdeOf_update_of_ne hj, hpte j hj d t ho ho.lt hk, hpde j hj d ho.lt]
      exact ⟨h.flags ho hk, h.user ho hk⟩
  · by_cases hj : j = i
    · subst hj
      rw [update_self, Option.some.injEq] at hq
      subst hq
      rw [hnew, hupper d ho hd]
    · rw [update_of_ne hj] at hq
      rw [pdeOf_update_of_ne hj, hpde j hj d hd]
      exact h.shared hq ho hd
  · rintro rfl
    exact ha (h.pend_owned (by simp))

end

end Jos
