import Jos.Kern.Bystander

/-!
# System calls that fail

A call on memory or environments that returns an error has changed nothing:
the calls that allocate before they find out give back what they took. The
one thing that is not put back are the contents of the free page
`sys_page_alloc` has cleared, which belong to nobody as long as the reference
counts are right.
-/

namespace Jos

open Lib

/-- The environments, their page tables, the reference counts and `page_free_list` are as before. -/
structure Unchanged (k k' : Kernel) : Prop where
  envs : k'.envs = k.envs
  envFreeList : k'.envFreeList = k.envFreeList
  pages : k'.pmap.pages = k.pmap.pages
  pageFreeList : k'.pmap.pageFreeList = k.pmap.pageFreeList
  tables : SameTables k.dirs k.pmap.mem k'.pmap.mem

theorem Unchanged.refl (k : Kernel) : Unchanged k k := ⟨rfl, rfl, rfl, rfl, .refl _⟩

inductive Args.Manages (a : Args) : Prop
  | pageAlloc : a.no = 4 → a.Manages
  | pageMap : a.no = 5 → a.Manages
  | pageUnmap : a.no = 6 → a.Manages
  | exofork : a.no = 7 → a.Manages
  | envSetStatus : a.no = 8 → a.Manages
  | envSetPgfaultUpcall : a.no = 10 → a.Manages

section
variable {k : Kernel} {P : Platform} (h : KernelOk P k) (hb : k.Bounded) (hcur : k.Live cur)
include h hb hcur

theorem sysPageAlloc_fails (envid va perm : Word) :
    Triple (sysPageAlloc cur envid va perm) k (fun r k' => r = 0 ∨ Unchanged k k') (fun _ _ => True) := by
  refine sysPageAlloc_rule (fun _ _ => .inr (.refl k)) fun e he hva hperm => liftPmap_rule ?_
  refine (h.pageAllocAt hb (live_resolve hcur he) hva hperm).imp ?_
  rintro r s ⟨-, -, ⟨-, hsame, hstate⟩ | ⟨rfl, -⟩⟩
  · have hpages : s.pages = k.pmap.pages := by rw [hstate]
    have hfree : s.pageFreeList = k.pmap.pageFreeList := by rw [hstate]
    exact .inr ⟨rfl, rfl, hpages, hfree, hsame⟩
  · exact .inl rfl

theorem sysPageMap_fails (srcenvid srcva dstenvid dstva perm : Word) :
    Triple (sysPageMap cur srcenvid srcva dstenvid dstva perm) k (fun r k' => r = 0 ∨ Unchanged k k')
      (fun _ _ => True) := by
  refine sysPageMap_rule (fun _ _ => .inr (.refl k)) fun src dst hsrc hdst hva hva' hperm => liftPmap_rule ?_
  refine (h.pageMapAt hb (live_resolve hcur hsrc) (live_resolve hcur hdst) hva hva' hperm).imp ?_
  rintro r _ (⟨-, rfl⟩ | ⟨rfl, -⟩)
  · exact .inr (.refl k)
  · exact .inl rfl

end

section
variable {k : Kernel}

theorem sysPageUnmap_fails (cur : EnvPtr) (envid va : Word) :
    Triple (sysPageUnmap cur envid va) k (fun r k' => r = 0 ∨ Unchanged k k') (fun _ _ => True) :=
  sysPageUnmap_rule (fun _ _ => .inr (.refl k)) fun _ _ _ => Triple.trivial.imp fun _ _ _ => .inl rfl

theorem sysEnvSetStatus_fails (cur : EnvPtr) (envid status : Word) :
    Triple (sysEnvSetStatus cur envid status) k (fun r k' => r = 0 ∨ Unchanged k k') (fun _ _ => True) :=
  sysEnvSetStatus_rule (fun _ _ => .inr (.refl k)) fun _ _ _ _ => .inl rfl

theorem sysEnvSetPgfaultUpcall_fails (cur : EnvPtr) (envid func : Word) :
    Triple (sysEnvSetPgfaultUpcall cur envid func) k (fun r k' => r = 0 ∨ Unchanged k k') (fun _ _ => True) :=
  sysEnvSetPgfaultUpcall_rule (fun _ _ => .inr (.refl k)) fun _ _ => .inl rfl

theorem nextEnvId_toInt (id : Word) (e : EnvPtr) : 0 ≤ (nextEnvId id e).toInt := by
  have hlt : e.1 < 1024 := e.2
  have hslot : (BitVec.ofNat 32 e.1).msb = false := by
    rw [BitVec.msb_eq_false_iff_two_mul_lt, BitVec.toNat_ofNat, Nat.mod_eq_of_lt (by omega)]
    omega
  have hmsb : (nextEnvId id e).msb = false := by
    unfold nextEnvId
    dsimp only
    rw [BitVec.msb_or, hslot, Bool.or_false]
    split
    · decide
    · rename_i hpos
      rw [BitVec.msb_eq_toInt, decide_eq_false_iff_not]
      omega
  rw [BitVec.msb_eq_toInt, decide_eq_false_iff_not] at hmsb
  omega

theorem sysExofork_fails (cur : EnvPtr) :
    Triple (sysExofork cur) k (fun r k' => 0 ≤ r.toInt ∨ Unchanged k k') (fun _ _ => True) := by
  refine (sysExofork_cases k cur).mono ?_ fun _ _ _ => trivial
  rintro _ _ (rfl | ⟨e, s, pgdir, -, -, -, rfl⟩)
  · exact .inr (.refl _)
  · exact .inl (nextEnvId_toInt ..)

theorem int_fails {m : KernelM Int} (h : Triple m k (fun r k' => r = 0 ∨ Unchanged k k') (fun _ _ => True)) :
    Triple (do return BitVec.ofInt 32 (← m) : KernelM Word) k (fun r k' => 0 ≤ r.toInt ∨ Unchanged k k')
      (fun _ _ => True) := by
  refine .bind h ?_
  rintro r k' (rfl | hk)
  · exact .pure (.inl (by decide))
  · exact .pure (.inr hk)

end

theorem Args.Manages.fails {k : Kernel} {a : Args} (hm : a.Manages) (h : KernelOk P k) (hb : k.Bounded)
    (hcur : k.Live cur) :
    Triple (a.call c cur) k (fun r k' => 0 ≤ r.toInt ∨ Unchanged k k') (fun _ _ => True) := by
  unfold Args.call syscall
  cases hm with
  | pageAlloc hn =>
    rw [hn]
    exact int_fails (sysPageAlloc_fails h hb hcur ..)
  | pageMap hn =>
    rw [hn]
    exact int_fails (sysPageMap_fails h hb hcur ..)
  | pageUnmap hn =>
    rw [hn]
    exact int_fails (sysPageUnmap_fails ..)
  | exofork hn =>
    rw [hn]
    exact sysExofork_fails cur
  | envSetStatus hn =>
    rw [hn]
    exact int_fails (sysEnvSetStatus_fails ..)
  | envSetPgfaultUpcall hn =>
    rw [hn]
    exact int_fails (sysEnvSetPgfaultUpcall_fails ..)

/-! ## Until no page is free -/

section
variable {ι : Type} [Fintype ι] [DecidableEq ι] {P : Platform} {dirs : ι → Option Nat} {s : Pmap}

/-- The free page `x` is mapped at `va`, where nothing was mapped. -/
structure Took (P : Platform) (dirs : ι → Option Nat) (i : ι) (va perm : Word) (x : Nat) (s s' : Pmap) : Prop where
  ok : ∃ l, MemOk P dirs [] ∅ l s'
  fresh : ∀ r : Ref ι Own, target dirs s.mem r ≠ some x
  lt : x < 65536
  pte : PteSet dirs s.mem s'.mem i (pdx va) (ptx va) (page2pa x ||| perm ||| pteP)
  refs_le : ∀ a, a ≠ x → refs dirs s'.mem a ≤ max 1 (refs dirs s.mem a)
  free : tableOf dirs s.mem i (pdx va) ≠ none → s'.pageFreeList = s.next x

/-- Whatever the counts are, as nothing is unmapped. -/
theorem pageAllocAt_fresh (h : MemOk P dirs [] ∅ l s) (hq : dirs i = some q) (hva : va < utop) (hperm : UserPerm perm)
    (he : entryPage (pteOf dirs s.mem i (pdx va) (ptx va)) = none) (hf : s.pageFreeList = some x)
    (ht : tableOf dirs s.mem i (pdx va) ≠ none ∨ s.next x ≠ none) :
    ∃ s', exec (pageAllocAt (q * pgsize) va perm) s = (.ok 0, s') ∧ Took P dirs i va perm x s s' := by
  obtain ⟨hpool, hfresh, _, _⟩ := h.head_unused hf
  obtain ⟨l', rfl, htake, hpde, hpte⟩ := h.take hf
  have ho := own_pdx hva
  have hsame : SameTables dirs s.mem (s.take x).mem := ⟨fun hd => hpde _ _ hd, fun ho hk => hpte _ _ _ ho hk⟩
  have htab : tableOf dirs (s.take x).mem i (pdx va) = tableOf dirs s.mem i (pdx va) := by
    unfold tableOf
    rw [hsame.pde ho.lt]
  have he' : entryPage (pteOf dirs (s.take x).mem i (pdx va) (ptx va)) = none := by
    rw [hsame.pte ho (ptx_lt va)]
    exact he
  have herase : (insert x ∅ : Finset Nat).erase x = ∅ := Finset.erase_insert (Finset.notMem_empty x)
  obtain ⟨r, t, hexec, hres⟩ := (pageInsert_ok htake hq hva (fun hne => absurd he' hne)
    (.inl (Finset.mem_insert_self x ∅)) hperm).returns
  obtain ⟨rfl, hins⟩ | ⟨-, -, hnone, hnotab⟩ := hres
  · refine ⟨t, ?_, ?_⟩
    · unfold pageAllocAt
      rw [exec_bind_ok (exec_pageAlloc_true hf (h.pool_lt hpool))]
      dsimp only
      rw [exec_bind_ok hexec]
      rfl
    · obtain ⟨l'', hok, -⟩ := hins.ok
      rw [herase] at hok
      refine ⟨⟨l'', hok⟩, hfresh, Nat.lt_of_lt_of_le (h.pool_lt hpool) s.layout.npages_le, fun j d k ho hk => ?_,
        fun a ha => ?_, fun hne => ?_⟩
      · rw [hins.pte j d k ho hk, hsame.pte ho hk]
      · rw [← hsame.refs_eq]
        exact hins.refs_le a ha
      · obtain ⟨pt, hpt⟩ := Option.ne_none_iff_exists'.mp hne
        rw [← htab] at hpt
        have hpos := P.pool_pos (htake.table_pool ho hpt)
        have hdir := P.pool_pos (h.dir_pool hq)
        have hread : entryPage ((s.take x).mem.read32 (q * pgsize + 4 * pdx va)) = some pt := by
          rw [pde_read hq]
          exact hpt
        have hlt := htake.pool_lt (htake.table_pool ho hpt)
        have hent : entryPage ((s.take x).mem.read32 (pt * pgsize + 4 * ptx va)) = none := by
          rw [pte_read hpt]
          exact he'
        have hstate : exec (pageInsert (q * pgsize) x va perm) (s.take x) = _ :=
          exec_pageInsert (exec_pgdirWalk_present hread hlt) hread hlt (by omega) (by omega) htake.uninit_ne
            (by simp [hent])
        rw [hexec] at hstate
        rw [(Prod.mk.inj hstate).2]
        simp only [Pmap.replace, hent]
        rfl
  · rw [htab] at hnotab
    obtain ht | ht := ht
    · exact absurd hnotab ht
    · exact absurd hnone ht

end

def hva (j : Nat) : Word := pgaddr (300 + j / 1024) (j % 1024) 0

theorem hva_indices (hj : j < 65538) : pdx (hva j) = 300 + j / 1024 ∧ ptx (hva j) = j % 1024 :=
  ⟨pdx_pgaddr (by omega) (by omega), ptx_pgaddr (by omega) (by omega)⟩

theorem hva_own (hj : j < 65538) : Own (300 + j / 1024) ∧ j % 1024 < 1024 := by
  unfold Own pdxUtop
  omega

theorem hva_ok (hj : j < 65538) : ¬ badVa (hva j) := pgaddr_ok (hva_own hj).1 (hva_own hj).2

/-- `p` is mapped at 65537 addresses. -/
structure Piled (P : Platform) (k : Kernel) (p : Nat) : Prop where
  ok : KernelOk P k
  curenv : k.curenv 0 = some slot0
  status : (k.envs slot0).status = .running
  entry : i < 65537 → pteOf k.dirs k.pmap.mem slot0 (64 + i / 1024) (i % 1024) = page2pa p ||| pteUWP ||| pteP
  refs_le : refs k.dirs k.pmap.mem p ≤ 65537
  lt : p < 65536

/-- The first `m` places for pages are filled. -/
structure Hoard (P : Platform) (k : Kernel) (p m : Nat) : Prop where
  piled : Piled P k p
  spare : pteOf k.dirs k.pmap.mem slot0 128 1 = 0#32
  rest : m ≤ j → j < 65538 → pteOf k.dirs k.pmap.mem slot0 (300 + j / 1024) (j % 1024) = 0#32
  pages : ∃ f : Nat → Nat, Set.InjOn f {j | j < m} ∧ ∀ j < m, f j < 65536 ∧
    pteOf k.dirs k.pmap.mem slot0 (300 + j / 1024) (j % 1024) = page2pa (f j) ||| pteUWP ||| pteP

section
variable {k : Kernel} (h : Piled P k p)
include h

theorem Piled.refs_eq : refs k.dirs k.pmap.mem p = 65537 := by
  refine Nat.le_antisymm h.refs_le ?_
  have hown : ∀ i : Fin 65537, Own (64 + i.1 / 1024) := fun i => (wva_own (by omega)).1
  refine le_count (fun i : Fin 65537 => .pte slot0 ⟨⟨64 + i.1 / 1024, (hown i).lt⟩, hown i⟩ ⟨i.1 % 1024, by omega⟩) ?_ ?_
  · intro i j hij
    simp at hij
    exact Fin.ext (by omega)
  · intro i
    change entryPage (pteOf k.dirs k.pmap.mem slot0 (64 + i.1 / 1024) (i.1 % 1024)) = some p
    rw [h.entry i.2]
    exact entryPage_wva h.lt

/-- The count of `p` has wrapped to one. -/
theorem Piled.pages : k.pmap.pages p = ⟨none, 1⟩ ∧ P.pool p := by
  obtain ⟨l, hok⟩ := h.ok.mem
  have hentry : entryPage (pteOf k.dirs k.pmap.mem slot0 64 0) = some p :=
    (congrArg entryPage (h.entry (i := 0) (by decide))).trans (entryPage_wva h.lt)
  have hpool : P.pool p := hok.page_pool (by decide) (by decide) hentry
  have huses : uses (target k.dirs k.pmap.mem : Ref EnvPtr Own → Option Nat) [] p = 65537 := by
    rw [uses, List.count_nil, Nat.add_zero]
    exact h.refs_eq
  have href : (k.pmap.pages p).ppRef = BitVec.ofNat 16 65537 := by
    have := hok.counted.ref_eq hpool
    rwa [huses] at this
  have hlink : (k.pmap.pages p).ppLink = none :=
    hok.counted.unlinked hpool (hok.counted.not_free_of_uses (by rw [huses]; decide))
  refine ⟨?_, hpool⟩
  calc k.pmap.pages p = ⟨(k.pmap.pages p).ppLink, (k.pmap.pages p).ppRef⟩ := rfl
    _ = ⟨none, 1⟩ := by
      rw [href, hlink]
      rfl

theorem Piled.alloc (hbad : ¬ badVa va)
    (he : pteOf k.dirs k.pmap.mem slot0 (pdx va) (ptx va) = 0#32) (hf : k.pmap.pageFreeList = some x)
    (ht : tableOf k.dirs k.pmap.mem slot0 (pdx va) ≠ none ∨ k.pmap.next x ≠ none)
    (hne : ∀ i, i < 65537 → ¬ (64 + i / 1024 = pdx va ∧ i % 1024 = ptx va)) :
    ∃ k', Step k (.trap 0 (callFrame ⟨4, 0, va, pteUWP, 0, 0⟩) 0) k' ∧ SameEnvs k k' ∧ Piled P k' p ∧
      Took P k.dirs slot0 va pteUWP x k.pmap k'.pmap := by
  have hl := live_of_running h.status
  obtain ⟨q, hq, hpg⟩ := h.ok.dir hl
  obtain ⟨l, hok⟩ := h.ok.mem
  obtain ⟨s', hexec, htook⟩ := pageAllocAt_fresh hok hq (lt_utop_of_not_badVa hbad)
    (userPerm_of_not_badPerm pteUWP_ok) (by rw [he, entryPage_zero]) hf ht
  rw [← hpg] at hexec
  obtain ⟨k', hstep, hpm, hsame⟩ := Step.pageAlloc h.curenv h.status hbad pteUWP_ok hexec
  have hp0 : entryPage (pteOf k.dirs k.pmap.mem slot0 64 0) = some p := by
    rw [h.entry (i := 0) (by decide)]
    exact entryPage_wva h.lt
  have hpx : p ≠ x := by
    rintro rfl
    exact htook.fresh (.pte slot0 ⟨⟨64, by decide⟩, by decide⟩ ⟨0, by decide⟩) hp0
  refine ⟨k', hstep, hsame, ⟨hsame.kernelOk h.ok (by rw [hpm]; exact htook.ok), hsame.curenv.trans h.curenv,
    hsame.status.trans h.status, fun {i} hi => ?_, ?_, h.lt⟩, by rw [hpm]; exact htook⟩
  · obtain ⟨ho, hk⟩ := wva_own (i := i) (by omega)
    rw [hsame.dirs, hpm, htook.pte slot0 _ _ ho hk, if_neg fun hc => hne i hi hc.2, h.entry hi]
  · rw [hsame.dirs, hpm]
    have := htook.refs_le p hpx
    have := h.refs_le
    omega

end

section
variable {k : Kernel} (h : Hoard P k p m)
include h

theorem Hoard.next (hm : m < 65538) (hf : k.pmap.pageFreeList = some x)
    (ht : tableOf k.dirs k.pmap.mem slot0 (pdx (hva m)) ≠ none ∨ k.pmap.next x ≠ none) :
    ∃ k', Step k (.trap 0 (callFrame ⟨4, 0, hva m, pteUWP, 0, 0⟩) 0) k' ∧ SameEnvs k k' ∧ Hoard P k' p (m + 1) := by
  obtain ⟨hd, hk⟩ := hva_indices hm
  have he : pteOf k.dirs k.pmap.mem slot0 (pdx (hva m)) (ptx (hva m)) = 0#32 := by
    rw [hd, hk]
    exact h.rest (Nat.le_refl m) hm
  obtain ⟨k', hstep, hsame, hpiled, htook⟩ := h.piled.alloc (hva_ok hm) he hf ht fun i hi hc => by omega
  have hset : ∀ j, j < 65538 → pteOf k'.dirs k'.pmap.mem slot0 (300 + j / 1024) (j % 1024) =
      if j = m then page2pa x ||| pteUWP ||| pteP
      else pteOf k.dirs k.pmap.mem slot0 (300 + j / 1024) (j % 1024) := fun j hj => by
    obtain ⟨ho, hk'⟩ := hva_own hj
    have hiff : (300 + j / 1024 = 300 + m / 1024 ∧ j % 1024 = m % 1024) ↔ j = m := by omega
    rw [hsame.dirs, htook.pte slot0 _ _ ho hk', hd, hk]
    simp only [true_and, hiff]
  obtain ⟨f, hinj, hf'⟩ := h.pages
  -- The page taken is none of those that are mapped already.
  have hnew : ∀ j, j < m → f j ≠ x := fun j hj hx => by
    obtain ⟨ho, hk'⟩ := hva_own (j := j) (by omega)
    refine htook.fresh (.pte slot0 ⟨⟨_, ho.lt⟩, ho⟩ ⟨_, hk'⟩) ?_
    change entryPage (pteOf k.dirs k.pmap.mem slot0 (300 + j / 1024) (j % 1024)) = some x
    rw [(hf' j hj).2, ← hx]
    exact entryPage_wva (hf' j hj).1
  refine ⟨k', hstep, hsame, hpiled, ?_, fun {j} hj hj' => ?_, Function.update f m x, ?_, fun j hj => ?_⟩
  · rw [hsame.dirs, htook.pte slot0 128 1 (by decide) (by decide), if_neg (by rw [hd]; omega), h.spare]
  · rw [hset j hj', if_neg (by omega), h.rest (by omega) hj']
  · intro i hi j hj hij
    simp only [Set.mem_setOf_eq] at hi hj
    simp only [Function.update_apply] at hij
    split at hij <;> split at hij
    · omega
    · exact absurd hij.symm (hnew j (by omega))
    · exact absurd hij (hnew i (by omega))
    · exact hinj (show i < m by omega) (show j < m by omega) hij
  · rw [hset j (by omega)]
    by_cases hjm : j = m
    · subst hjm
      simp [htook.lt]
    · rw [if_neg hjm, Function.update_of_ne hjm]
      exact hf' j (by omega)

theorem Hoard.lt : m ≤ 65536 := by
  obtain ⟨f, hinj, hf⟩ := h.pages
  have hcard := Finset.card_le_card_of_injOn (s := Finset.range m) (t := Finset.range 65536) f
    (fun j hj => by simpa using (hf j (by simpa using hj)).1)
    (fun i hi j hj => hinj (by simpa using hi) (by simpa using hj))
  simpa using hcard

theorem Hoard.exhaust (hm : m + n = 65537) :
    ∃ k', PageRuns k k' ∧ SameEnvs k k' ∧ Piled P k' p ∧ k'.pmap.pageFreeList = none := by
  induction n generalizing k m with
  | zero =>
    have := h.lt
    omega
  | succ n ih =>
    cases hf : k.pmap.pageFreeList with
    | none => exact ⟨k, .refl, .refl k, h.piled, hf⟩
    | some x =>
      by_cases ht : tableOf k.dirs k.pmap.mem slot0 (pdx (hva m)) ≠ none ∨ k.pmap.next x ≠ none
      · obtain ⟨k1, hstep, hsame, h1⟩ := h.next (by omega) hf ht
        obtain ⟨k2, hrun, hsame', h2⟩ := ih h1 (by omega)
        exact ⟨k2, Relation.ReflTransGen.head ⟨_, hstep, pageCall_frame (.inl rfl)⟩ hrun, hsame.trans hsame', h2⟩
      · -- The last page does for an address whose table is there.
        simp only [not_or, not_not] at ht
        obtain ⟨hd, hk⟩ := wva_indices (i := 65537) (by decide)
        have htab : tableOf k.dirs k.pmap.mem slot0 (pdx (wva 65537)) ≠ none := by
          rw [hd]
          exact table_ne_none (h.piled.entry (i := 65536) (by decide)) h.piled.lt
        obtain ⟨k1, hstep, hsame, h1, htook⟩ := h.piled.alloc (wva_ok (i := 65537) (by decide))
          (by rw [hd, hk]; exact h.spare) hf (.inl htab) fun i hi hc => by omega
        exact ⟨k1, Relation.ReflTransGen.single ⟨_, hstep, pageCall_frame (.inl rfl)⟩, hsame, h1,
          (htook.free htab).trans ht.2⟩

end

theorem Alone.hoard {k : Kernel} (h : Alone P k type (n + 101) a b) :
    ∃ (k' : Kernel) (p : Nat), PageRuns k k' ∧ SameEnvs k k' ∧ Hoard P k' p 0 := by
  obtain ⟨k1, p, hs1, hsame1, h1, hkeep1⟩ := h.mapping
  obtain ⟨k2, hrun2, hsame2, h2, hkeep2⟩ := h1.run (n := 65536) (by decide)
  refine ⟨k2, p, Relation.ReflTransGen.head ⟨_, hs1, pageCall_frame (.inl rfl)⟩ hrun2, hsame1.trans hsame2,
    ⟨h2.ok, h2.curenv, h2.status, h2.entry, Nat.le_of_eq h2.refs, h2.lt⟩, ?_, fun {j} _ hj => ?_,
    fun _ => 0, by simp [Set.InjOn], by simp⟩
  · exact h2.empty (i := 65537) (Nat.le_refl _) (by decide)
  · obtain ⟨ho, hk⟩ := hva_own hj
    rw [hkeep2 _ _ ho hk (by omega), hkeep1 _ _ ho hk (by omega), h.loaded.pte ho hk, if_neg (by omega),
      if_neg (by omega)]

/-! ## A free page that is a page directory -/

/-- The table `pt` in the directory `q` maps `p` at `va`. -/
structure Walks (s : Pmap) (q pt p : Nat) (va : Word) : Prop where
  table : entryPage (s.mem.read32 (q * pgsize + 4 * pdx va)) = some pt
  page : entryPage (s.mem.read32 (pt * pgsize + 4 * ptx va)) = some p

/-- The directory and the table of the first addresses. -/
structure Held (P : Platform) (k : Kernel) (q pt p : Nat) : Prop where
  pgdir : (k.envs slot0).pgdir = q * pgsize
  pool : P.pool pt
  dir_ne : q ≠ p
  table_ne : pt ≠ p
  ne : pt ≠ q
  walks : i < 1024 → Walks k.pmap q pt p (wva i)

theorem Piled.held {k : Kernel} (h : Piled P k p) : ∃ q pt, Held P k q pt p := by
  have hl := live_of_running h.status
  obtain ⟨q, hq, hpg⟩ := h.ok.dir hl
  obtain ⟨l, hok⟩ := h.ok.mem
  have hpage : ∀ i, i < 1024 → entryPage (pteOf k.dirs k.pmap.mem slot0 64 i) = some p := fun i hi => by
    have hentry := h.entry (i := i) (by omega)
    rw [show i / 1024 = 0 by omega, show i % 1024 = i by omega] at hentry
    rw [hentry]
    exact entryPage_wva h.lt
  obtain ⟨pt, ht⟩ := exists_table (hpage 0 (by decide))
  have ho : Own 64 := by decide
  have hnot := hok.mapped_not_table ho (by decide) (hpage 0 (by decide))
  refine ⟨q, pt, hpg, hok.table_pool ho ht, fun heq => hnot (.dir slot0) trivial (heq ▸ hq),
    fun heq => hnot (.pde slot0 ⟨⟨64, by decide⟩, ho⟩) trivial (heq ▸ ht),
    hok.sep.tabSep.dir_ne_table hq ho (by decide) ht, fun {i} hi => ?_⟩
  obtain ⟨hd, hk⟩ := wva_indices (i := i) (by omega)
  rw [show i / 1024 = 0 by omega] at hd
  rw [show i % 1024 = i by omega] at hk
  refine ⟨?_, ?_⟩
  · rw [hd, ← pdeOf_some hq]
    exact ht
  · rw [hk, ← pteOf_some ht]
    exact hpage i hi

theorem Step.unmapLast {k : Kernel} (hc : k.curenv 0 = some cur) (hr : (k.envs cur).status = .running)
    (hpg : (k.envs cur).pgdir = q * pgsize) (hw : Walks k.pmap q pt p va) (hva : ¬ badVa va)
    (hpt : pt < k.pmap.layout.npages) (hp : p < k.pmap.layout.npages) (hu : k.pmap.uninit ≠ 0) (hpt0 : pt ≠ 0)
    (hlast : k.pmap.pages p = ⟨none, 1⟩) (hfree : k.pmap.pageFreeList = none) :
    ∃ k', Step k (.trap 0 (callFrame ⟨6, 0, va, 0, 0, 0⟩) 0) k' ∧ SameEnvs k k' ∧
      k'.pmap.pageFreeList = some p ∧ k'.pmap.pages p = ⟨none, 0⟩ ∧ k'.pmap.layout = k.pmap.layout ∧
      k'.pmap.uninit = k.pmap.uninit ∧ k'.pmap.mem = k.pmap.mem.write32 (pt * pgsize + 4 * ptx va) 0#32 := by
  have href : k.pmap.ref p - 1#16 = 0#16 := by
    rw [Pmap.ref, hlast]
    decide
  have hnext : k.pmap.next p = none := by rw [Pmap.next, hlast]
  have hexec := exec_pageRemove_mapped hw.table hpt hw.page hp hu hpt0 fun hs => hs.2 hnext
  rw [← hpg] at hexec
  obtain ⟨k', hstep, hpm, hsame⟩ := Step.pageUnmap hc hr hva hexec
  refine ⟨k', hstep, hsame, ?_, ?_, ?_, ?_, ?_⟩
  · rw [hpm]
    simp [Pmap.drop, href, Pmap.link]
  · rw [hpm]
    simp [Pmap.drop, href, Pmap.link, Pmap.decref, Pmap.setPage, hlast, hfree]
  · rw [hpm]
    exact Pmap.drop_layout
  · rw [hpm]
    exact Pmap.drop_uninit
  · rw [hpm]

theorem Looks.forkLast {k : Kernel} {v : View} (h : Looks v k) (hc : v.curenv 0 = some cur) (hr : v.status cur = .running)
    (hf : v.free = e :: l) (hne : e ≠ cur) (hp : k.pmap.pageFreeList = some p) (hfresh : k.pmap.pages p = ⟨none, 0⟩)
    (hlt : p < k.pmap.layout.npages) (hp0 : p ≠ 0) (hk : k.pmap.layout.kernPgdir = kq * pgsize) (hkq : kq ≠ p) :
    ∃ k', Step k (.trap 0 (callFrame ⟨7, 0, 0, 0, 0, 0⟩) 0) k' ∧ Looks (v.fork cur e) k' ∧
      k'.pmap.pageFreeList = none ∧ k'.pmap.pages p = ⟨none, 1⟩ ∧ k'.pmap.layout = k.pmap.layout ∧
      k'.pmap.uninit = k.pmap.uninit ∧ (∀ a, a / pgsize ≠ p → k'.pmap.mem a = k.pmap.mem a) ∧
      k'.pmap.mem.read32 (p * pgsize + 4 * pdx uvpt) = page2pa p ||| pteP ||| pteU ∧
      (k'.envs e).pgdir = p * pgsize ∧ (k'.envs cur).pgdir = (k.envs cur).pgdir := by
  have hent := h.entered hc (callFrame ⟨7, 0, 0, 0, 0, 0⟩)
  have hhead : k.envFreeList = some e := by
    obtain ⟨r, hr⟩ := h.free
    rw [hr.head_eq, hf]
    rfl
  have hvm := exec_envSetupVm (s := k.pmap) hp hlt hp0 hk hkq
  have hcall : exec (Args.call ⟨7, 0, 0, 0, 0, 0⟩ 0 cur) (k.entered 0 cur (callFrame ⟨7, 0, 0, 0, 0, 0⟩)) = _ :=
    exec_exofork_call rfl hhead hvm
  have hrun : (v.fork cur e).status cur = .running := by
    simp [View.fork, Function.update_of_ne hne.symm, hr]
  obtain ⟨hstep, hlooks⟩ := h.call hc hr hcall (hent.fork hf) hc hrun
  refine ⟨_, hstep, hlooks, ?_, ?_, rfl, rfl, fun a ha => ?_, ?_, ?_, ?_⟩
  · change (k.pmap.pages p).ppLink = none
    rw [hfresh]
  · change ((k.pmap.take p).incref p).pages p = _
    simp [Pmap.incref, Pmap.setPage, Pmap.take, Pmap.unlink, hfresh]
  · exact (dirWords_of_ne ha).trans (fill_page_of_ne ha)
  · refine (dirWords_upper not_own_uvpt (pdx_lt _) hkq).trans ?_
    rw [if_pos rfl]
  · rw [resumed_pgdir]
    simp [Kernel.forked, Kernel.allocated, newEnv]
  · rw [resumed_pgdir, forked_of_ne hne.symm, entered_pgdir]

/-- A page taken for an address space whose directory it is itself. -/
theorem exec_pageAllocAt_self {s : Pmap} (hp : s.pageFreeList = some p) (hfresh : s.pages p = ⟨none, 0⟩)
    (hlt : p < s.layout.npages) :
    exec (pageAllocAt (p * pgsize) va perm) s = (.ok (-eNoMem), (s.take p).link p) := by
  have hnone : (s.take p).pageFreeList = none := by
    change (s.pages p).ppLink = none
    rw [hfresh]
  have hpages : (s.take p).pages p = ⟨none, 0⟩ := by
    simp [Pmap.take, Pmap.unlink, hfresh]
  have hzero : entryPage ((s.take p).mem.read32 (p * pgsize + 4 * pdx va)) = none := by
    have hread : (s.take p).mem.read32 (p * pgsize + 4 * pdx va) = 0#32 := by
      refine (read32_fill_page (pdx_lt va)).trans ?_
      rw [if_pos rfl]
    rw [hread, entryPage_zero]
  have hins : exec (pageInsert (p * pgsize) p va perm) (s.take p) = _ :=
    exec_pageInsert_noMem (exec_pgdirWalk_full hzero hnone)
  unfold pageAllocAt
  rw [exec_bind_ok (exec_pageAlloc_true hp hlt)]
  dsimp only
  rw [exec_bind_ok hins]
  simp [pageFree, exec_bind, exec_map, hpages, eNoMem]

/-- `p` is free, and the page directory of the child. -/
structure Orphan (v : View) (k : Kernel) (p : Nat) : Prop where
  looks : Looks v k
  head : k.pmap.pageFreeList = some p
  fresh : k.pmap.pages p = ⟨none, 0⟩
  lt : p < k.pmap.layout.npages
  pgdir : (k.envs slot1).pgdir = p * pgsize
  self : k.pmap.mem.read32 (p * pgsize + 4 * pdx uvpt) = page2pa p ||| pteP ||| pteU

/-- With no page free the page is unmapped, taken for a child and unmapped again. -/
theorem Piled.orphan {k : Kernel} {v : View} (h : Piled P k p) (hnone : k.pmap.pageFreeList = none) (hlooks : Looks v k)
    (hc : v.curenv 0 = some slot0) (hr : v.status slot0 = .running) (hf : v.free = slot1 :: l) :
    ∃ k', OneCpuRuns k k' ∧ Orphan (v.fork slot0 slot1) k' p := by
  obtain ⟨q, pt, hheld⟩ := h.held
  obtain ⟨hcount, hpool⟩ := h.pages
  obtain ⟨_, hok⟩ := h.ok.mem
  have hlt := hok.pool_lt hpool
  have hptlt := hok.pool_lt hheld.pool
  have hpt0 := Nat.pos_iff_ne_zero.mp (P.pool_pos hheld.pool)
  have hkq : k.pmap.layout.kernPgdir = P.kq * pgsize := by
    rw [hok.layout_eq]
    exact P.kernPgdir_eq
  have hpkq : P.kq ≠ p := fun heq => P.kq_kept (heq ▸ hpool)
  obtain ⟨-, ht0⟩ := wva_indices (i := 0) (by decide)
  obtain ⟨-, ht1⟩ := wva_indices (i := 1) (by decide)
  -- The first unmapping, and the child.
  obtain ⟨k1, hs1, hsame1, hf1, hp1, hlay1, hu1, hm1⟩ := Step.unmapLast h.curenv h.status hheld.pgdir
    (hheld.walks (i := 0) (by decide)) (wva_ok (by decide)) hptlt hlt hok.uninit_ne hpt0 hcount hnone
  obtain ⟨k2, hs2, hlooks2, hf2, hp2, hlay2, hu2, hm2, hself, hpg2, hcur2⟩ := (hlooks.sameEnvs hsame1).forkLast hc hr hf
    (show slot1 ≠ slot0 by decide) hf1 hp1 (by rw [hlay1]; exact hlt) (Nat.pos_iff_ne_zero.mp (P.pool_pos hpool))
    (by rw [hlay1]; exact hkq) hpkq
  -- The table still maps the page at the second address.
  have hread : ∀ x i, x ≠ p → i < 1024 → k2.pmap.mem.read32 (x * pgsize + 4 * i) =
      k1.pmap.mem.read32 (x * pgsize + 4 * i) := fun x i hx hi =>
    read32_page_congr (fun a ha => hm2 a (by rw [ha]; exact hx)) hi
  have hwalks : Walks k2.pmap q pt p (wva 1) := by
    obtain ⟨htab, hpage⟩ := hheld.walks (i := 1) (by decide)
    refine ⟨?_, ?_⟩
    · rw [hread q _ hheld.dir_ne (pdx_lt _), hm1, read32_page_congr (fun a ha =>
        write32_page_of_ne (ptx_lt _) (by rw [ha]; exact hheld.ne.symm)) (pdx_lt _)]
      exact htab
    · rw [hread pt _ hheld.table_ne (ptx_lt _), hm1, Mem.read32_write32_index, if_neg (by rw [ht0, ht1]; decide)]
      exact hpage
  have hrun2 : (v.fork slot0 slot1).status slot0 = .running := by
    simp [View.fork, hr, show slot0 ≠ slot1 by decide]
  obtain ⟨k3, hs3, hsame3, hf3, hp3, hlay3, -, hm3⟩ := Step.unmapLast (hlooks2.curenv.trans hc)
    (hlooks2.status.trans hrun2) (by rw [hcur2, hsame1.pgdir, hheld.pgdir]) hwalks (wva_ok (by decide))
    (by rw [hlay2, hlay1]; exact hptlt) (by rw [hlay2, hlay1]; exact hlt) (by rw [hu2, hu1]; exact hok.uninit_ne)
    hpt0 hp2 hf2
  have hsingle : ∀ {tf cr2}, (Event.trap 0 tf cr2).Single := fun c hc => (Option.some.inj hc).symm
  refine ⟨k3, ((Relation.ReflTransGen.single ⟨_, hs1, hsingle⟩).tail ⟨_, hs2, hsingle⟩).tail ⟨_, hs3, hsingle⟩,
    hlooks2.sameEnvs hsame3, hf3, hp3, by rw [hlay3, hlay2, hlay1]; exact hlt, hsame3.pgdir.trans hpg2, ?_⟩
  rw [hm3, ← hself]
  exact read32_page_congr (fun a ha => write32_page_of_ne (ptx_lt _) (by rw [ha]; exact hheld.table_ne.symm)) (pdx_lt _)

/-! ## Failed calls -/

/-- In a run in which no page has more than 65535 references, a call that returns a
negative value has changed nothing. -/
theorem failed_call_unchanged {mach : Machine} (hboot : Boots mach k0) (hrun : SingleRuns k0 k) (hb : k.Bounded)
    (hc : k.curenv 0 = some cur) {a : Args} (ha : a.Manages) (tf : Trapframe)
    (hcall : exec (a.call 0 cur) (k.entered 0 cur tf) = (.ok r, k')) (hr : r.toInt < 0) :
    Unchanged (k.entered 0 cur tf) k' := by
  obtain ⟨P, -, -, -, -, hok0, hcpu, -⟩ := hboot.machineOk
  obtain ⟨hok, -⟩ := hok0.singleRuns hcpu hrun
  have hl : k.Live cur := hok.current _ hc
  obtain hpos | hk := (ha.fails (hok.kernel.entered hl) (entered_bounded hb) (entered_live.mpr hl)).ok hcall
  · omega
  · exact hk

/-- `sys_page_alloc` above `UTOP` in the first program of a machine with 64MB. -/
theorem failed_call_unchanged_pc64 : ∃ k0 k : Kernel, Boots pc64 k0 ∧ SingleRuns k0 k ∧ k.curenv 0 = some slot0 ∧
    ∀ tf, ∃ k', exec (Args.call ⟨4, 0, utop, pteUWP, 0, 0⟩ 0 slot0) (k.entered 0 slot0 tf) =
      (.ok (BitVec.ofInt 32 (-eInval)), k') ∧ Unchanged (k.entered 0 slot0 tf) k' := by
  obtain ⟨k0, P, k, a, b, hboot, -, hrun, h⟩ := pc64_alone (fun _ => 0#8) .user
  refine ⟨k0, k, hboot, hrun, h.curenv, fun tf => ?_⟩
  have hcall : exec (Args.call ⟨4, 0, utop, pteUWP, 0, 0⟩ 0 slot0) (k.entered 0 slot0 tf) =
      (.ok (BitVec.ofInt 32 (-eInval)), k.entered 0 slot0 tf) := rfl
  exact ⟨_, hcall, failed_call_unchanged hboot hrun h.bounded h.curenv (.pageAlloc rfl) tf hcall (by decide)⟩

/-- A program maps a page 65537 times, takes all other pages, and unmaps the page once,
which frees it. It becomes the page directory of a child; another unmapping frees it
again. `sys_page_alloc` for the child takes it, clears it, and finds no page for a table. -/
theorem failed_alloc_clears_directory : ∃ k0 k : Kernel, Boots pc64 k0 ∧ OneCpuRuns k0 k ∧ k.curenv 0 = some slot0 ∧
    ∀ tf, ∃ k', exec (Args.call ⟨4, 4097, wva 0, pteUWP, 0, 0⟩ 0 slot0) (k.entered 0 slot0 tf) =
      (.ok (BitVec.ofInt 32 (-eNoMem)), k') ∧ ¬ Unchanged (k.entered 0 slot0 tf) k' := by
  obtain ⟨k0, P, k, a, b, hboot, -, hrun, h⟩ := pc64_alone (fun _ => 0#8) .user
  obtain ⟨k1, p, hrun1, hsame1, h1⟩ := Alone.hoard (n := 14806) h
  obtain ⟨k2, hrun2, hsame2, h2, hnone⟩ := h1.exhaust (n := 65537) rfl
  have hlooks2 := h.shows.looks.sameEnvs (hsame1.trans hsame2)
  obtain ⟨k3, hrun3, h3⟩ := h2.orphan hnone hlooks2 rfl rfl rfl
  have honly : k.OnlyCpu0 := h.only
  obtain ⟨hone1, honly1⟩ := hrun1.oneCpu honly
  refine ⟨k0, k3, hboot, ((hrun.oneCpu.trans hone1).trans (hrun2.oneCpu honly1).1).trans hrun3, h3.looks.curenv, fun tf => ?_⟩
  have hid : ((View.first k).fork slot0 slot1).id slot1 = 4097#32 := withChild_id k
  have hresolve := (h3.looks.entered rfl tf : Looks _ (k3.entered 0 slot0 tf)).resolve (fork_child_slot1 k)
  rw [hid] at hresolve
  have hexec : exec (pageAllocAt (p * pgsize) (wva 0) pteUWP) k3.pmap = _ :=
    exec_pageAllocAt_self h3.head h3.fresh h3.lt
  refine ⟨_, exec_pageAlloc_call (a := ⟨4, 4097, wva 0, pteUWP, 0, 0⟩) rfl hresolve (wva_ok (by decide)) pteUWP_ok
    (by rw [entered_pgdir, h3.pgdir]; exact hexec), fun hun => ?_⟩
  -- The entry at `PDX(UVPT)` has been cleared.
  have hdirs : (k3.entered 0 slot0 tf).dirs slot1 = some p := by
    rw [entered_dirs, Kernel.dirs, h3.looks.status, h3.pgdir, Nat.mul_div_cancel _ (by decide)]
    simp [View.fork]
  have hpde := hun.tables.pde (i := slot1) (pdx_lt uvpt)
  rw [pdeOf_some hdirs, pdeOf_some hdirs] at hpde
  have hafter : (k3.pmap.take p).mem.read32 (p * pgsize + 4 * pdx uvpt) = 0#32 := by
    refine (read32_fill_page (pdx_lt uvpt)).trans ?_
    rw [if_pos rfl]
  have hzero : (0#32 : Word) = page2pa p ||| pteP ||| pteU := hafter.symm.trans (hpde.trans h3.self)
  have hpres := congrArg entryPage hzero
  rw [entryPage_zero, entryPage_or (by decide) (entryPage_page2pa h2.lt)] at hpres
  simp at hpres

end Jos
