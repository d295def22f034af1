import Jos.Kern.FirstProgram

/-!
# Reference counts

In every state the machine reaches, `pp_ref` of an allocatable page is the
number of its uses, and the free list holds exactly the pages without any.
-/

namespace Jos

open Lib

def Kernel.pde (k : Kernel) (e : EnvPtr) (d : Nat) : Word := k.pmap.mem.read32 ((k.envs e).pgdir + 4 * d)

def Kernel.pte (k : Kernel) (e : EnvPtr) (d t : Nat) : Word :=
  match entryPage (k.pde e d) with
  | none => 0#32
  | some pt => k.pmap.mem.read32 (pt * pgsize + 4 * t)

/-- The page that a table entry of a live environment below `UTOP` maps. -/
def Kernel.mapped (k : Kernel) (x : EnvPtr × Slot Own × Fin 1024) : Option Nat :=
  if (k.envs x.1).status = .free then none else entryPage (k.pte x.1 x.2.1 x.2.2)

/-- The table that a directory entry of a live environment below `UTOP` uses. -/
def Kernel.tabled (k : Kernel) (x : EnvPtr × Slot Own) : Option Nat :=
  if (k.envs x.1).status = .free then none else entryPage (k.pde x.1 x.2)

def Kernel.IsDirectory (k : Kernel) (p : Nat) : Prop := ∃ e, (k.envs e).status ≠ .free ∧ (k.envs e).pgdir = p * pgsize

instance (k : Kernel) : DecidablePred k.IsDirectory := fun p =>
  inferInstanceAs (Decidable (∃ e : EnvPtr, (k.envs e).status ≠ .free ∧ (k.envs e).pgdir = p * pgsize))

def Kernel.references (k : Kernel) (p : Nat) : Nat :=
  count k.mapped p + count k.tabled p + if k.IsDirectory p then 1 else 0

section
variable {k : Kernel} {P : Platform}

section
variable {dirs : EnvPtr → Option Nat} (hq : dirs e = some q) (hp : (k.envs e).pgdir = q * pgsize)
include hq hp

theorem pde_of_dirs (d : Nat) : k.pde e d = pdeOf dirs k.pmap.mem e d := by
  rw [Kernel.pde, hp, pdeOf_some hq]

theorem pte_of_dirs (d t : Nat) : k.pte e d t = pteOf dirs k.pmap.mem e d t := by
  cases ht : entryPage (pdeOf dirs k.pmap.mem e d) with
  | none => simp [Kernel.pte, pteOf, tableOf, pde_of_dirs hq hp, ht]
  | some pt => simp [Kernel.pte, pteOf, tableOf, pde_of_dirs hq hp, ht]

end

section
variable (h : KernelOk P k)
include h

theorem KernelOk.pde_eq (hl : k.Live e) (d : Nat) : k.pde e d = pdeOf k.dirs k.pmap.mem e d := by
  obtain ⟨q, hq, hp⟩ := h.dir hl
  exact pde_of_dirs hq hp d

theorem KernelOk.pte_eq (hl : k.Live e) (d t : Nat) : k.pte e d t = pteOf k.dirs k.pmap.mem e d t := by
  obtain ⟨q, hq, hp⟩ := h.dir hl
  exact pte_of_dirs hq hp d t

theorem KernelOk.mapped_eq (e : EnvPtr) (d : Slot Own) (t : Fin 1024) :
    k.mapped (e, d, t) = target k.dirs k.pmap.mem (.pte e d t : Ref EnvPtr Own) := by
  by_cases hl : k.Live e
  · rw [Kernel.mapped, if_neg hl, h.pte_eq hl]
    rfl
  · rw [Kernel.mapped, if_pos (not_not.mp hl)]
    exact ((congrArg entryPage (pteOf_none (tableOf_none (dirs_free hl)))).trans entryPage_zero).symm

theorem KernelOk.tabled_eq (e : EnvPtr) (d : Slot Own) :
    k.tabled (e, d) = target k.dirs k.pmap.mem (.pde e d : Ref EnvPtr Own) := by
  by_cases hl : k.Live e
  · rw [Kernel.tabled, if_neg hl, h.pde_eq hl]
    rfl
  · rw [Kernel.tabled, if_pos (not_not.mp hl)]
    exact (tableOf_none (dirs_free hl)).symm

theorem KernelOk.isDirectory_iff : k.IsDirectory p ↔ ∃ e, k.dirs e = some p := by
  constructor
  · rintro ⟨e, hl, hp⟩
    obtain ⟨q, hq, hp'⟩ := h.dir hl
    rw [hp'] at hp
    exact ⟨e, hq.trans (congrArg some (Nat.mul_right_cancel (by decide) hp))⟩
  · rintro ⟨e, he⟩
    have hl : k.Live e := fun hf => by simp [Kernel.dirs, hf] at he
    obtain ⟨q, hq, hp⟩ := h.dir hl
    obtain rfl := Option.some.inj (hq.symm.trans he)
    exact ⟨e, hl, hp⟩

theorem KernelOk.count_dirs : count k.dirs p = if k.IsDirectory p then 1 else 0 := by
  obtain ⟨l, hok⟩ := h.mem
  by_cases hd : k.IsDirectory p
  · obtain ⟨e, he⟩ := h.isDirectory_iff.mp hd
    rw [if_pos hd]
    exact count_eq_one he fun j hj => hok.sep.tabSep.dir_inj he hj
  · rw [if_neg hd, count_eq_zero]
    exact fun e he => hd (h.isDirectory_iff.mpr ⟨e, he⟩)

theorem KernelOk.references_eq : k.references p = refs k.dirs k.pmap.mem p := by
  have hm : count k.mapped p =
      count (fun x : EnvPtr × Slot Own × Fin 1024 => target k.dirs k.pmap.mem (.inr (.inr x) : Ref EnvPtr Own)) p :=
    congrArg (count · p) (funext fun ⟨e, d, t⟩ => h.mapped_eq e d t)
  have ht : count k.tabled p =
      count (fun x : EnvPtr × Slot Own => target k.dirs k.pmap.mem (.inr (.inl x) : Ref EnvPtr Own)) p :=
    congrArg (count · p) (funext fun ⟨e, d⟩ => h.tabled_eq e d)
  have hd : count (fun e => target k.dirs k.pmap.mem (.inl e : Ref EnvPtr Own)) p = count k.dirs p := rfl
  rw [refs, count_sum, count_sum, hd, h.count_dirs, ← hm, ← ht, Kernel.references]
  omega

theorem KernelOk.counted (hb : k.Bounded) : ∃ l, k.FreeList l ∧ l.Nodup ∧ (∀ p ∈ l, P.pool p) ∧
      ∀ p, P.pool p → (k.pmap.pages p).ppRef.toNat = k.references p ∧ (p ∈ l ↔ k.references p = 0) := by
  obtain ⟨l, hok⟩ := h.mem
  have hc := hok.counted
  have huses : ∀ p, uses (target k.dirs k.pmap.mem : Ref EnvPtr Own → Option Nat) [] p = k.references p := fun p => by
    rw [h.references_eq, uses, refs, List.count_nil, Nat.add_zero]
  refine ⟨l, hc.chain, hc.chain.nodup, fun p hp => (hc.free_iff.mp hp).1, fun p hp => ⟨?_, ?_⟩⟩
  · have href : (k.pmap.pages p).ppRef = BitVec.ofNat 16 (k.references p) := by
      rw [← huses]
      exact hc.ref_eq hp
    have hle : k.references p ≤ 65535 := by
      rw [h.references_eq]
      exact hb p
    rw [href, BitVec.toNat_ofNat, Nat.mod_eq_of_lt (by omega)]
  · rw [hc.free_iff, huses]
    simp [hp]

end

end

/-- In every state a machine with one CPU reaches, as long as no page has more
than 65535 references: the free list is finite and lists no page twice, and of
the pages that `mem_init` left to the allocator each has its number of uses in
`pp_ref` and is on the list exactly if it has none. -/
theorem refcounts_exact (hboot : Boots mach k0) (hrun : SingleRuns k0 k) (hb : k.Bounded) :
    ∃ l0 l, k0.FreeList l0 ∧ k.FreeList l ∧ l.Nodup ∧ (∀ p ∈ l, p ∈ l0) ∧
      ∀ p ∈ l0, (k.pmap.pages p).ppRef.toNat = k.references p ∧ (p ∈ l ↔ k.references p = 0) := by
  obtain ⟨P, l0, -, hl0, hpool, hok, hcpu, -⟩ := hboot.machineOk
  obtain ⟨hok', -⟩ := hok.singleRuns hcpu hrun
  obtain ⟨l, hl, hnodup, hsub, hcount⟩ := hok'.kernel.counted hb
  exact ⟨l0, l, hl0, hl, hnodup, fun p hp => (hpool p).mp (hsub p hp), fun p hp => hcount p ((hpool p).mpr hp)⟩

theorem refcounts_exact_pc64 : ∃ k0 k l0 l, Boots pc64 k0 ∧ SingleRuns k0 k ∧ k.curenv 0 = some slot0 ∧
    k0.FreeList l0 ∧ k.FreeList l ∧ l.Nodup ∧ (∀ p ∈ l, p ∈ l0) ∧
    ∀ p ∈ l0, (k.pmap.pages p).ppRef.toNat = k.references p ∧ (p ∈ l ↔ k.references p = 0) := by
  obtain ⟨k0, P, k, a, b, hboot, -, hrun, halone⟩ := pc64_alone (fun _ => 0#8) .user
  obtain ⟨l0, l, h⟩ := refcounts_exact hboot hrun halone.bounded
  exact ⟨k0, k, l0, l, hboot, hrun, halone.curenv, h⟩

/-- Freeing the last environment succeeds, and all pages are free again. -/
theorem no_page_leaks (hboot : Boots mach k0) (hrun : LiveRuns k0 k) (hb : k.Bounded) (hlast : ∀ x, k.Live x ↔ x = e) :
    ∃ k' l0 l, exec (envFree e) k = (.ok (), k') ∧ k0.FreeList l0 ∧ k'.FreeList l ∧ l.Perm l0 := by
  obtain ⟨P, l0, -, hl0, hpool, hok0, -⟩ := hboot.machineOk
  have h := hok0.kernel.liveRuns hrun
  obtain ⟨q, hq, hp⟩ := h.dir ((hlast e).mpr rfl)
  obtain ⟨_, s, hs, hst, -⟩ := (envFreeSpace_ok (h.steady hb) hq).returns
  rw [← hp] at hs
  obtain ⟨l, hm⟩ := hst.ok
  have hdirs : Function.update k.dirs e none = fun _ => none := funext fun x => by
    by_cases hx : x = e <;> simp [hx, dirs_free, hlast]
  rw [hdirs] at hm
  have hc := hm.counted
  refine ⟨k.freed e s, l0, l, ?_, hl0, hc.chain, (List.perm_ext_iff_of_nodup hc.chain.nodup hl0.nodup).mpr fun p => ?_⟩
  · rw [envFree, exec_bind_ok (exec_get _), exec_bind_ok (exec_liftPmap_ok hs)]
    rfl
  · rw [hc.free_iff, ← hpool]
    simp [uses, count_eq_zero, target_noDirs]

theorem no_page_leaks_pc64 : ∃ k0 k, Boots pc64 k0 ∧ LiveRuns k0 k ∧ k.Live slot0 ∧ ∃ k' l0 l,
    exec (envFree slot0) k = (.ok (), k') ∧ k0.FreeList l0 ∧ k'.FreeList l ∧ l.Perm l0 := by
  obtain ⟨k0, P, k, a, b, hboot, hrun, h⟩ := pc64_live
  have hl := live_of_running h.status
  exact ⟨k0, k, hboot, hrun, hl, no_page_leaks hboot hrun h.bounded fun x =>
    ⟨fun hx => of_not_not fun hne => hx (h.others hne), fun hx => hx ▸ hl⟩⟩

end Jos
