import Jos.Kern.Family
import Jos.Kern.Refs

/-!
# Rights to write

A page becomes writable for user mode when it is taken from the free list, or
when an environment that may write it passes it on. So a page that nobody may
write stays so until it has been free. And every mapping below `UTOP` is one
that a system call may ask for.
-/

namespace Jos

open Lib

/-! ## Writable mappings -/

section
variable {ι : Type} {dirs dirs' : ι → Option Nat}

def WritesTo (dirs : ι → Option Nat) (m : Mem) (p : Nat) : Prop :=
  ∃ i d t, Own d ∧ t < 1024 ∧ entryPage (pteOf dirs m i d t) = some p ∧ pteOf dirs m i d t &&& pteW ≠ 0#32

theorem WritesTo.of_entries (h : WritesTo dirs' m' p)
    (he : ∀ i d t, Own d → t < 1024 → entryPage (pteOf dirs' m' i d t) = some p →
      pteOf dirs' m' i d t = pteOf dirs m i d t) : WritesTo dirs m p := by
  obtain ⟨i, d, t, ho, hk, hp, hw⟩ := h
  have hpte := he i d t ho hk hp
  rw [hpte] at hp hw
  exact ⟨i, d, t, ho, hk, hp, hw⟩

theorem WritesTo.of_dirs (h : WritesTo dirs' m p) (hd : dirs' = dirs) : WritesTo dirs m p := hd ▸ h

theorem WritesTo.of_same (h : WritesTo dirs m' p) (hs : SameTables dirs m m') : WritesTo dirs m p :=
  h.of_entries fun _ _ _ ho hk _ => hs.pte ho hk

end

theorem pteW_pack (perm : Word) (h : (page2pa pp ||| perm ||| pteP) &&& pteW ≠ 0#32) : perm &&& pteW ≠ 0#32 := by
  have hpage : page2pa pp &&& pteW = 0#32 := by
    rw [show pteW = 0xFFF#32 &&& pteW by decide, ← BitVec.and_assoc, mask_page2pa]
    decide
  rw [and_or_mask, and_or_mask, hpage, show pteP &&& pteW = 0#32 by decide] at h
  simpa using h

section
variable {ι : Type} [DecidableEq ι] {dirs : ι → Option Nat}

theorem WritesTo.of_gone (h : WritesTo (Function.update dirs i none) m' p) (ht : Touches dirs i m m') :
    WritesTo dirs m p := by
  refine h.of_entries fun j d t ho hk hp => ?_
  by_cases hj : j = i
  · subst hj
    rw [pteOf_none (tableOf_none (Function.update_self ..)), entryPage_zero] at hp
    simp at hp
  · rw [pteOf_dirs (Function.update_of_ne hj ..), (ht.keeps hj).pte ho hk]

end

section
variable {ι : Type} [Fintype ι] [DecidableEq ι] {P : Platform} {dirs : ι → Option Nat} {s s' : Pmap}

theorem WritesTo.of_new (h : WritesTo (Function.update dirs i (some q)) s'.mem p) (hn : NewSpace P dirs i q s s')
    (hok : MemOk P dirs [] ∅ l s) : WritesTo dirs s.mem p := by
  refine h.of_entries fun j d t ho hk hp => ?_
  by_cases hj : j = i
  · subst hj
    have ht : tableOf (Function.update dirs j (some q)) s'.mem j d = none := by
      rw [tableOf, hn.empty ho, entryPage_zero]
    rw [pteOf_none ht, entryPage_zero] at hp
    simp at hp
  · rw [pteOf_dirs (Function.update_of_ne hj ..), ((hn.touches hok).keeps hj).pte ho hk]

omit [DecidableEq ι] in
theorem WritesTo.of_removed (h : WritesTo dirs s'.mem p) (hr : Removed P dirs held i va s s') :
    WritesTo dirs s.mem p := by
  refine h.of_entries fun j d t ho hk hp => hr.others j d t ho hk ?_
  rintro ⟨rfl, rfl, rfl⟩
  rw [hr.unmapped] at hp
  simp at hp

omit [Fintype ι] in
theorem WritesTo.of_supplied (h : WritesTo dirs s'.mem p) (hs : Supplied dirs i va pp perm s s')
    (hpp : pp < 65536) (hperm : IsPerm perm) (hne : pp ≠ p) : WritesTo dirs s.mem p := by
  refine h.of_entries fun j d t ho hk hp => ?_
  rw [hs.pte j d t ho hk] at hp ⊢
  split
  · rename_i hx
    rw [if_pos hx, entryPage_pack hpp hperm] at hp
    exact absurd (Option.some.inj hp) hne
  · rfl

theorem WritesTo.of_shared (h : WritesTo dirs s'.mem p) (hs : Shared P dirs i srcva j dstva perm pp s s')
    (hpp : pp < 65536) (hperm : IsPerm perm) (hva : srcva < utop) : WritesTo dirs s.mem p := by
  obtain ⟨i', d, t, ho, hk, hp, hw⟩ := h
  have hpte := hs.inserted.pte i' d t ho hk
  rw [hpte] at hp hw
  split at hp
  · rename_i hx
    rw [if_pos hx] at hw
    rw [entryPage_pack hpp hperm] at hp
    obtain rfl := Option.some.inj hp
    exact ⟨i, pdx srcva, ptx srcva, own_pdx hva, ptx_lt srcva, hs.source, hs.rights (pteW_pack perm hw)⟩
  · rename_i hx
    rw [if_neg hx] at hw
    exact ⟨i', d, t, ho, hk, hp, hw⟩

omit [DecidableEq ι] in
theorem MemOk.page_lt (h : MemOk P dirs pend held l s) (hp : P.pool p) : p < 65536 :=
  Nat.lt_of_lt_of_le (h.pool_lt hp) s.layout.npages_le

end

/-! ## One step -/

variable {k : Kernel} {P : Platform}

theorem dirs_setLive (hl : k.Live e) (hs : env.status ≠ .free) (hp : env.pgdir = (k.envs e).pgdir) :
    (k.setEnv e env).dirs = k.dirs :=
  dirs_setEnv_same (iff_of_false hs hl) hp

section
variable (h : KernelOk P k) (hb : k.Bounded)
include h hb

theorem Sys.writesTo (hcur : k.Live cur) (hs : Sys cur a k k') (hfree : ∀ l, k.FreeList l → p ∉ l)
    (hw : WritesTo k'.dirs k'.pmap.mem p) : WritesTo k.dirs k.pmap.mem p := by
  obtain ⟨l, hok⟩ := h.mem
  cases hs with
  | nothing => exact hw
  | envDying _ he _ _ => exact hw.of_dirs (dirs_setLive (live_resolve hcur he) (by simp) rfl)
  | envFreed _ he _ _ hs =>
    rw [freed_dirs] at hw
    exact hw.of_gone (h.freeSpace hb (live_resolve hcur he) hs).2
  | pageAlloc _ he hva hperm hs =>
    obtain ⟨-, -, hsame | ⟨pp, hsup⟩⟩ := h.pageAlloc hb (live_resolve hcur he) hva hperm hs
    · exact hw.of_same hsame
    · have hpp := hsup.free l hok.counted.chain
      exact hw.of_supplied hsup (hok.page_lt (hok.counted.free_iff.mp hpp).1)
        (userPerm_of_not_badPerm hperm).isPerm fun heq => hfree l hok.counted.chain (heq ▸ hpp)
  | pageMap _ hsrc hdst hva hva' hperm hs =>
    obtain rfl | ⟨pp, hshared⟩ := h.pageMap hb (live_resolve hcur hsrc) (live_resolve hcur hdst) hva hva' hperm hs
    · exact hw
    · have hlt := lt_utop_of_not_badVa hva
      exact hw.of_shared hshared (hok.page_lt (hok.page_pool (own_pdx hlt) (ptx_lt _) hshared.source))
        (userPerm_of_not_badPerm hperm).isPerm hlt
  | pageUnmap _ he hva hs => exact hw.of_removed (h.pageUnmap hb (live_resolve hcur he) hva hs)
  | exofork _ hf hs =>
    obtain ⟨q, rfl, hnew⟩ := h.setupVm hb hf hs
    rw [forked_dirs] at hw
    exact hw.of_new hnew hok
  | setStatus _ he hst => exact hw.of_dirs (dirs_setLive (live_resolve hcur he) (statusOf_ne_free hst) rfl)
  | setTrapframe _ he _ | setUpcall _ he => exact hw.of_dirs (dirs_setEnv_same Iff.rfl rfl)
  | send _ he _ _ => exact hw.of_dirs (dirs_setLive (live_resolve hcur he) (by simp) rfl)
  | @sendPage e s _ he _ hdst hva hperm hs =>
    have hl := live_resolve hcur he
    obtain ⟨pp, hshared⟩ := h.sentPage hb hcur hl hva hdst hperm hs
    have hlt := lt_utop_of_not_badVa hva
    have hw1 : WritesTo k.dirs s.mem p :=
      hw.of_dirs (dirs_setLive (k := k.withPmap s) hl (by simp) rfl)
    exact hw1.of_shared hshared (hok.page_lt (hok.page_pool (own_pdx hlt) (ptx_lt _) hshared.source))
      (userPerm_of_not_badPerm hperm).isPerm hlt
  | transmit _ => exact hw

theorem Destroyed.writesTo (hcur : k.Live cur) (hd : Destroyed c cur k k')
    (hw : WritesTo k'.dirs k'.pmap.mem p) : WritesTo k.dirs k.pmap.mem p := by
  obtain ⟨w, s, hs, rfl⟩ := hd
  have hw1 : WritesTo (Function.update k.dirs cur none) s.mem p := hw.of_dirs (freed_dirs k cur s)
  exact hw1.of_gone (h.freeSpace hb hcur hs).2

theorem Handles.writesTo (hcur : k.Live cur) (hh : Handles c cur tf k k') (hfree : ∀ l, k.FreeList l → p ∉ l)
    (hw : WritesTo k'.dirs k'.pmap.mem p) : WritesTo k.dirs k.pmap.mem p := by
  cases hh with
  | ticked _ => exact hw
  | @syscall k1 _ _ hs _ =>
    have hw1 : WritesTo k1.dirs k1.pmap.mem p := hw.of_dirs (dirs_setEnv_same Iff.rfl rfl)
    exact hs.writesTo h hb hcur hfree hw1
  | sleeps _ hs =>
    cases hs with
    | yield _ => exact hw
    | recv _ _ => exact hw.of_dirs (dirs_setLive hcur (by simp) rfl)
    | destroyed _ _ hd => exact hd.writesTo h hb hcur hw
  | destroyed _ hd => exact hd.writesTo h hb hcur hw
  | @fault _ _ _ s _ _ hs =>
    obtain ⟨q, hq, hp⟩ := h.dir hcur
    rw [hp] at hs
    obtain ⟨l, hok⟩ := h.mem
    have hw1 : WritesTo k.dirs s.mem p := hw.of_dirs (dirs_setEnv_same (k := k.withPmap s) Iff.rfl rfl)
    exact hw1.of_same ((vstoreWords_ok hok hq ..).ok hs).2

theorem Ready.writesTo (hcur : k.Current c) (hr : Ready c tf k k') (hfree : ∀ l, k.FreeList l → p ∉ l)
    (hw : WritesTo k'.dirs k'.pmap.mem p) : WritesTo k.dirs k.pmap.mem p := by
  cases hr with
  | woken _ => exact hw
  | @reaped cur s _ hc _ hs =>
    have hw1 : WritesTo (Function.update k.dirs cur none) s.mem p := hw.of_dirs (freed_dirs (k.awake c) cur s)
    exact hw1.of_gone (h.freeSpace hb (hcur _ hc) hs).2
  | @handled cur _ _ hc _ hh =>
    have hl := hcur _ hc
    have hw1 := hh.writesTo (h.entered hl) (entered_bounded hb) (entered_live.mpr hl) hfree hw
    exact hw1.of_dirs entered_dirs

/-- A program is loaded into fresh pages by the kernel itself, before it runs. -/
def Event.Loads : Event → Prop
  | .create _ _ => True
  | _ => False

/-- A step makes no page writable that is neither free nor writable. -/
theorem Step.writesTo (hs : Step k ev k') (hlive : ev.ByLive k) (hev : ¬ ev.Loads)
    (hfree : ∀ l, k.FreeList l → p ∉ l) (hw : WritesTo k'.dirs k'.pmap.mem p) :
    WritesTo k.dirs k.pmap.mem p := by
  cases hs.does with
  | start hnone he _ =>
    obtain ⟨hd, hm⟩ := he.mem (current_none (awake_curenv.trans hnone))
    rw [hd, hm] at hw
    exact hw
  | @trap c _ _ _ _ _ hr he _ =>
    obtain ⟨hd, hm⟩ := he.mem (h.ready hb (hlive c rfl) hr).2
    rw [hd, hm] at hw
    exact hr.writesTo h hb (hlive c rfl) hfree hw
  | create _ _ => exact absurd trivial hev
  | @store c e va p' f b hc ht hwr =>
    obtain ⟨q, hq, hp⟩ := h.dir (hlive c rfl _ hc)
    rw [hp] at ht hwr
    obtain ⟨l, hok⟩ := h.mem
    obtain ⟨p', f', ht', ho, hpte⟩ := hok.userStore hq hwr
    obtain ⟨rfl, rfl⟩ := Prod.mk.inj (Option.some.inj (ht.symm.trans ht'))
    exact hw.of_same (hok.storeMapped ho (ptx_lt va) hpte (physical_page _ va) b).2
  | stack _ => exact hw
  | card => exact hw

end

/-! ## Every run -/

def Kernel.Writable (k : Kernel) (p : Nat) : Prop :=
  ∃ e d t, k.Live e ∧ Own d ∧ t < 1024 ∧ entryPage (k.pte e d t) = some p ∧ k.pte e d t &&& pteW ≠ 0#32

theorem KernelOk.writable_iff (h : KernelOk P k) : k.Writable p ↔ WritesTo k.dirs k.pmap.mem p := by
  constructor
  · rintro ⟨e, d, t, hl, ho, hk, hp, hw⟩
    rw [h.pte_eq hl] at hp hw
    exact ⟨e, d, t, ho, hk, hp, hw⟩
  · rintro ⟨e, d, t, ho, hk, hp, hw⟩
    have hl : k.Live e := by
      by_contra hn
      rw [pteOf_none (tableOf_none (dirs_free hn)), entryPage_zero] at hp
      simp at hp
    rw [← h.pte_eq hl] at hp hw
    exact ⟨e, d, t, hl, ho, hk, hp, hw⟩

/-- The runs in which environments make system calls and `p` never was on `page_free_list`. -/
def RunsInUse (p : Nat) : Kernel → Kernel → Prop :=
  Runs fun k ev _ => k.Bounded ∧ ev.ByLive k ∧ ¬ ev.Loads ∧ ∀ l, k.FreeList l → p ∉ l

theorem KernelOk.notWritable (h : KernelOk P k) (hw : ¬ k.Writable p) (hr : RunsInUse p k k') : ¬ k'.Writable p := by
  refine (Runs.invariant (I := fun k => KernelOk P k ∧ ¬ k.Writable p) hr ⟨h, hw⟩ ?_).2
  rintro k ev k' ⟨hok, hw⟩ hs ⟨hb, hlive, hev, hfree⟩
  have hok' := (hok.step hb hs hlive).1
  refine ⟨hok', fun hw' => hw ?_⟩
  rw [hok.writable_iff]
  exact hs.writesTo hok hb hlive hev hfree (hok'.writable_iff.mp hw')

/-- The right to write a page is never made up, and no mapping has rights that no
system call may ask for. -/
theorem write_never_amplified (hboot : Boots mach k0) (hrun : LiveRuns k0 k) :
    (∀ e d t, k.Live e → Own d → t < 1024 → k.pte e d t &&& pteP = pteP →
      k.pte e d t &&& pteU = pteU ∧ Sub (k.pte e d t &&& 0xFFF#32) pteSyscall) ∧
    ∀ p k', ¬ k.Writable p → RunsInUse p k k' → ¬ k'.Writable p := by
  obtain ⟨P, -, -, -, -, hok0, -, -⟩ := hboot.machineOk
  have h := hok0.kernel.liveRuns hrun
  refine ⟨fun e d t hl ho hk hp => ?_, fun p k' hw hr => h.notWritable hw hr⟩
  obtain ⟨l, hok⟩ := h.mem
  rw [h.pte_eq hl] at hp ⊢
  obtain ⟨hu, hsub⟩ := hok.user ho hk hp
  refine ⟨?_, hsub⟩
  rwa [BitVec.and_assoc, show 0xFFF#32 &&& pteU = pteU by decide] at hu

/-- Nobody may write a page directory, and a child changes nothing about that. -/
theorem write_never_amplified_pc64 : ∃ (k0 k k' : Kernel) (q : Nat), Boots pc64 k0 ∧ LiveRuns k0 k ∧
    (k.envs slot0).pgdir = q * pgsize ∧ RunsInUse q k k' ∧ k'.Live slot1 ∧ ¬ k'.Writable q := by
  obtain ⟨k0, P, k, a, b, hboot, -, hrun, h⟩ := pc64_alone (fun _ => 0#8) .user
  obtain ⟨P0, -, -, -, -, hok0, honly, -⟩ := hboot.machineOk
  have hruns := hok0.liveRuns honly hrun
  have hl := live_of_running h.status
  obtain ⟨q, hq, hpg⟩ := h.machine.kernel.dir hl
  obtain ⟨l, hok⟩ := h.machine.kernel.mem
  obtain ⟨k1, hs1, h1, -⟩ := h.shows.fork (c := 0) rfl rfl rfl (by decide)
  have hnot : ¬ k.Writable q := by
    rw [h.machine.kernel.writable_iff]
    rintro ⟨e, d, t, ho, hk, hp, -⟩
    exact hok.mapped_not_table ho hk hp (.dir slot0) trivial hq
  have hfree : ∀ l, k.FreeList l → q ∉ l := by
    intro l' hl'
    rw [hl'.unique hok.counted.chain]
    exact hok.counted.not_free_of_target (r := (.dir slot0 : Ref EnvPtr Own)) hq
  have huse : RunsInUse q k k1 :=
    .single ⟨_, hs1, h.bounded, fun _ _ => h.machine.current, fun hx => hx, hfree⟩
  have hl1 : k1.Live slot1 := h1.looks.live (by simp [View.fork])
  exact ⟨k0, k, k1, q, hboot, hruns, hpg, huse, hl1, (write_never_amplified hboot hruns).2 q k1 hnot huse⟩

end Jos
