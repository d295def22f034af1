import Jos.Kern.Family
import Jos.Kern.Refs

/-!
# When a reference count wraps

`pp_ref` has 16 bits, and an address space has room for more mappings of one
page than that. `sys_page_map` does not look: mapping a page that has 65535
references takes its count to zero, and one more mapping and unmapping puts it
on the free list while it is still mapped. Mapping any other page keeps the
counts exact.
-/

namespace Jos

open Lib

/-! ## The memory system calls -/

/-- `sys_page_alloc`, `sys_page_map` or `sys_page_unmap`. -/
inductive Event.PageCall : Event → Prop
  | intro : tf.cs &&& 3 = 3 → tf.trapno = trapSyscall → tf.args.no = 4 ∨ tf.args.no = 5 ∨ tf.args.no = 6 →
      Event.PageCall (.trap c tf cr2)

/-- The page whose `pp_ref` is incremented when the call of `cur` in `a` reaches
the `pp_ref++` of `page_insert`. -/
def Kernel.Inserts (k : Kernel) (cur : EnvPtr) (a : Args) (p : Nat) : Prop :=
  (a.no = 4 ∧ k.pmap.pageFreeList = some p) ∨
    (a.no = 5 ∧ a.a2 < utop ∧ ∃ e, k.resolve cur a.a1 true = some e ∧
      entryPage (k.pte e (pdx a.a2) (ptx a.a2)) = some p)

/-- No page that has all the references a count can tell apart gets one more. -/
def Kernel.Below (k : Kernel) (ev : Event) : Prop :=
  ∀ c tf cr2 cur p, ev = .trap c tf cr2 → k.curenv c = some cur → k.Inserts cur tf.args p → k.references p ≠ 65535

variable {k : Kernel} {P : Platform}

/-- The counts stay exact as long as none is exceeded. -/
theorem KernelOk.bounded_sys (h : KernelOk P k) (hb : k.Bounded) (hcur : k.Live cur) (hs : Sys cur a k k')
    (hno : a.no = 4 ∨ a.no = 5 ∨ a.no = 6) (hlt : ∀ p, k.Inserts cur a p → k.references p ≠ 65535) : k'.Bounded := by
  cases hs with
  | nothing => exact hb
  | pageAlloc _ he hva hperm hs => exact (h.pageAlloc hb (live_resolve hcur he) hva hperm hs).1.bounded
  | pageMap hn hsrc hdst hva hva' hperm hs =>
    have hlsrc := live_resolve hcur hsrc
    obtain rfl | ⟨p, hshared⟩ := h.pageMap hb hlsrc (live_resolve hcur hdst) hva hva' hperm hs
    · exact hb
    · have hne := hlt p (.inr ⟨hn, lt_utop_of_not_badVa hva, _, hsrc, by rw [h.pte_eq hlsrc]; exact hshared.source⟩)
      have hle := hb p
      rw [h.references_eq] at hne
      exact (hshared.inserted.remapped hb).2 (by omega)
  | pageUnmap _ he hva hs =>
    exact fun a => Nat.le_trans ((h.pageUnmap hb (live_resolve hcur he) hva hs).refs_le a) (hb a)
  | envDying hn | envFreed hn | exofork hn | setStatus hn | setTrapframe hn | setUpcall hn | send hn | sendPage hn
  | transmit hn => simp [hn] at hno

theorem KernelOk.bounded_destroyed (h : KernelOk P k) (hb : k.Bounded) (hcur : k.Live cur)
    (hd : Destroyed c cur k k') : k'.Bounded := by
  obtain ⟨w, s, hs, rfl⟩ := hd
  exact .of_steady (h.freeSpace hb hcur hs).1 (freed_dirs k cur s) rfl

theorem entered_inserts : (k.entered c cur tf).Inserts cur' a p ↔ k.Inserts cur' a p := by
  have hpmap : (k.entered c cur tf).pmap = k.pmap := rfl
  unfold Kernel.Inserts Kernel.pte Kernel.pde
  simp only [entered_resolve, entered_pgdir, hpmap]

theorem KernelOk.bounded_ready (h : KernelOk P k) (hb : k.Bounded) (hcur : k.Current c) (hr : Ready c tf k k')
    (hev : (Event.trap c tf cr2).PageCall) (hlt : k.Below (.trap c tf cr2)) : k'.Bounded := by
  obtain ⟨huser, hcall, hno⟩ := hev
  cases hr with
  | woken hn => exact absurd huser hn
  | @reaped cur s _ hc _ hs =>
    exact .of_steady (h.freeSpace hb (hcur _ hc) hs).1 (freed_dirs (k.awake c) cur s) rfl
  | @handled cur _ _ hc _ hh =>
    have hl := hcur _ hc
    have hok : KernelOk P (k.entered c cur tf) := (h.setCpu _ _).setLive hl hl rfl rfl
    have hl' : (k.entered c cur tf).Live cur := by simpa [Kernel.Live, Kernel.entered] using hl
    have hb' : (k.entered c cur tf).Bounded := by
      unfold Kernel.Bounded
      rw [entered_dirs]
      exact hb
    cases hh with
    | ticked _ => exact hb'
    | @syscall k1 r _ hs _ =>
      have hb1 := hok.bounded_sys hb' hl' hs hno fun p hp => by
        rw [hok.references_eq, entered_dirs]
        exact h.references_eq ▸ hlt c tf cr2 cur p rfl hc (entered_inserts.mp hp)
      have hd : (k1.setEax cur r).dirs = k1.dirs := dirs_setEnv_same Iff.rfl rfl
      unfold Kernel.Bounded
      rw [hd]
      exact hb1
    | sleeps _ hs =>
      cases hs with
      | yield _ => exact hb'
      | recv hn _ => simp [hn] at hno
      | destroyed _ _ hd => exact hok.bounded_destroyed hb' hl' hd
    | destroyed _ hd => exact hok.bounded_destroyed hb' hl' hd
    | fault hn =>
      rw [hcall] at hn
      exact absurd hn (by decide)

theorem MachineOk.bounded_step (h : MachineOk P k) (hb : k.Bounded) (hs : Step k ev k') (hev : ev.PageCall)
    (hlt : k.Below ev) : k'.Bounded := by
  cases hs.does with
  | trap hr he _ =>
    have hb1 := h.kernel.bounded_ready hb h.current hr hev hlt
    have hcur := (h.kernel.ready hb h.current hr).2
    obtain ⟨hd, hp⟩ := he.mem hcur
    unfold Kernel.Bounded
    rw [hd, hp]
    exact hb1
  | start _ _ _ | create _ _ | store _ _ _ | stack _ | card => cases hev

theorem Step.single_of_pageCall (hs : Step k ev k') (hc : k.OnlyCpu0) (hev : ev.PageCall) : ev.Single := by
  obtain ⟨huser, -, -⟩ := hev
  cases hs with
  | trap hcan _ _ =>
    obtain ⟨-, e, he⟩ | ⟨hn, -⟩ := hcan
    · intro c' hc'
      by_contra hne
      rw [Option.some.inj hc', hc c' hne] at he
      simp at he
    · exact absurd huser hn

theorem MachineOk.pageCalls (h : MachineOk P k0) (hc : k0.OnlyCpu0) (hb : k0.Bounded)
    (hr : Runs (fun k ev _ => ev.PageCall ∧ k.Below ev) k0 k) : MachineOk P k ∧ k.OnlyCpu0 ∧ k.Bounded :=
  hr.invariant (I := fun k => MachineOk P k ∧ k.OnlyCpu0 ∧ k.Bounded) ⟨h, hc, hb⟩
    fun k ev k' ⟨hok, hcpu, hbd⟩ hs ⟨hev, hlt⟩ => by
      have hsingle := hs.single_of_pageCall hcpu hev
      exact ⟨hok.step hbd hs (hok.undisturbed hbd hcpu hsingle hs), hs.onlyCpu0 hsingle hcpu,
        hok.bounded_step hbd hs hev hlt⟩

theorem KernelOk.inserts_pool (h : KernelOk P k) (hcur : k.Live cur) (hi : k.Inserts cur a p) : P.pool p := by
  obtain ⟨l, hok⟩ := h.mem
  rcases hi with ⟨-, hf⟩ | ⟨-, hva, e, he, hp⟩
  · exact (hok.head_unused hf).1
  · rw [h.pte_eq (live_resolve hcur he)] at hp
    exact hok.page_pool (own_pdx hva) (ptx_lt _) hp

/-- In every state that memory system calls lead to, as long as none of them
mapped a page with 65535 references: the next `pp_ref++` takes a count to zero
exactly if it is made on such a page, and no page on the free list is mapped. -/
theorem pp_ref_wraps_iff (hboot : Boots mach k0) (hrun : SingleRuns k0 k1) (hb : k1.Bounded)
    (hcalls : Runs (fun k ev _ => ev.PageCall ∧ k.Below ev) k1 k) :
    (∀ cur a p, k.curenv 0 = some cur → k.Inserts cur a p →
      ((k.pmap.pages p).ppRef + 1#16 = 0#16 ↔ k.references p = 65535)) ∧
    ∃ l, k.FreeList l ∧ ∀ p x, k.mapped x = some p → p ∉ l := by
  obtain ⟨P, l0, -, -, -, hok0, hcpu0, -⟩ := hboot.machineOk
  obtain ⟨hok1, hcpu1⟩ := hok0.singleRuns hcpu0 hrun
  obtain ⟨hok, -, hbk⟩ := hok1.pageCalls hcpu1 hb hcalls
  obtain ⟨l, hl, -, hsub, hcount⟩ := hok.kernel.counted hbk
  refine ⟨fun cur a p hcur hi => ?_, l, hl, fun p x hx hmem => ?_⟩
  · have href := (hcount p (hok.kernel.inserts_pool (hok.current _ hcur) hi)).1
    rw [← href, ← BitVec.toNat_inj, BitVec.toNat_add]
    have := (k.pmap.pages p).ppRef.isLt
    simp only [BitVec.toNat_ofNat, Nat.zero_mod]
    omega
  · have hzero := ((hcount p (hsub p hmem)).2.mp hmem)
    have hpos : 0 < count k.mapped p := count_pos hx
    unfold Kernel.references at hzero
    omega

theorem pp_ref_wraps_iff_pc64 : ∃ k0 k, Boots pc64 k0 ∧ SingleRuns k0 k ∧ k.curenv 0 = some slot0 ∧
    (∀ cur a p, k.curenv 0 = some cur → k.Inserts cur a p →
      ((k.pmap.pages p).ppRef + 1#16 = 0#16 ↔ k.references p = 65535)) ∧
    ∃ l, k.FreeList l ∧ ∀ p x, k.mapped x = some p → p ∉ l := by
  obtain ⟨k0, P, k, a, b, hboot, -, hrun, halone⟩ := pc64_alone (fun _ => 0#8) .user
  exact ⟨k0, k, hboot, hrun, halone.curenv, pp_ref_wraps_iff hboot hrun halone.bounded .refl⟩

/-! ## A count that wraps -/

/-- The addresses at which the page is mapped again and again. -/
def wva (i : Nat) : Word := pgaddr (64 + i / 1024) (i % 1024) 0

theorem wva_indices (hi : i < 67584) : pdx (wva i) = 64 + i / 1024 ∧ ptx (wva i) = i % 1024 :=
  ⟨pdx_pgaddr (by omega) (by omega), ptx_pgaddr (by omega) (by omega)⟩

theorem pgaddr_ok (ho : Own d) (ht : t < 1024) : ¬ badVa (pgaddr d t 0) := by
  unfold badVa
  rw [not_or, BitVec.not_le, not_not]
  refine ⟨pgaddr_lt_utop ho ht, BitVec.eq_of_toNat_eq ?_⟩
  rw [BitVec.toNat_umod, pgaddr_toNat ho.lt ht]
  change _ % 4096 = 0
  omega

theorem wva_own (hi : i < 67584) : Own (64 + i / 1024) ∧ i % 1024 < 1024 := by
  unfold Own pdxUtop
  omega

theorem wva_ok (hi : i < 67584) : ¬ badVa (wva i) := pgaddr_ok (wva_own hi).1 (wva_own hi).2

def pteUWP : Word := 7#32

/-- The page `p` is mapped at the first `n` addresses and nowhere else. -/
structure Mapping (P : Platform) (k : Kernel) (p n : Nat) : Prop where
  ok : KernelOk P k
  curenv : k.curenv 0 = some slot0
  status : (k.envs slot0).status = .running
  spare : k.pmap.Spare (100 - (n + 1023) / 1024)
  entry : i < n → pteOf k.dirs k.pmap.mem slot0 (64 + i / 1024) (i % 1024) = page2pa p ||| pteUWP ||| pteP
  empty : n ≤ i → i < 67584 → pteOf k.dirs k.pmap.mem slot0 (64 + i / 1024) (i % 1024) = 0#32
  refs : refs k.dirs k.pmap.mem p = n
  lt : p < 65536

theorem pteUWP_ok : ¬ badPerm pteUWP := by decide

theorem entryPage_wva (hp : p < 65536) : entryPage (page2pa p ||| pteUWP ||| pteP) = some p := by
  rw [BitVec.or_assoc, show pteUWP ||| pteP = pteP ||| pteUWP by decide, ← BitVec.or_assoc]
  exact entryPage_or (by decide) (entryPage_page2pa hp)

theorem table_ne_none (h : pteOf dirs m i d t = page2pa p ||| pteUWP ||| pteP) (hp : p < 65536) :
    tableOf dirs m i d ≠ none := by
  obtain ⟨pt, ht⟩ := exists_table ((congrArg entryPage h).trans (entryPage_wva hp))
  rw [ht]
  exact Option.some_ne_none pt

theorem writable_wva (p : Nat) : (page2pa p ||| pteUWP ||| pteP) &&& pteW ≠ 0 := by
  have hsub : Sub (pteW ||| (pteU ||| pteP)) (page2pa p ||| pteUWP ||| pteP) := by
    rw [show pteW ||| (pteU ||| pteP) = pteUWP by decide, BitVec.or_comm (page2pa p), BitVec.or_assoc]
    exact (sub_refl pteUWP).or_right _
  exact and_ne_zero_of_sub hsub (by decide)

theorem entered_self (k : Kernel) (cur : EnvPtr) (tf : Trapframe) :
    (k.entered c cur tf).resolve cur 0 true = some cur ∧ ((k.entered c cur tf).envs cur).pgdir = (k.envs cur).pgdir := by
  refine ⟨if_pos rfl, ?_⟩
  simp [Kernel.entered]

section
variable {cur : EnvPtr} (hc : k.curenv c = some cur) (hr : (k.envs cur).status = .running) (hva : ¬ badVa va)
include hc hr hva

theorem Step.pageAlloc (hperm : ¬ badPerm perm)
    (h : exec (pageAllocAt (k.envs cur).pgdir va perm) k.pmap = (.ok r, s)) :
    ∃ k', Step k (.trap c (callFrame ⟨4, 0, va, perm, 0, 0⟩) cr2) k' ∧ k'.pmap = s ∧ SameEnvs k k' := by
  have hself := entered_self (c := c) k cur (callFrame ⟨4, 0, va, perm, 0, 0⟩)
  exact Step.memory hc hr (exec_pageAlloc_call rfl hself.1 hva hperm (by rw [hself.2]; exact h))

theorem Step.pageMap (hva' : ¬ badVa va') (hperm : ¬ badPerm perm)
    (h : exec (pageMapAt (k.envs cur).pgdir va (k.envs cur).pgdir va' perm) k.pmap = (.ok r, s)) :
    ∃ k', Step k (.trap c (callFrame ⟨5, 0, va, 0, va', perm⟩) cr2) k' ∧ k'.pmap = s ∧ SameEnvs k k' := by
  have hself := entered_self (c := c) k cur (callFrame ⟨5, 0, va, 0, va', perm⟩)
  exact Step.memory hc hr (exec_pageMap_call rfl hself.1 hself.1 hva hva' hperm (by rw [hself.2]; exact h))

theorem Step.pageUnmap (h : exec (pageRemove (k.envs cur).pgdir va) k.pmap = (.ok (), s)) :
    ∃ k', Step k (.trap c (callFrame ⟨6, 0, va, 0, 0, 0⟩) cr2) k' ∧ k'.pmap = s ∧ SameEnvs k k' := by
  have hself := entered_self (c := c) k cur (callFrame ⟨6, 0, va, 0, 0, 0⟩)
  exact Step.memory hc hr (exec_pageUnmap_call rfl hself.1 hva (by rw [hself.2]; exact h))

end

/-- Behind these addresses nothing has changed. -/
def KeepsRest (k k' : Kernel) : Prop :=
  ∀ d t, Own d → t < 1024 → 130 ≤ d → pteOf k'.dirs k'.pmap.mem slot0 d t = pteOf k.dirs k.pmap.mem slot0 d t

theorem Mapping.next (h : Mapping P k p n) (hn : 0 < n) (hlt : n < 67584) :
    ∃ k', Step k (.trap 0 (callFrame ⟨5, 0, wva 0, 0, wva n, pteUWP⟩) 0) k' ∧ SameEnvs k k' ∧
      Mapping P k' p (n + 1) ∧ KeepsRest k k' := by
  have hl := live_of_running h.status
  obtain ⟨q, hq, hpg⟩ := h.ok.dir hl
  obtain ⟨l, hok⟩ := h.ok.mem
  obtain ⟨hd0, ht0⟩ := wva_indices (i := 0) (by decide)
  obtain ⟨hdn, htn⟩ := wva_indices hlt
  have h0 := h.entry hn
  have hpres := entryPage_wva h.lt
  have hempty := h.empty (Nat.le_refl n) hlt
  -- The table is there unless this is its first entry.
  have htab : n % 1024 ≠ 0 → tableOf k.dirs k.pmap.mem slot0 (64 + n / 1024) ≠ none := fun hne hnone => by
    have hlast := h.entry (i := n - 1) (by omega)
    rw [show (n - 1) / 1024 = n / 1024 by omega] at hlast
    exact table_ne_none hlast h.lt hnone
  have hspare : k.pmap.Spare 1 := h.spare.mono (by omega)
  obtain ⟨s', hexec, hins⟩ := pageMapAt_progress hok hq hq (lt_utop_of_not_badVa (wva_ok (i := 0) (by decide)))
    (lt_utop_of_not_badVa (wva_ok hlt)) (userPerm_of_not_badPerm pteUWP_ok) (p := p) (by rw [hd0, ht0, h0]; exact hpres)
    (by rw [hd0, ht0, h0]; exact writable_wva p) (by rw [hdn, htn, hempty]; simp) (fun _ => hspare)
  rw [← hpg] at hexec
  obtain ⟨k', hstep, hpm, hsame⟩ :=
    Step.pageMap h.curenv h.status (wva_ok (by decide)) (wva_ok hlt) pteUWP_ok hexec
  obtain ⟨l', hok', -⟩ := hins.ok
  rw [Finset.erase_empty] at hok'
  have hset : ∀ i, i < 67584 → pteOf k'.dirs k'.pmap.mem slot0 (64 + i / 1024) (i % 1024) =
      if i = n then page2pa p ||| pteUWP ||| pteP
      else pteOf k.dirs k.pmap.mem slot0 (64 + i / 1024) (i % 1024) := fun i hi => by
    rw [hsame.dirs, hpm, hins.pte slot0 _ _ (wva_own hi).1 (wva_own hi).2, hdn, htn]
    have hiff : (64 + i / 1024 = 64 + n / 1024 ∧ i % 1024 = n % 1024) ↔ i = n := by omega
    simp only [true_and, hiff]
  refine ⟨k', hstep, hsame, ⟨hsame.kernelOk h.ok ⟨l', by rw [hpm]; exact hok'⟩, hsame.curenv.trans h.curenv,
    hsame.status.trans h.status, ?_, fun {i} hi => ?_, fun {i} hi hi' => ?_, ?_, h.lt⟩, fun d t ho hk hd => ?_⟩
  · rw [hpm]
    by_cases hne : n % 1024 = 0
    · refine Inserted.spare (n := 100 - (n + 1 + 1023) / 1024) hins (h.spare.mono (by omega))
    · exact (hins.spare_table h.spare (by rw [hdn]; exact htab hne)).mono (by omega)
  · rw [hset i (by omega)]
    by_cases hin : i = n
    · rw [if_pos hin]
    · rw [if_neg hin]
      exact h.entry (by omega)
  · rw [hset i hi', if_neg (by omega)]
    exact h.empty (by omega) hi'
  · have hr := hins.refs_pp
    rw [hdn, htn, hempty, entryPage_zero, if_neg (by simp), h.refs, Nat.add_zero] at hr
    rw [hsame.dirs, hpm]
    exact hr
  · rw [hsame.dirs, hpm, hins.pte slot0 d t ho hk, if_neg (by rw [hdn]; omega)]

def PageRuns : Kernel → Kernel → Prop := Runs fun _ ev _ => ev.PageCall

theorem pageCall_frame {a : Args} (h : a.no = 4 ∨ a.no = 5 ∨ a.no = 6) :
    (Event.trap c (callFrame a) cr2).PageCall := .intro (callFrame_user a) rfl h

theorem Mapping.run (h : Mapping P k p 1) (hn : n < 67584) :
    ∃ k', PageRuns k k' ∧ SameEnvs k k' ∧ Mapping P k' p (n + 1) ∧ KeepsRest k k' := by
  induction n with
  | zero => exact ⟨k, .refl, .refl k, h, fun _ _ _ _ _ => rfl⟩
  | succ n ih =>
    obtain ⟨k1, hrun, hsame, h1, hkeep⟩ := ih (by omega)
    obtain ⟨k2, hstep, hsame', h2, hkeep'⟩ := h1.next (Nat.succ_pos n) hn
    exact ⟨k2, hrun.tail ⟨_, hstep, pageCall_frame (.inr (.inl rfl))⟩, hsame.trans hsame', h2,
      fun d t ho hk hd => (hkeep' d t ho hk hd).trans (hkeep d t ho hk hd)⟩

theorem Shows.mapping (h : Shows P (n + 101) v k) (hcur : v.curenv 0 = some slot0) (hrun : v.status slot0 = .running)
    (hempty : ∀ d t, Own d → t < 1024 → 64 ≤ d → d < 130 → pteOf k.dirs k.pmap.mem slot0 d t = 0#32) :
    ∃ k' p, Step k (.trap 0 (callFrame ⟨4, 0, wva 0, pteUWP, 0, 0⟩) 0) k' ∧ SameEnvs k k' ∧ Mapping P k' p 1 ∧
      KeepsRest k k' := by
  have hok := h.kernel
  have hc : k.curenv 0 = some slot0 := h.looks.curenv.trans hcur
  have hst : (k.envs slot0).status = .running := h.looks.status.trans hrun
  have hl : k.Live slot0 := by simp [Kernel.Live, hst]
  obtain ⟨q, hq, hpg⟩ := hok.dir hl
  obtain ⟨hd0, ht0⟩ := wva_indices (i := 0) (by decide)
  obtain ⟨p, s', hexec, hfill, hone⟩ := pageAllocAt_progress (hok.steady h.bounded) hq
    (lt_utop_of_not_badVa (wva_ok (i := 0) (by decide))) (userPerm_of_not_badPerm pteUWP_ok) (n := n + 99) h.spare
  rw [← hpg] at hexec
  obtain ⟨k', hstep, hpm, hsame⟩ := Step.pageAlloc hc hst (wva_ok (by decide)) pteUWP_ok hexec
  have hset : ∀ i, i < 67584 → pteOf k'.dirs k'.pmap.mem slot0 (64 + i / 1024) (i % 1024) =
      if i = 0 then page2pa p ||| pteUWP ||| pteP else 0#32 := fun i hi => by
    obtain ⟨ho, hk⟩ := wva_own hi
    have hzero := hempty _ _ ho hk (by omega) (by omega)
    rw [hsame.dirs, hpm, hfill.pte slot0 _ _ ho hk, hd0, ht0, hzero]
    have hiff : (64 + i / 1024 = 64 + 0 / 1024 ∧ i % 1024 = 0 % 1024) ↔ i = 0 := by omega
    simp only [true_and, hiff]
  obtain ⟨l', hok'⟩ := hfill.steady.ok
  refine ⟨k', p, hstep, hsame, ⟨hsame.kernelOk hok ⟨l', by rw [hpm]; exact hok'⟩, hsame.curenv.trans hc,
    hsame.status.trans hst, ?_, fun {i} hi => ?_, fun {i} hi hi' => ?_, ?_, hfill.lt⟩, fun d t ho hk hd => ?_⟩
  · rw [hpm]
    exact hfill.spare.mono (by omega)
  · rw [hset i (by omega), if_pos (by omega)]
  · rw [hset i hi', if_neg (by omega)]
  · rw [hsame.dirs, hpm]
    exact hone
  · rw [hsame.dirs, hpm, hfill.pte slot0 d t ho hk, if_neg (by rw [hd0]; omega)]

theorem Mapping.uses_eq (h : Mapping P k p n) :
    uses (target k.dirs k.pmap.mem : Ref EnvPtr Own → Option Nat) [] p = n := by
  rw [uses, List.count_nil, Nat.add_zero]
  exact h.refs

theorem Mapping.ppRef (h : Mapping P k p n) (hn : 0 < n) :
    (k.pmap.pages p).ppRef = BitVec.ofNat 16 n ∧ P.pool p := by
  obtain ⟨l, hok⟩ := h.ok.mem
  have hpool : P.pool p := hok.page_pool (wva_own (i := 0) (by decide)).1 (wva_own (i := 0) (by decide)).2
    ((congrArg entryPage (h.entry hn)).trans (entryPage_wva h.lt))
  refine ⟨?_, hpool⟩
  have href := hok.counted.ref_eq hpool
  rw [h.uses_eq] at href
  exact href

theorem Alone.mapping (h : Alone P k type (n + 101) a b) :
    ∃ k' p, Step k (.trap 0 (callFrame ⟨4, 0, wva 0, pteUWP, 0, 0⟩) 0) k' ∧ SameEnvs k k' ∧ Mapping P k' p 1 ∧
      KeepsRest k k' :=
  h.shows.mapping rfl rfl fun d t ho hk h1 h2 => by
    rw [h.loaded.pte ho hk, if_neg (by omega), if_neg (by omega)]

/-- With a count that has wrapped to one, unmapping frees the page. -/
theorem Mapping.unmap (h : Mapping P k p 65537) :
    ∃ k', Step k (.trap 0 (callFrame ⟨6, 0, wva 0, 0, 0, 0⟩) 0) k' ∧ SameEnvs k k' ∧ k'.pmap.pageFreeList = some p ∧
      translate k'.pmap.mem (k'.envs slot0).pgdir (wva 1) = some (p, pteUWP) ∧
      k'.pmap.layout = k.pmap.layout ∧ ∀ a, a / pgsize = p → k'.pmap.mem a = k.pmap.mem a := by
  have hl := live_of_running h.status
  obtain ⟨q, hq, hpg⟩ := h.ok.dir hl
  obtain ⟨l, hok⟩ := h.ok.mem
  obtain ⟨hd0, ht0⟩ := wva_indices (i := 0) (by decide)
  obtain ⟨hd1, ht1⟩ := wva_indices (i := 1) (by decide)
  obtain ⟨href, hpool⟩ := h.ppRef (by decide)
  have ho := (wva_own (i := 0) (by decide)).1
  have hp0 : entryPage (pteOf k.dirs k.pmap.mem slot0 (pdx (wva 0)) (ptx (wva 0))) = some p := by
    rw [hd0, ht0, h.entry (by decide)]
    exact entryPage_wva h.lt
  have hp1 : entryPage (pteOf k.dirs k.pmap.mem slot0 (pdx (wva 1)) (ptx (wva 1))) = some p := by
    rw [hd1, ht1, h.entry (by decide)]
    exact entryPage_wva h.lt
  obtain ⟨pt, ht⟩ := exists_table hp0
  rw [hd0] at ht
  have hpt := hok.table_pool ho ht
  have huses : uses (target k.dirs k.pmap.mem : Ref EnvPtr Own → Option Nat) [] p ≠ 0 := by
    rw [h.uses_eq]
    decide
  have hlast : k.pmap.ref p - 1#16 = 0#16 := by
    change (k.pmap.pages p).ppRef - 1#16 = 0#16
    rw [href]
    decide
  have htab : entryPage (k.pmap.mem.read32 ((k.envs slot0).pgdir + 4 * pdx (wva 0))) = some pt := by
    rw [hpg, pde_read hq, hd0]
    exact ht
  have hpage : entryPage (k.pmap.mem.read32 (pt * pgsize + 4 * ptx (wva 0))) = some p := by
    rw [← hd0] at ht
    rw [pte_read ht]
    exact hp0
  have hexec := exec_pageRemove_mapped htab (hok.pool_lt hpt) hpage (hok.pool_lt hpool) hok.uninit_ne (Nat.pos_iff_ne_zero.mp (P.pool_pos hpt))
    fun hs => hs.2 (hok.counted.unlinked hpool (hok.counted.not_free_of_uses huses))
  obtain ⟨k', hstep, hpm, hsame⟩ := Step.pageUnmap h.curenv h.status (wva_ok (by decide)) hexec
  refine ⟨k', hstep, hsame, ?_, ?_, ?_, fun a ha => ?_⟩
  · rw [hpm]
    unfold Pmap.drop
    rw [if_pos hlast]
    rfl
  · have ho1 : Own (pdx (wva 1)) := by
      rw [hd1]
      exact (wva_own (i := 1) (by decide)).1
    obtain ⟨pt1, ht1', -, hflags⟩ := (translate_eq_some hq).mp (hok.translate_own hq ho1 hp1)
    -- The entry that is cleared is another one of the same table.
    have hpde := pdeOf_storePte (w := 0#32) (j := slot0) hok.sep.tabSep ht ho ho.lt (ptx_lt (wva 0)) ho1.lt
    have hpte := hok.pteSet_clear ht ho (ptx_lt (wva 0)) slot0 (pdx (wva 1)) (ptx (wva 1)) ho1 (ptx_lt (wva 1))
    rw [if_neg (by rw [ht0, ht1]; omega)] at hpte
    rw [hsame.pgdir, hpg, hpm]
    refine (translate_eq_some hq).mpr ⟨pt1, ?_, ?_, ?_⟩
    · rw [tableOf, hpde]
      exact ht1'
    · rw [hpte]
      exact hp1
    · rw [hpde, hpte, ← hflags, hd1, ht1, h.entry (by decide), and_or_mask, and_or_mask, mask_page2pa]
      decide
  · rw [hpm]
    exact Pmap.drop_layout
  · rw [hpm]
    refine write32_page_of_ne (ptx_lt (wva 0)) fun hpt' => ?_
    -- A table is not a page that is mapped.
    rw [ha] at hpt'
    rw [hd0, ht0] at hp0
    exact hok.mapped_not_table ho (wva_own (i := 0) (by decide)).2 hp0 (.pde slot0 ⟨⟨_, ho.lt⟩, ho⟩) trivial
      (hpt' ▸ ht)

/-- A program maps a page of its own 65535 times, and then once more: the count
goes from 65535 to zero. Another mapping and an unmapping later the page is the
next one `page_alloc` hands out, and the program can still write it. -/
theorem pp_ref_wraps : ∃ k0 k1 k k' k'' ev p, Boots pc64 k0 ∧ SingleRuns k0 k1 ∧ PageRuns k1 k ∧
    Step k ev k' ∧ ev.PageCall ∧ PageRuns k' k'' ∧
    (k.pmap.pages p).ppRef = 65535#16 ∧ (k'.pmap.pages p).ppRef = 0#16 ∧ k'.references p = 65536 ∧
    k''.pmap.pageFreeList = some p ∧
    translate k''.pmap.mem (k''.envs slot0).pgdir (wva 1) = some (p, pteUWP) := by
  obtain ⟨k0, P, k1, a, b, hboot, -, hrun, halone⟩ := pc64_alone (fun _ => 0#8) .user
  obtain ⟨k2, p, hs2, -, h2, -⟩ := Alone.mapping (n := 14806) halone
  obtain ⟨k3, hrun3, -, h3, -⟩ := h2.run (n := 65534) (by decide)
  obtain ⟨k4, hs4, -, h4, -⟩ := h3.next (by decide) (by decide)
  obtain ⟨k5, hs5, -, h5, -⟩ := h4.next (by decide) (by decide)
  obtain ⟨k6, hs6, -, hfree, htr, -⟩ := h5.unmap
  have hmap : ∀ {a : Args}, a.no = 5 → (Event.trap 0 (callFrame a) 0).PageCall := fun h =>
    pageCall_frame (.inr (.inl h))
  have hrun6 : PageRuns k4 k6 :=
    (Relation.ReflTransGen.single ⟨_, hs5, hmap rfl⟩).tail ⟨_, hs6, pageCall_frame (.inr (.inr rfl))⟩
  refine ⟨k0, k1, k3, k4, k6, _, p, hboot, hrun, ?_, hs4, hmap rfl, hrun6, (h3.ppRef (by decide)).1,
    (h4.ppRef (by decide)).1, ?_, hfree, htr⟩
  · exact (Relation.ReflTransGen.single ⟨_, hs2, pageCall_frame (.inl rfl)⟩).trans hrun3
  · rw [h4.ok.references_eq]
    exact h4.refs

end Jos
