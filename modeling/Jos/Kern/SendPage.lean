import Jos.Kern.RefWrap

/-!
# Sending a page

Which pages `sys_ipc_try_send` passes on to a receiver that waits for one. The
test of the rights asks for `PTE_W` in the permissions of every page, so that
a page cannot be sent without the right to write it.
-/

namespace Jos

open Lib

section
variable {k : Kernel} {P : Platform}

/-- The page at `srcva` in `cur` may be mapped in `e` with `perm`. -/
structure Sendable (k : Kernel) (cur e : EnvPtr) (srcva perm : Word) : Prop where
  present : perm &&& (pteU ||| pteP) = pteU ||| pteP
  allowed : perm &&& ~~~pteSyscall = 0
  mapped : entryPage (pteOf k.dirs k.pmap.mem cur (pdx srcva) (ptx srcva)) ≠ none
  rights : perm &&& pteW ≠ 0 → pteOf k.dirs k.pmap.mem cur (pdx srcva) (ptx srcva) &&& pteW ≠ 0
  table : HasTable k.dirs k.pmap e (k.envs e).ipcDstva

/-- `sys_ipc_try_send` returns 0, and the page at `srcva` is mapped where `e` wants it. -/
def SendsPage (k : Kernel) (cur e : EnvPtr) (envid value srcva perm : Word) : Prop :=
  ∃ k' p, exec (sysIpcTrySend cur envid value srcva perm) k = (.ok 0, k') ∧
    entryPage (pteOf k.dirs k.pmap.mem cur (pdx srcva) (ptx srcva)) = some p ∧
    pteOf k'.dirs k'.pmap.mem e (pdx (k.envs e).ipcDstva) (ptx (k.envs e).ipcDstva) = page2pa p ||| perm

theorem not_badPerm_iff : ¬ badPerm perm ↔ perm &&& (pteU ||| pteP) = pteU ||| pteP ∧ perm &&& ~~~pteSyscall = 0 := by
  have hbits : perm &&& (pteU ||| pteP) = pteU ||| pteP ↔ perm &&& pteU = pteU ∧ perm &&& pteP = pteP := by
    refine ⟨fun h => ⟨?_, ?_⟩, fun ⟨hu, hp⟩ => ?_⟩
    · have := congrArg (· &&& pteU) h
      simpa [BitVec.and_assoc, show (pteU ||| pteP) &&& pteU = pteU by decide] using this
    · have := congrArg (· &&& pteP) h
      simpa [BitVec.and_assoc, show (pteU ||| pteP) &&& pteP = pteP by decide] using this
    · rw [BitVec.and_or_distrib_left, hu, hp]
  rw [hbits, badPerm]
  push Not
  exact and_assoc.symm

theorem sendable_entered : Sendable (k.entered c cur' tf) cur e srcva perm ↔ Sendable k cur e srcva perm := by
  have hdst : ((k.entered c cur' tf).envs e).ipcDstva = (k.envs e).ipcDstva :=
    setEnv_field (k := k.awake c) Env.ipcDstva (by rfl)
  have hmem : (k.entered c cur' tf).pmap = k.pmap := rfl
  constructor
  · rintro ⟨h1, h2, h3, h4, h5⟩
    rw [entered_dirs, hmem] at h3 h4 h5
    rw [hdst] at h5
    exact ⟨h1, h2, h3, h4, h5⟩
  · rintro ⟨h1, h2, h3, h4, h5⟩
    rw [← hdst] at h5
    rw [← (entered_dirs : (k.entered c cur' tf).dirs = k.dirs), ← hmem] at h3 h4 h5
    exact ⟨h1, h2, h3, h4, h5⟩

theorem delivered_dirs (hl : k.Live e) : ((k.withPmap s).delivered cur e value perm).dirs = k.dirs :=
  dirs_setEnv_same (k := k.withPmap s) (iff_of_false nofun hl) rfl

/-! ## What the call does -/

theorem exec_sendPage (he : k.resolve cur envid false = some e) (hr : (k.envs e).ipcRecving = true)
    (hdst : (k.envs e).ipcDstva < utop) (hsrc : srcva < utop) (halign : srcva % 4096 = 0) (hperm : ¬ badPerm perm) :
    exec (ipcPageAt (k.envs cur).pgdir srcva (k.envs e).pgdir (k.envs e).ipcDstva perm) k.pmap = (.ok r, s) →
    exec (sysIpcTrySend cur envid value srcva perm) k =
      match r with
      | none => (.ok 0, (k.withPmap s).delivered cur e value perm)
      | some code => (.ok code, k.withPmap s) := by
  intro hs
  unfold sysIpcTrySend
  rw [exec_bind_ok exec_envid2env]
  simp only [he]
  rw [exec_bind_ok (exec_get _)]
  simp only [hr, hdst, hsrc, halign, Bool.true_eq_false, ne_eq, not_true_eq_false, and_false, and_self, if_true, if_false]
  rw [if_neg hperm, exec_bind_ok (exec_envPgdir cur), exec_bind_ok (exec_envPgdir e), exec_bind_ok (exec_liftPmap_ok hs)]
  cases r <;> rfl

/-- A page is passed on if the contract allows it and the receiver may write it. -/
theorem KernelOk.sendsPage_iff (h : KernelOk P k) (hb : k.Bounded) (hcur : k.Live cur)
    (he : k.resolve cur envid false = some e) (hr : (k.envs e).ipcRecving = true)
    (hdst : (k.envs e).ipcDstva < utop) (hsrc : srcva < utop) (halign : srcva % 4096 = 0) (value : Word) :
    SendsPage k cur e envid value srcva perm ↔ Sendable k cur e srcva perm ∧ perm &&& pteW ≠ 0 := by
  have hl := live_resolve hcur he
  by_cases hperm : badPerm perm
  · refine iff_of_false ?_ fun ⟨hs, _⟩ => not_badPerm_iff.mpr ⟨hs.present, hs.allowed⟩ hperm
    rintro ⟨k', p, hexec, -⟩
    have hsend : Sends cur ⟨12, envid, value, srcva, perm, 0⟩ k 0 k' := (sysIpcTrySend_sends (c := 0)).ok hexec
    cases hsend with
    | refused _ hlt => exact absurd hlt (by decide)
    | value he' _ hnot =>
      obtain rfl := Option.some.inj (he.symm.trans he')
      exact hnot ⟨hdst, hsrc⟩
    | page _ _ _ _ hok _ => exact hok hperm
  · obtain ⟨hpres, hallow⟩ := not_badPerm_iff.mp hperm
    obtain ⟨r, s, hexec, hres⟩ := (h.ipcPageAt hb hcur hl hsrc hdst hperm).returns
    have hcall : exec (sysIpcTrySend cur envid value srcva perm) k = _ :=
      exec_sendPage he hr hdst hsrc halign hperm hexec
    obtain ⟨rfl, hpass, p, hsh⟩ | ⟨hne, hnot⟩ := hres
    · refine iff_of_true ⟨_, p, hcall, hsh.source, ?_⟩
        ⟨⟨hpres, hallow, hpass.mapped, fun _ => hpass.held, hpass.table⟩, hpass.asked⟩
      have hkeep : perm ||| pteP = perm := by
        have hpp := (not_or.mp (not_or.mp hperm).2).1
        rw [not_not] at hpp
        calc perm ||| pteP = perm ||| perm &&& pteP := by rw [hpp]
          _ = perm := by
            ext i hi
            simp +contextual
      rw [delivered_dirs hl]
      refine (hsh.inserted.pte e _ _ (own_pdx hdst) (ptx_lt _)).trans ?_
      rw [if_pos ⟨rfl, rfl, rfl⟩, BitVec.or_assoc, hkeep]
    · cases r with
      | none => exact absurd rfl hne
      | some code =>
        refine iff_of_false ?_ fun ⟨hs, hw⟩ => hnot ⟨hs.mapped, hw, hs.rights hw, hs.table⟩
        rintro ⟨k', p, hexec', -⟩
        have hcode := ((ipcPageAt_fails ..).ok hexec code rfl).2.2
        rw [hcall] at hexec'
        obtain rfl := Except.ok.inj (Prod.mk.inj hexec').1
        exact absurd hcode (by decide)

end

section
variable {k0 k : Kernel} {mach : Machine} (hboot : Boots mach k0) (hrun : LiveRuns k0 k) (hb : k.Bounded)
  (hcur : k.Live cur) (he : k.resolve cur envid false = some e) (hr : (k.envs e).ipcRecving = true)
  (hdst : (k.envs e).ipcDstva < utop) (hsrc : srcva < utop) (halign : srcva % 4096 = 0)
include hboot hrun hb hcur he hr hdst hsrc halign

theorem LiveRuns.sendsPage_iff (c : Nat) (tf : Trapframe) (value perm : Word) :
    SendsPage (k.entered c cur tf) cur e envid value srcva perm ↔ Sendable k cur e srcva perm ∧ perm &&& pteW ≠ 0 := by
  obtain ⟨P, -, -, -, -, hok, -, -⟩ := hboot.machineOk
  have hk : KernelOk P (k.entered c cur tf) := (hok.kernel.liveRuns hrun).entered hcur
  have hr' : ((k.entered c cur tf).envs e).ipcRecving = true :=
    (setEnv_field (k := k.awake c) Env.ipcRecving (by rfl)).trans hr
  have hdst' : ((k.entered c cur tf).envs e).ipcDstva = (k.envs e).ipcDstva :=
    setEnv_field (k := k.awake c) Env.ipcDstva (by rfl)
  rw [hk.sendsPage_iff (entered_bounded hb) (entered_live.mpr hcur) (entered_resolve.trans he) hr' (hdst' ▸ hdst)
    hsrc halign value, sendable_entered]

/-- The call keeps to its contract just if the page is not to be sent without `PTE_W`. -/
theorem ipc_page_contract_iff (c : Nat) (tf : Trapframe) (value perm : Word) :
    (SendsPage (k.entered c cur tf) cur e envid value srcva perm ↔ Sendable k cur e srcva perm) ↔
      (Sendable k cur e srcva perm → perm &&& pteW ≠ 0) := by
  rw [LiveRuns.sendsPage_iff hboot hrun hb hcur he hr hdst hsrc halign]
  exact and_iff_left_iff_imp

end

/-! ## A parent that waits for a page of its child -/

/-- The parent waits for a page at `wva 0`, where the child that runs has one mapped with `perm`. -/
structure Offers (k : Kernel) (perm : Word) (p : Nat) : Prop where
  bounded : k.Bounded
  live : k.Live slot1
  receiver : k.resolve slot1 4096 false = some slot0
  recving : (k.envs slot0).ipcRecving = true
  dstva : (k.envs slot0).ipcDstva = wva 0
  pte : pteOf k.dirs k.pmap.mem slot1 (pdx (wva 0)) (ptx (wva 0)) = page2pa p ||| perm ||| pteP
  lt : p < 65536
  free : k.pmap.pageFreeList ≠ none

theorem Shows.give {v : View} {k : Kernel} (h : Shows P (n + 2) v k) (hc : v.curenv 0 = some cur)
    (hr : v.status cur = .running) (hchild : v.Child cur e) (hva : ¬ badVa va) (hperm : ¬ badPerm perm) :
    ∃ k' p, Step k (.trap 0 (callFrame ⟨4, v.id e, va, perm, 0, 0⟩) 0) k' ∧ Shows P n v k' ∧ p < 65536 ∧
      pteOf k'.dirs k'.pmap.mem e (pdx va) (ptx va) = page2pa p ||| perm ||| pteP := by
  have hl : k.Live e := h.looks.live hchild.2.1
  obtain ⟨q, hq, hpg⟩ := h.kernel.dir hl
  obtain ⟨p, s, hexec, hfill, -⟩ := pageAllocAt_progress (h.kernel.steady h.bounded) hq (lt_utop_of_not_badVa hva)
    (userPerm_of_not_badPerm hperm) h.spare
  rw [← hpg] at hexec
  have hcall : exec (Args.call ⟨4, v.id e, va, perm, 0, 0⟩ 0 cur) (k.entered 0 cur (callFrame ⟨4, v.id e, va, perm, 0, 0⟩)) =
      (.ok (BitVec.ofInt 32 0), (k.entered 0 cur (callFrame ⟨4, v.id e, va, perm, 0, 0⟩)).withPmap s) :=
    exec_pageAlloc_call rfl ((h.looks.entered hc _).resolve hchild) hva hperm (by rw [entered_pgdir]; exact hexec)
  obtain ⟨k', hstep, hpm, hsame⟩ := Step.memory (h.looks.curenv.trans hc) (h.looks.status.trans hr) hcall
  obtain ⟨l, hok⟩ := hfill.steady.ok
  refine ⟨k', p, hstep, ⟨h.looks.sameEnvs hsame, hsame.kernelOk h.kernel ⟨l, by rw [hpm]; exact hok⟩,
    .of_steady hfill.steady hsame.dirs hpm, by rw [hpm]; exact hfill.spare⟩, hfill.lt, ?_⟩
  rw [hsame.dirs, hpm, hfill.pte e _ _ (own_pdx (lt_utop_of_not_badVa hva)) (ptx_lt va), if_pos ⟨rfl, rfl, rfl⟩]

theorem pc64_offers (hperm : ¬ badPerm perm) :
    ∃ (k0 k : Kernel) (p : Nat), Boots pc64 k0 ∧ LiveRuns k0 k ∧ Offers k perm p := by
  obtain ⟨k0, P, k, a, b, hboot, -, hrun, h⟩ := pc64_alone (fun _ => 0#8) .user
  obtain ⟨P0, -, -, -, -, hok0, honly0, -⟩ := hboot.machineOk
  obtain ⟨k1, hs1, h1, -⟩ := h.shows.fork (c := 0) rfl rfl rfl (by decide)
  obtain ⟨k2, hs2, h2, -⟩ := h1.setStatus (c := 0) rfl rfl (fork_child_slot1 k) statusOf_two
  obtain ⟨k3, p, hs3, h3, hlt, hpte⟩ := Shows.give (v := View.withChild k) h2 (n := 14904) rfl rfl (withChild_child k)
    (wva_ok (i := 0) (by decide)) hperm
  have hva : ¬ (wva 0 < utop ∧ wva 0 % 4096 ≠ 0) := fun hbad => wva_ok (i := 0) (by decide) (.inr hbad.2)
  obtain ⟨k4, hs4, h4, hkeep, hdst⟩ := h3.recvAt (c := 0) rfl (by simp [withChild_parent]) (by simp [withChild_parent])
    (withChild_finds k (Nat.le_refl 1)) hva
  have hsingle : ∀ {tf cr2}, (Event.trap 0 tf cr2).Single := fun c hc => (Option.some.inj hc).symm
  have hruns : SingleRuns k0 k4 := (((hrun.tail ⟨_, hs1, h.bounded, hsingle⟩).tail ⟨_, hs2, h1.bounded, hsingle⟩).tail
    ⟨_, hs3, h2.bounded, hsingle⟩).tail ⟨_, hs4, h3.bounded, hsingle⟩
  refine ⟨k0, k4, p, hboot, hok0.liveRuns honly0 hruns, h4.bounded, ?_, ?_, ?_, hdst, ?_, hlt, ?_⟩
  · rw [Kernel.Live, h4.looks.status]
    simp [View.run]
  · have hst : (k4.envs slot0).status = .notRunnable := by
      rw [h4.looks.status]
      simp [View.run, View.block, show slot0 ≠ slot1 by decide]
    have hid : (k4.envs slot0).id = 4096#32 := by
      rw [h4.looks.id]
      simp [View.run, View.block, View.setStatus, View.withChild, View.fork, View.first, show slot0 ≠ slot1 by decide]
    have hx : envx 4096 = slot0 := by decide
    unfold Kernel.resolve
    rw [if_neg (by decide), hx, if_neg, if_neg]
    · simp
    · simp [hst, hid]
  · rw [h4.looks.recving]
    simp [View.run, View.setStatus, View.block]
  · rw [hkeep.pte ?_ (own_pdx (lt_utop_of_not_badVa (wva_ok (i := 0) (by decide)))) (ptx_lt _), hpte]
    rw [Kernel.Live, h3.looks.status]
    simp [View.withChild]
  · obtain ⟨p', hp', -⟩ := h4.spare.unlink
    simp [hp']

/-- The child sends the page on with the right to write it. -/
theorem ipc_page_contract_pc64 : ∃ (k0 k : Kernel) (p : Nat), Boots pc64 k0 ∧ LiveRuns k0 k ∧ Offers k pteUWP p ∧
    ∀ tf, SendsPage (k.entered 0 slot1 tf) slot1 slot0 4096 7 (wva 0) pteUWP := by
  obtain ⟨k0, k, p, hboot, hrun, h⟩ := pc64_offers pteUWP_ok
  refine ⟨k0, k, p, hboot, hrun, h, fun tf => ?_⟩
  have hva : ¬ badVa (wva 0) := wva_ok (by decide)
  have hiff := ipc_page_contract_iff hboot hrun h.bounded h.live h.receiver h.recving
    (h.dstva ▸ lt_utop_of_not_badVa hva) (lt_utop_of_not_badVa hva) (not_not.mp (not_or.mp hva).2) 0 tf 7 pteUWP
  refine (hiff.mpr fun _ => by decide).mpr ⟨by decide, by decide, ?_, fun _ => ?_, .inr h.free⟩
  · simp [h.pte, entryPage_wva h.lt]
  · rw [h.pte]
    exact writable_wva p

/-- A page that is only to be read is refused, though the child holds and offers no more than that. -/
theorem read_only_page_refused : ∃ (k0 k : Kernel) (p : Nat), Boots pc64 k0 ∧ LiveRuns k0 k ∧
    Offers k (pteU ||| pteP) p ∧ Sendable k slot1 slot0 (wva 0) (pteU ||| pteP) ∧
    ∀ tf, ¬ SendsPage (k.entered 0 slot1 tf) slot1 slot0 4096 7 (wva 0) (pteU ||| pteP) := by
  obtain ⟨k0, k, p, hboot, hrun, h⟩ := pc64_offers (by decide : ¬ badPerm (pteU ||| pteP))
  have hva : ¬ badVa (wva 0) := wva_ok (by decide)
  have hpage : entryPage (page2pa p ||| (pteU ||| pteP) ||| pteP) = some p := by
    rw [BitVec.or_assoc, show (pteU ||| pteP) ||| pteP = pteP ||| pteU by decide, ← BitVec.or_assoc]
    exact entryPage_or (by decide) (entryPage_page2pa h.lt)
  have hsend : Sendable k slot1 slot0 (wva 0) (pteU ||| pteP) :=
    ⟨by decide, by decide, by simp [h.pte, hpage], fun hw => absurd (by decide) hw, .inr h.free⟩
  refine ⟨k0, k, p, hboot, hrun, h, hsend, fun tf hs => ?_⟩
  have hiff := LiveRuns.sendsPage_iff hboot hrun h.bounded h.live h.receiver h.recving
    (h.dstva ▸ lt_utop_of_not_badVa hva) (lt_utop_of_not_badVa hva) (not_not.mp (not_or.mp hva).2) 0 tf 7 (pteU ||| pteP)
  exact (hiff.mp hs).2 (by decide)

end Jos
