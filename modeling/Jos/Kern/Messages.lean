import Jos.Kern.Ipc

/-!
# Sending and receiving

A message reaches only an environment that is blocked until it comes, and every
message is received once, as long as `sys_env_set_status` leaves alone those who
wait and those another CPU runs. A family of four environments on two CPUs
shows both, and what happens otherwise.
-/

namespace Jos

open Lib

/-! ## Parent and children -/

section
variable {ok : Kernel → Event → Kernel → Prop} {k : Kernel} {a : Args}

theorem Logged.call (h : Logged ok b k0 l k) (hs : Step k (.trap c (callFrame a) cr2) k')
    (hok : ok k (.trap c (callFrame a) cr2) k') (hl : k.Live b) (h12 : a.no ≠ 12) (h13 : a.no ≠ 13) :
    Logged ok b k0 l k' := by
  refine h.step hs hok (.none hl ?_ ?_)
  · rintro ⟨a', ⟨-, -, -, -, rfl⟩, hno, -⟩
    exact h13 hno
  · rintro m ⟨cur, a', ⟨-, -, -, -, rfl⟩, hno, -⟩
    exact h12 hno

theorem cautious_call (h3 : a.no ≠ 3) (h8 : a.no ≠ 8) : Cautious k (.trap c (callFrame a) cr2) k' :=
  ⟨fun _ _ _ _ _ _ => ⟨fun h => absurd h h3, fun h => absurd h h8⟩, fun _ _ _ h => absurd h h8⟩

section
variable (h : Looks v k) (hc : v.curenv c = some cur) (hchild : v.Child cur e)
include h hc hchild

theorem Looks.sparesWaiting (hr : v.recving e = false) (st : Word) :
    (Event.trap c (callFrame ⟨8, v.id e, st, 0, 0, 0⟩) 0).SparesWaiting k := by
  intro _ x hx _ _ e' he'
  have hent := h.entered hc (callFrame ⟨8, v.id e, st, 0, 0, 0⟩)
  obtain rfl := Option.some.inj ((h.curenv.trans hc).symm.trans hx)
  obtain rfl := Option.some.inj ((hent.resolve hchild).symm.trans he')
  exact hent.recving.trans hr

theorem Looks.sparesRunning (hother : ∀ c', c' ≠ c → v.curenv c' ≠ some e) (st : Word) :
    (Event.trap c (callFrame ⟨8, v.id e, st, 0, 0, 0⟩) 0).SparesRunning k := by
  intro _ x hx e' hel he'
  have hent := h.entered hc (callFrame ⟨8, v.id e, st, 0, 0, 0⟩)
  obtain rfl := Option.some.inj ((h.curenv.trans hc).symm.trans hx)
  obtain rfl := Option.some.inj ((hent.resolve hchild).symm.trans he')
  obtain ⟨c', hne, hc'⟩ := hel
  exact absurd (hent.curenv.symm.trans hc') (hother c' hne)

end

def View.another (v : View) (e : EnvPtr) : View := (v.fork slot0 e).setStatus e .runnable

theorem Shows.another (h : Shows P (n + 1) v k) (hlog : Logged Cautious b k0 l k) (hl : v.status b ≠ .free)
    (hc : v.curenv 0 = some slot0) (hr : v.status slot0 = .running) (hf : v.free = e :: free) (hne : e ≠ slot0)
    (hchild : (v.fork slot0 e).Child slot0 e) (hother : ∀ c, v.curenv c ≠ some e) (hb : b ≠ e) :
    ∃ k', Logged Cautious b k0 l k' ∧ Shows P n (v.another e) k' := by
  obtain ⟨k1, hs1, h1, -⟩ := h.fork hc hr hf hne
  have hc1 : (v.fork slot0 e).curenv 0 = some slot0 := hc
  have hr1 : (v.fork slot0 e).status slot0 = .running := by
    simpa [View.fork, Function.update_of_ne hne.symm] using hr
  obtain ⟨k2, hs2, h2, -⟩ := h1.setStatus hc1 hr1 hchild statusOf_two
  have hl0 : k.Live b := h.looks.live hl
  have hl1 : k1.Live b := h1.looks.live (by simpa [View.fork, Function.update_of_ne hb] using hl)
  have hlog1 := hlog.call hs1 (cautious_call (by decide) (by decide)) hl0 (by decide) (by decide)
  have hspares : Cautious k1 (.trap 0 (callFrame ⟨8, (v.fork slot0 e).id e, 2, 0, 0, 0⟩) 0) k2 :=
    ⟨h1.looks.sparesRunning hc1 hchild (fun c _ => hother c) 2,
      h1.looks.sparesWaiting hc1 hchild (by simp [View.fork]) 2⟩
  have h8 : (8 : Word) ≠ 12 ∧ (8 : Word) ≠ 13 := by decide
  exact ⟨k2, hlog1.call hs2 hspares hl1 h8.1 h8.2, h2⟩

/-- The first program on CPU 0, a child on CPU 1, and two more that are ready. -/
def View.crew (k : Kernel) : View := (((View.withChild k).run 1 slot1).another slot2).another slot3

theorem pc64_crew : ∃ (k0 : Kernel) (P : Platform) (k k' : Kernel), Boots pc64 k0 ∧
    Logged Cautious slot1 k0 [] k' ∧ Shows P 14904 (View.crew k) k' := by
  obtain ⟨k0, P, k, k1, k2, k3, hboot, ⟨hrun, honly, hnot⟩, ⟨hs1, honly1, h1⟩, ⟨hs2, h2⟩, hs3, h3⟩ := pc64_forks
  have hstart : Runs Cautious k0 k := hrun.mono fun k ev k' _ _ ht => by
    cases ev with
    | trap c tf cr2 => exact absurd trivial ht
    | _ => exact ⟨trivial, trivial⟩
  obtain ⟨l, hlog⟩ := hstart.logged slot1
  have hlog1 : Logged Cautious slot1 k0 [] k1 :=
    hlog.step hs1 (cautious_call (by decide) (by decide)) (.fresh hnot)
  have hl1 : k1.Live slot1 := h1.looks.live (by simp [View.fork])
  have hl2 : k2.Live slot1 := h2.looks.live (by simp [View.withChild])
  have hid : ((View.first k).fork slot0 slot1).id slot1 = 4097#32 := withChild_id k
  have hspares : Cautious k1 (.trap 0 (callFrame ⟨8, 4097, 2, 0, 0, 0⟩) 0) k2 := by
    have hc : ((View.first k).fork slot0 slot1).curenv 0 = some slot0 := rfl
    have hwait := h1.looks.sparesWaiting (c := 0) hc (fork_child_slot1 k) (by simp [View.fork]) 2
    have hrun := h1.looks.sparesRunning (c := 0) hc (fork_child_slot1 k)
      (fun c hc => by simp [View.fork, View.first, hc]) 2
    rw [hid] at hwait hrun
    exact ⟨hrun, hwait⟩
  have h8 : (8 : Word) ≠ 12 ∧ (8 : Word) ≠ 13 := by decide
  have hlog2 := hlog1.call hs2 hspares hl1 h8.1 h8.2
  have hlog3 : Logged Cautious slot1 k0 [] k3 := by
    refine hlog2.step hs3 ⟨trivial, trivial⟩ (.none hl2 ?_ ?_)
    · rintro ⟨_, hcall, -⟩
      exact hcall.elim
    · rintro _ ⟨_, _, hcall, -⟩
      exact hcall.elim
  have hcur3 : ∀ e c, e ≠ slot0 → e ≠ slot1 → ((View.withChild k).run 1 slot1).curenv c ≠ some e := by
    intro e c h0 h1 hc
    by_cases hc1 : c = 1
    · subst hc1
      simp only [View.run, Function.update_self, Option.some.injEq] at hc
      exact h1 hc.symm
    · simp only [View.run, Function.update_of_ne hc1, View.withChild, View.setStatus_curenv, View.fork, View.first] at hc
      split at hc
      · exact h0 (Option.some.inj hc).symm
      · simp at hc
  have hid3 : ∀ e, e ≠ slot0 → e ≠ slot1 → ((View.withChild k).run 1 slot1).id e = 0#32 := by
    intro e h0 h1
    simp [View.run, View.setStatus, View.withChild, View.fork, View.first, h0, h1]
  have hid4 : (((View.withChild k).run 1 slot1).another slot2).id slot3 = 0#32 := by
    simpa [View.another, View.setStatus, View.fork, show slot3 ≠ slot2 by decide] using
      hid3 slot3 (by decide) (by decide)
  have hstatus4 : ∀ e, e ≠ slot2 →
      (((View.withChild k).run 1 slot1).another slot2).status e = ((View.withChild k).run 1 slot1).status e := by
    intro e he
    simp [View.another, View.fork, Function.update_of_ne he]
  obtain ⟨k4, hlog4, h4⟩ := h3.another hlog3 (by simp [View.run]) rfl rfl rfl (by decide)
    (View.fork_child (by decide) (by rw [hid3 _ (by decide) (by decide)]; decide)
      (by rw [hid3 _ (by decide) (by decide)]; decide))
    (fun c => hcur3 slot2 c (by decide) (by decide)) (by decide)
  obtain ⟨k5, hlog5, h5⟩ := h4.another hlog4 (by rw [hstatus4 _ (by decide)]; simp [View.run]) rfl
    (by rw [hstatus4 _ (by decide)]; rfl) rfl (by decide)
    (View.fork_child (by decide) (by rw [hid4]; decide) (by rw [hid4]; decide))
    (fun c => hcur3 slot3 c (by decide) (by decide)) (by decide)
  exact ⟨k0, P, k, k5, hboot, hlog5, h5⟩

theorem resolve_unchecked (h : k.resolve cur envid true = some e) : k.resolve cur envid false = some e := by
  unfold Kernel.resolve at h ⊢
  by_cases h0 : envid = 0
  · simpa only [if_pos h0] using h
  · by_cases h1 : (k.envs (envx envid)).status = .free ∨ (k.envs (envx envid)).id ≠ envid
    · rw [if_neg h0, if_pos h1] at h
      simp at h
    · simp only [if_neg h0, if_neg h1] at h ⊢
      split at h
      · simp at h
      · simpa using h

theorem crew_status (k : Kernel) : (View.crew k).status slot0 = .running ∧ (View.crew k).status slot1 = .running ∧
    (View.crew k).status slot2 = .runnable ∧ (View.crew k).status slot3 = .runnable := by
  refine ⟨?_, ?_, ?_, ?_⟩
  all_goals
    simp [View.crew, View.another, View.fork, View.run, View.withChild, View.first,
      show slot0 ≠ slot1 by decide, show slot0 ≠ slot2 by decide, show slot0 ≠ slot3 by decide,
      show slot1 ≠ slot2 by decide, show slot1 ≠ slot3 by decide, show slot2 ≠ slot3 by decide]

theorem crew_recving (k : Kernel) : (View.crew k).recving slot1 = false := by
  simp [View.crew, View.another, View.fork, View.run, View.setStatus, View.withChild,
    show slot1 ≠ slot2 by decide, show slot1 ≠ slot3 by decide]

theorem crew_child (k : Kernel) : (View.crew k).Child slot0 slot1 := by
  have h3 : ((View.withChild k).run 1 slot1).Child slot0 slot1 := (withChild_child k).run
  have h4 : (((View.withChild k).run 1 slot1).another slot2).Child slot0 slot1 :=
    (h3.fork (by decide) (by decide)).setStatus (by decide)
  exact (h4.fork (by decide) (by decide)).setStatus (by decide)

theorem crew_id (k : Kernel) : (View.crew k).id slot1 = 4097#32 := by
  have h : (View.crew k).id slot1 = (View.withChild k).id slot1 := by
    simp [View.crew, View.another, View.fork, View.run, View.setStatus,
      show slot1 ≠ slot2 by decide, show slot1 ≠ slot3 by decide]
  rw [h, withChild_id]

theorem crew_finds (k : Kernel) : (View.crew k).Finds (slot1.1 + 1) slot2 :=
  ⟨Nat.le_refl _, (crew_status k).2.2.1, fun _ h1 h2 => absurd h2 (Nat.not_lt.mpr h1)⟩

theorem Shows.waits (h : Shows P n v k) (hlog : Logged ok b k0 l k)
    (hok : ∀ k', ok k (.trap c (callFrame ⟨13, utop, 0, 0, 0, 0⟩) 0) k') (hc : v.curenv c = some b)
    (hl : v.status b ≠ .free) (hd : v.status b ≠ .dying) (hf : v.Finds (b.1 + 1) e) :
    ∃ k', Logged ok b k0 (.recv :: l) k' ∧ Shows P n ((v.block b).run c e) k' := by
  obtain ⟨k1, hs, h1⟩ := h.recv hc hl hd hf
  rw [← h.looks.status] at hl hd
  have hrecv : (Event.trap c (callFrame ⟨13, utop, 0, 0, 0, 0⟩) 0).Receives b k :=
    ⟨_, ⟨callFrame_user _, rfl, h.looks.curenv.trans hc, hd, rfl⟩, rfl, by decide⟩
  exact ⟨k1, hlog.step hs (hok k1) (.recv hl hrecv), h1⟩

theorem pc64_waits : ∃ (k0 : Kernel) (P : Platform) (k k' : Kernel), Boots pc64 k0 ∧
    Logged Cautious slot1 k0 [.recv] k' ∧ Shows P 14904 (((View.crew k).block slot1).run 1 slot2) k' := by
  obtain ⟨k0, P, k, k1, hboot, hlog, h⟩ := pc64_crew
  have hst := (crew_status k).2.1
  obtain ⟨k2, hlog2, h2⟩ := h.waits hlog (fun _ => cautious_call (by decide) (by decide)) (c := 1) rfl
    (by rw [hst]; decide) (by rw [hst]; decide) (crew_finds k)
  exact ⟨k0, P, k, k2, hboot, hlog2, h2⟩

end

/-! ## Only who is blocked is sent to -/

/-- Only a blocked environment waits for a message, and a message for one that
runs or could run is refused and changes nothing. -/
theorem recving_only_blocked {mach : Machine} (hboot : Boots mach k0) (hrun : PatientRuns k0 k) :
    (∀ e, k.Live e → (k.envs e).ipcRecving = true → (k.envs e).status = .notRunnable) ∧
    ∀ c cur tf envid value srcva perm r k' b,
      exec (sysIpcTrySend cur envid value srcva perm) (k.entered c cur tf) = (.ok r, k') →
      k.resolve cur envid false = some b → k.Live b →
      (r = 0 → (k.envs b).ipcRecving = true ∧ (k.envs b).status = .notRunnable) ∧
        ((k.envs b).status = .runnable ∨ (k.envs b).status = .running → r < 0 ∧ k' = k.entered c cur tf) := by
  have h := hrun.ipcOk hboot
  refine ⟨fun e hl hr => (h e).blocked hl hr, fun c cur tf envid value srcva perm r k' b hs hb hl => ?_⟩
  have hsend : Sends cur ⟨12, envid, value, srcva, perm, 0⟩ (k.entered c cur tf) r k' :=
    (sysIpcTrySend_sends (c := c)).ok hs
  have hrecv : ((k.entered c cur tf).envs b).ipcRecving = (k.envs b).ipcRecving :=
    setEnv_field (k := k.awake c) Env.ipcRecving (by rfl)
  have hst : ((k.entered c cur tf).envs b).status = (k.envs b).status :=
    setEnv_field (k := k.awake c) Env.status (by rfl)
  have hsent := hsend.blocked h.entered (entered_resolve.trans hb) (entered_live.mpr hl)
  rw [hrecv, hst] at hsent
  refine ⟨hsent.1, fun hb => hsent.2 ?_⟩
  rcases hb with hb | hb <;> simp [hb]

theorem recving_only_blocked_pc64 : ∃ k0 k : Kernel, Boots pc64 k0 ∧ PatientRuns k0 k ∧ k.Live slot1 ∧
    (k.envs slot1).ipcRecving = true ∧ (k.envs slot1).status = .notRunnable := by
  obtain ⟨k0, P, k, k1, hboot, hlog, h⟩ := pc64_waits
  have hrun : PatientRuns k0 k1 := (hlog.mono fun _ _ _ hok => hok.2).runs
  have hl : k1.Live slot1 := h.looks.live (by simp [View.run, View.block, show slot1 ≠ slot2 by decide])
  have hr : (k1.envs slot1).ipcRecving = true := by
    rw [h.looks.recving]
    simp [View.run, View.setStatus, View.block]
  exact ⟨k0, k1, hboot, hrun, hl, hr, (recving_only_blocked hboot hrun).1 slot1 hl hr⟩

/-- The parent makes the child that waits for a message runnable. -/
theorem set_status_wakes_receiver : ∃ k0 k k' : Kernel, Boots pc64 k0 ∧ PatientRuns k0 k ∧
    Step k (.trap 0 (callFrame ⟨8, 4097, 2, 0, 0, 0⟩) 0) k' ∧
    k'.Live slot1 ∧ (k'.envs slot1).ipcRecving = true ∧ (k'.envs slot1).status = .runnable := by
  obtain ⟨k0, P, k, k1, hboot, hlog, h⟩ := pc64_waits
  have hchild : (((View.crew k).block slot1).run 1 slot2).Child slot0 slot1 :=
    (crew_child k).block.run
  have hid : (((View.crew k).block slot1).run 1 slot2).id slot1 = 4097#32 := crew_id k
  have hrunning : (((View.crew k).block slot1).run 1 slot2).status slot0 = .running := by
    simpa [View.run, View.block, show slot0 ≠ slot1 by decide, show slot0 ≠ slot2 by decide] using (crew_status k).1
  obtain ⟨k2, hs, h2, -⟩ := h.setStatus (c := 0) rfl hrunning hchild statusOf_two
  rw [hid] at hs
  have hst : (k2.envs slot1).status = .runnable := by
    rw [h2.looks.status]
    simp
  refine ⟨k0, k1, k2, hboot, (hlog.mono fun _ _ _ hok => hok.2).runs, hs, by simp [Kernel.Live, hst], ?_, hst⟩
  rw [h2.looks.recving]
  simp [View.run, View.setStatus, View.block]

/-! ## Every message is received once -/

/-- Every message to `b` answers one `sys_ipc_recv` of `b`, and every one of these
gets one message; `b` is blocked until it comes and finds it until it asks for the
next. A message that is refused changes nothing. -/
theorem ipc_exactly_once {mach : Machine} (hboot : Boots mach k0) (hlog : Logged Cautious b k0 l k) :
    (k.Live b → Matched (k.envs b).ipcRecving l ∧
      ((k.envs b).ipcRecving = true → (k.envs b).status = .notRunnable ∧ ∀ c, k.curenv c ≠ some b) ∧
      ∀ m l', l = .sent m :: l' →
        (k.envs b).ipcValue = m.value ∧ (k.envs b).ipcFrom = m.sender ∧ (k.envs b).ipcPerm = m.perm) ∧
    ∀ cur envid value srcva perm r k1 k2,
      exec (sysIpcTrySend cur envid value srcva perm) k1 = (.ok r, k2) → r < 0 → k2 = k1 := by
  obtain ⟨h, hlogOk⟩ := hlog.logOk hboot
  refine ⟨fun hl => ⟨(hlogOk hl).matched, fun hr => ⟨(h.ipc b).blocked hl hr, fun c hc => ?_⟩, fun m l' heq => ?_⟩, ?_⟩
  · rw [h.awake hc] at hr
    simp at hr
  · have hm := (hlogOk hl).message heq
    rw [← hm]
    exact ⟨rfl, rfl, rfl⟩
  · intro cur envid value srcva perm r k1 k2 hs hr
    have hsend : Sends cur ⟨12, envid, value, srcva, perm, 0⟩ k1 r k2 := (sysIpcTrySend_sends (c := 0)).ok hs
    cases hsend with
    | refused _ _ => rfl
    | value _ _ _ | page _ _ _ _ _ _ => exact absurd hr (by decide)

section
variable {k : Kernel} {a : Args}

theorem exec_send_call (hno : a.no = 12) (hb : k.resolve cur a.a1 false = some b)
    (hr : (k.envs b).ipcRecving = true) (hva : ¬ a.a3 < utop) :
    exec (a.call c cur) k = (.ok 0, k.delivered cur b a.a2 0) := by
  unfold Args.call syscall
  rw [hno]
  refine exec_int (m := sysIpcTrySend cur a.a1 a.a2 a.a3 a.a4) (r := 0) ?_
  unfold sysIpcTrySend
  rw [exec_bind_ok exec_envid2env]
  simp only [hb]
  rw [exec_bind_ok (exec_get _)]
  simp only [hr, hva, false_and, and_false]
  rfl

theorem Step.send (hc : k.curenv c = some cur) (hr : (k.envs cur).status = .running)
    (hb : k.resolve cur envid false = some b) (hne : cur ≠ b) (hwait : (k.envs b).ipcRecving = true) (value : Word) :
    ∃ k' m, Step k (.trap c (callFrame ⟨12, envid, value, utop, 0, 0⟩) 0) k' ∧
      (Event.trap c (callFrame ⟨12, envid, value, utop, 0, 0⟩) 0).Delivers b m k k' ∧ k'.Live b := by
  have hrecv : ((k.entered c cur (callFrame ⟨12, envid, value, utop, 0, 0⟩)).envs b).ipcRecving = true :=
    (setEnv_field (k := k.awake c) Env.ipcRecving (by rfl)).trans hwait
  have hst : ((k.entered c cur (callFrame ⟨12, envid, value, utop, 0, 0⟩)).envs cur).status = .running :=
    (setEnv_field (k := k.awake c) Env.status (by rfl)).trans hr
  have hd : (k.envs cur).status ≠ .dying := by simp [hr]
  have hexec : exec (Args.call ⟨12, envid, value, utop, 0, 0⟩ c cur)
      (k.entered c cur (callFrame ⟨12, envid, value, utop, 0, 0⟩)) = _ :=
    exec_send_call rfl (entered_resolve.trans hb) hrecv (BitVec.lt_irrefl utop)
  have hcur : ((k.entered c cur (callFrame ⟨12, envid, value, utop, 0, 0⟩)).delivered cur b value 0).curenv c = some cur := by
    rw [Kernel.delivered, setEnv_curenv, entered_curenv, hc]
  refine ⟨_, _, .call hc hd hexec hcur ?_,
    ⟨cur, _, ⟨callFrame_user _, rfl, hc, hd, rfl⟩, rfl, hb, by simp [Kernel.resumed], rfl⟩, ?_⟩
  · rw [Kernel.delivered, setEnv_of_ne hne]
    exact hst
  · simp [Kernel.Live, Kernel.resumed, setEnv_of_ne hne.symm, Kernel.delivered]

end

/-- The first program sends a number to its child, which waits for a message. -/
theorem ipc_exactly_once_pc64 : ∃ (k0 k : Kernel) (m : Message), Boots pc64 k0 ∧
    Logged Cautious slot1 k0 [.sent m, .recv] k ∧ k.Live slot1 ∧ Matched (k.envs slot1).ipcRecving [.sent m, .recv] ∧
    (k.envs slot1).ipcValue = m.value := by
  obtain ⟨k0, P, k, k1, hboot, hlog, h⟩ := pc64_waits
  have hst : (k1.envs slot0).status = .running := by
    rw [h.looks.status]
    simpa [View.run, View.block, show slot0 ≠ slot1 by decide, show slot0 ≠ slot2 by decide] using (crew_status k).1
  have hl : k1.Live slot1 := h.looks.live (by simp [View.run, View.block, show slot1 ≠ slot2 by decide])
  have hwait : (k1.envs slot1).ipcRecving = true := by
    rw [h.looks.recving]
    simp [View.run, View.setStatus, View.block]
  have hb := resolve_unchecked (h.looks.resolve (crew_child k).block.run)
  obtain ⟨k2, m, hs, hdel, hl2⟩ := Step.send (c := 0) h.looks.curenv hst hb (by decide) hwait 5
  have h12 : (12 : Word) ≠ 3 ∧ (12 : Word) ≠ 8 := by decide
  have hlog2 := hlog.step hs (cautious_call h12.1 h12.2) (.sent hl hdel)
  obtain ⟨hmatched, -, hmessage⟩ := (ipc_exactly_once hboot hlog2).1 hl2
  exact ⟨k0, k2, m, hboot, hlog2, hl2, hmatched, (hmessage _ _ rfl).1⟩

/-- Both CPUs run the child of the first program. -/
def View.doubled (k : Kernel) : View :=
  (((View.crew k).setStatus slot1 .runnable).setStatus slot0 .runnable).run 0 slot1

/-- The child is blocked on CPU 0, and CPU 1 still runs it. -/
def View.halfBlocked (k : Kernel) : View := ((View.doubled k).block slot1).run 0 slot2

theorem doubled_finds (k : Kernel) : (View.doubled k).Finds (slot1.1 + 1) slot2 := by
  refine ⟨Nat.le_refl _, ?_, fun _ h1 h2 => absurd h2 (Nat.not_lt.mpr h1)⟩
  simpa [View.doubled, View.run, show slot2 ≠ slot0 by decide, show slot2 ≠ slot1 by decide] using
    (crew_status k).2.2.1

theorem halfBlocked_finds (k : Kernel) : (View.halfBlocked k).Finds (slot1.1 + 1) slot3 := by
  refine ⟨by decide, ?_, fun x h1 h2 => ?_⟩
  · simpa [View.halfBlocked, View.doubled, View.run, View.block, show slot3 ≠ slot0 by decide,
      show slot3 ≠ slot1 by decide, show slot3 ≠ slot2 by decide] using (crew_status k).2.2.2
  · have hx : x = slot2 := Fin.ext (Nat.le_antisymm (Nat.le_of_lt_succ h2) h1)
    simp [hx, View.halfBlocked, View.run]

/-- The parent makes the child that runs on the second CPU runnable, and so both
CPUs run it. Both call `sys_ipc_recv`, and nothing has been sent. -/
theorem recv_twice : ∃ k0 k : Kernel, Boots pc64 k0 ∧
    Logged (fun k ev _ => ev.SparesWaiting k) slot1 k0 [.recv, .recv] k ∧ k.Live slot1 ∧
    ∀ w, ¬ Matched w [.recv, .recv] := by
  obtain ⟨k0, P, k, k1, hboot, hlog, h⟩ := pc64_crew
  obtain ⟨hst0, hst1, -, -⟩ := crew_status k
  have hlive : ∀ {k'} {v : View}, Looks v k' → v.status slot1 ≠ .free → k'.Live slot1 := fun hlook hne => by
    rw [Kernel.Live, hlook.status]
    exact hne
  have hpatient : ∀ {k' c a}, Args.no a ≠ 8 → (Event.trap c (callFrame a) 0).SparesWaiting k' := fun h8 _ _ _ hno =>
    absurd hno h8
  have h8 : (8 : Word) ≠ 12 ∧ (8 : Word) ≠ 13 := by decide
  -- The running child is made runnable, and CPU 0 takes it up.
  obtain ⟨k2, hs2, h2, -⟩ := h.setStatus (c := 0) rfl hst0 (crew_child k) statusOf_two
  have hlog2 : Logged (fun k ev _ => ev.SparesWaiting k) slot1 k0 [] k2 :=
    (hlog.mono fun _ _ _ hok => hok.2).call hs2 (h.looks.sparesWaiting rfl (crew_child k) (crew_recving k) 2)
      (hlive h.looks (by rw [hst1]; decide)) h8.1 h8.2
  have hrun2 : ((View.crew k).setStatus slot1 .runnable).status slot0 = .running := by
    simpa [show slot0 ≠ slot1 by decide] using hst0
  obtain ⟨k3, hs3, h3⟩ := h2.yield (c := 0) (e := slot1) rfl hrun2
    ⟨Nat.le_refl _, by simp, fun _ hx hx' => absurd hx' (Nat.not_lt.mpr hx)⟩
  have hlog3 := hlog2.call hs3 (hpatient (by decide)) (hlive h2.looks (by simp)) (by decide) (by decide)
  -- Each CPU calls `sys_ipc_recv` for it.
  obtain ⟨k4, hlog4, h4⟩ := Shows.waits (v := View.doubled k) h3 hlog3 (fun _ => hpatient (by decide)) (c := 0) rfl
    (by simp [View.doubled, View.run]) (by simp [View.doubled, View.run]) (doubled_finds k)
  have hst4 : (View.halfBlocked k).status slot1 = .notRunnable := by
    simp [View.halfBlocked, View.run, View.block, show slot1 ≠ slot2 by decide]
  obtain ⟨k5, hlog5, h5⟩ := Shows.waits (v := View.halfBlocked k) h4 hlog4 (fun _ => hpatient (by decide)) (c := 1) rfl
    (by rw [hst4]; decide) (by rw [hst4]; decide) (halfBlocked_finds k)
  refine ⟨k0, k5, hboot, hlog5, hlive h5.looks ?_, ?_⟩
  · simp [View.run, View.block, show slot1 ≠ slot3 by decide]
  · rintro w ⟨⟩
    rename_i h
    cases h

end Jos
