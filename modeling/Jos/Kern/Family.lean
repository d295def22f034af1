import Jos.Kern.FirstProgram

/-!
# A program and its children

The part of the kernel's state that the scheduler and the calls on
environments work on, and what those calls make of it. A run of several
programs is followed on this view, step by step, with the memory underneath
only known to be in order.
-/

namespace Jos

open Lib
open Function (update update_apply update_eq_self update_of_ne update_self)

structure View where
  status : EnvPtr → EnvStatus
  id : EnvPtr → Word
  parentId : EnvPtr → Word
  recving : EnvPtr → Bool
  curenv : Nat → Option EnvPtr
  /-- The first slots of `env_free_list`. -/
  free : List EnvPtr

/-- The environment table and the CPUs of `k` are as `v` says. -/
structure Looks (v : View) (k : Kernel) : Prop where
  status : (k.envs e).status = v.status e
  id : (k.envs e).id = v.id e
  parentId : (k.envs e).parentId = v.parentId e
  recving : (k.envs e).ipcRecving = v.recving e
  curenv : k.curenv c = v.curenv c
  unused : v.curenv c = none → (k.cpus c).status = .unused
  free : ∃ l, Chain (fun e => (k.envs e).link) k.envFreeList (v.free ++ l)

/-- `k` looks like `v`, its memory is in order, and it has `n` pages to spare. -/
structure Shows (P : Platform) (n : Nat) (v : View) (k : Kernel) : Prop where
  looks : Looks v k
  kernel : KernelOk P k
  bounded : k.Bounded
  spare : k.pmap.Spare n

def View.setStatus (v : View) (e : EnvPtr) (st : EnvStatus) : View :=
  { v with status := update v.status e st }

@[simp] theorem View.setStatus_status (v : View) (e : EnvPtr) (st : EnvStatus) :
    (v.setStatus e st).status = update v.status e st := rfl
@[simp] theorem View.setStatus_curenv (v : View) (e : EnvPtr) (st : EnvStatus) : (v.setStatus e st).curenv = v.curenv := rfl

def View.run (v : View) (c : Nat) (e : EnvPtr) : View :=
  { v.setStatus e .running with curenv := update v.curenv c (some e) }

def View.fork (v : View) (cur e : EnvPtr) : View where
  status := update v.status e .notRunnable
  id := update v.id e (nextEnvId (v.id e) e)
  parentId := update v.parentId e (v.id cur)
  recving := update v.recving e false
  curenv := v.curenv
  free := v.free.tail

def View.block (v : View) (e : EnvPtr) : View :=
  { v.setStatus e .notRunnable with recving := update v.recving e true }

def View.release (v : View) (e : EnvPtr) : View :=
  { v.setStatus e .free with free := e :: v.free }

def View.Finds (v : View) (i : Nat) (e : EnvPtr) : Prop :=
  i ≤ e.1 ∧ v.status e = .runnable ∧ ∀ x : EnvPtr, i ≤ x.1 → x.1 < e.1 → v.status x ≠ .runnable

def View.Child (v : View) (cur e : EnvPtr) : Prop :=
  e ≠ cur ∧ v.status e ≠ .free ∧ v.id e ≠ 0 ∧ envx (v.id e) = e ∧ v.parentId e = v.id cur

section
variable {k : Kernel} {v : View}

section
variable (h : v.Child cur e)
include h

theorem View.Child.setStatus (hst : st ≠ .free) : (v.setStatus x st).Child cur e := by
  refine ⟨h.1, ?_, h.2.2⟩
  rw [View.setStatus_status, update_apply]
  split
  · exact hst
  · exact h.2.1

theorem View.Child.run : (v.run c x).Child cur e :=
  ⟨h.1, (h.setStatus (x := x) (by decide : EnvStatus.running ≠ .free)).2.1, h.2.2⟩

theorem View.Child.block : (v.block x).Child cur e :=
  ⟨h.1, (h.setStatus (x := x) (by decide : EnvStatus.notRunnable ≠ .free)).2.1, h.2.2⟩

theorem View.Child.fork (hne : e ≠ x) (hcur : cur ≠ x) : (v.fork cur x).Child cur e := by
  obtain ⟨h1, h2, h3, h4, h5⟩ := h
  have hid : (v.fork cur x).id e = v.id e := update_of_ne hne ..
  refine ⟨h1, ?_, by rwa [hid], by rwa [hid], ?_⟩
  · simpa [View.fork, update_of_ne hne] using h2
  · simpa [View.fork, update_of_ne hne, update_of_ne hcur] using h5

end

theorem View.fork_child (hne : e ≠ cur) (hid : nextEnvId (v.id e) e ≠ 0)
    (hx : envx (nextEnvId (v.id e) e) = e) : (v.fork cur e).Child cur e := by
  have hself : (v.fork cur e).id e = nextEnvId (v.id e) e := update_self ..
  refine ⟨hne, ?_, by rwa [hself], by rwa [hself], ?_⟩
  · simp [View.fork]
  · simp [View.fork, update_of_ne hne.symm]

theorem Looks.resolve (h : Looks v k) (hc : v.Child cur e) : k.resolve cur (v.id e) true = some e := by
  obtain ⟨hne, hst, hid, hx, hp⟩ := hc
  unfold Kernel.resolve
  rw [if_neg hid, hx, if_neg, if_neg]
  · rintro ⟨-, -, hp'⟩
    exact hp' (by rw [h.parentId, h.id, hp])
  · rintro (hf | hi)
    · exact hst (h.status ▸ hf)
    · exact hi h.id

theorem View.Finds.scan (hf : v.Finds i e) (h : ∀ x, (k.envs x).status = v.status x) (hn : e.1 < i + n) :
    k.schedScan n i = some e.1 := by
  obtain ⟨hle, hr, hbefore⟩ := hf
  induction n generalizing i with
  | zero => omega
  | succ m ih =>
    by_cases hi : i = e.1
    · subst hi
      exact schedScan_here ((runnableAt_lt e.2).mpr ((h e).trans hr))
    · have hlt : i < nenv := by
        have := e.2
        omega
      have hnot : k.runnableAt i = false := by
        rw [← Bool.not_eq_true, runnableAt_lt hlt, h]
        exact hbefore ⟨i, hlt⟩ (Nat.le_refl i) (by simp only; omega)
      rw [schedScan_next hnot hlt]
      exact ih (by omega) (by omega) fun x hx => hbefore x (by omega)

theorem View.Finds.block {b : EnvPtr} (hf : v.Finds (b.1 + 1) e) : (v.block b).Finds (b.1 + 1) e := by
  have hst : ∀ x : EnvPtr, b.1 + 1 ≤ x.1 → (v.block b).status x = v.status x := by
    intro x hx
    refine update_of_ne ?_ ..
    rintro rfl
    exact Nat.not_succ_le_self _ hx
  refine ⟨hf.1, (hst e hf.1).trans hf.2.1, fun x h1 h2 => ?_⟩
  rw [hst x h1]
  exact hf.2.2 x h1 h2

/-! ## Changes of the table -/

theorem setEnv_update {g : EnvPtr → α} (f : Env → α) (h : ∀ {x}, f (k.envs x) = g x) {env : Env} {e x : EnvPtr} :
    f ((k.setEnv e env).envs x) = update g e (f env) x := by
  rw [setEnv_apply, update_apply]
  split
  · rfl
  · exact h

theorem Looks.setEnv (h : Looks v k) (hk : env.link = (k.envs e).link) :
    Looks { v with
      status := update v.status e env.status
      id := update v.id e env.id
      parentId := update v.parentId e env.parentId
      recving := update v.recving e env.ipcRecving } (k.setEnv e env) where
  status := setEnv_update Env.status h.status
  id := setEnv_update Env.id h.id
  parentId := setEnv_update Env.parentId h.parentId
  recving := setEnv_update Env.ipcRecving h.recving
  curenv := h.curenv
  unused := h.unused
  free := by
    obtain ⟨l, hl⟩ := h.free
    exact ⟨l, hl.frame fun x _ => setEnv_field Env.link hk⟩

theorem Looks.setEnv_status (h : Looks v k) (hi : env.id = (k.envs e).id) (hp : env.parentId = (k.envs e).parentId)
    (hr : env.ipcRecving = (k.envs e).ipcRecving) (hk : env.link = (k.envs e).link) (hst : env.status = st) :
    Looks (v.setStatus e st) (k.setEnv e env) := by
  have h1 := h.setEnv hk
  rw [hi, h.id, update_eq_self, hp, h.parentId, update_eq_self, hr, h.recving,
    update_eq_self, hst] at h1
  exact h1

theorem Looks.setStatus (h : Looks v k) (e : EnvPtr) (st : EnvStatus) :
    Looks (v.setStatus e st) (k.setEnv e { k.envs e with status := st }) :=
  h.setEnv_status rfl rfl rfl rfl rfl

theorem Looks.setEnv_same (h : Looks v k) (hst : env.status = (k.envs e).status) (hi : env.id = (k.envs e).id)
    (hp : env.parentId = (k.envs e).parentId) (hr : env.ipcRecving = (k.envs e).ipcRecving)
    (hk : env.link = (k.envs e).link) : Looks v (k.setEnv e env) := by
  have h1 := h.setEnv_status hi hp hr hk (hst.trans h.status)
  rw [View.setStatus, update_eq_self] at h1
  exact h1

theorem forked_of_ne (hx : x ≠ e) : (k.forked cur e s pgdir).envs x = k.envs x := by
  simp [Kernel.forked, Kernel.allocated, setEnv_of_ne hx, Kernel.withPmap]

section
variable (h : Looks v k)
include h

theorem Looks.fork (hf : v.free = e :: l) : Looks (v.fork cur e) (k.forked cur e s pgdir) := by
  have hself : (k.forked cur e s pgdir).envs e = { newEnv (k.envs e) e pgdir (k.envs cur).id with
      status := .notRunnable, tf := ((k.forked cur e s pgdir).envs e).tf } := by
    simp [Kernel.forked, Kernel.allocated]
  refine ⟨fun {x} => ?_, fun {x} => ?_, fun {x} => ?_, fun {x} => ?_, h.curenv, h.unused, ?_⟩
  · by_cases hx : x = e
    · rw [hx, hself]
      simp [View.fork]
    · rw [forked_of_ne hx, h.status]
      simp [View.fork, update_of_ne hx]
  · by_cases hx : x = e
    · rw [hx, hself]
      simp [View.fork, newEnv, h.id]
    · rw [forked_of_ne hx, h.id]
      simp [View.fork, update_of_ne hx]
  · by_cases hx : x = e
    · rw [hx, hself]
      simp [View.fork, newEnv, h.id]
    · rw [forked_of_ne hx, h.parentId]
      simp [View.fork, update_of_ne hx]
  · by_cases hx : x = e
    · rw [hx, hself]
      simp [View.fork, newEnv]
    · rw [forked_of_ne hx, h.recving]
      simp [View.fork, update_of_ne hx]
  · obtain ⟨r, hr⟩ := h.free
    have hhead := hr.head_eq
    rw [hf, List.cons_append] at hr hhead
    rw [hhead] at hr
    have hnot : e ∉ l ++ r := (List.nodup_cons.mp hr.nodup).1
    obtain ⟨l', hcons, htail⟩ := Chain.some_iff.mp hr
    obtain rfl := (List.cons.inj hcons).2
    refine ⟨r, ?_⟩
    simp only [View.fork, hf, List.tail_cons]
    refine Chain.frame htail fun x hx => ?_
    rw [forked_of_ne]
    rintro rfl
    exact hnot hx

theorem Looks.release (hs : k.SlotsOk) (hl : k.Live e) : Looks (v.release e) (k.freed e s) where
  status := setEnv_update (k := k.withPmap s) Env.status h.status
  id := (setEnv_field (k := k.withPmap s) Env.id (by rfl)).trans h.id
  parentId := (setEnv_field (k := k.withPmap s) Env.parentId (by rfl)).trans h.parentId
  recving := (setEnv_field (k := k.withPmap s) Env.ipcRecving (by rfl)).trans h.recving
  curenv := h.curenv
  unused := h.unused
  free := by
    obtain ⟨r, hr⟩ := h.free
    obtain ⟨l, hc, hmem⟩ := hs
    obtain rfl := hc.unique hr
    refine ⟨r, ?_⟩
    rw [freed_link]
    exact hr.push fun he => (hmem e).mp he hl

theorem Looks.block (e : EnvPtr) (dstva : Word) : Looks (v.block e) (k.blocked e dstva) where
  status := setEnv_update Env.status h.status
  id := (setEnv_field Env.id (by rfl)).trans h.id
  parentId := (setEnv_field Env.parentId (by rfl)).trans h.parentId
  recving := setEnv_update Env.ipcRecving h.recving
  curenv := h.curenv
  unused := h.unused
  free := by
    obtain ⟨l, hl⟩ := h.free
    exact ⟨l, hl.frame fun x _ => setEnv_field Env.link (by rfl)⟩

theorem Looks.awake (hc : v.curenv c = some cur) : Looks v (k.awake c) where
  status := h.status
  id := h.id
  parentId := h.parentId
  recving := h.recving
  curenv := awake_curenv.trans h.curenv
  unused {c'} hn := by
    have hne : c' ≠ c := by
      rintro rfl
      simp [hc] at hn
    simpa [Kernel.awake, Kernel.setCpu, hne] using h.unused hn
  free := h.free

theorem Looks.entered (hc : v.curenv c = some cur) (tf : Trapframe) : Looks v (k.entered c cur tf) :=
  Looks.setEnv_same (h.awake hc) rfl rfl rfl rfl rfl

theorem Looks.resumed : Looks v (k.resumed c cur r) := h.setEnv_same rfl rfl rfl rfl rfl

theorem Looks.runs (c : Nat) (cpu : CpuInfo) (hcpu : cpu.env = some e) :
    Looks { v with curenv := update v.curenv c (some e) } (k.setCpu c cpu) where
  status := h.status
  id := h.id
  parentId := h.parentId
  recving := h.recving
  free := h.free
  curenv {c'} := by
    rw [setCpu_curenv]
    simp only [update_apply, h.curenv, hcpu]
  unused {c'} hn := by
    by_cases hne : c' = c
    · simp [hne] at hn
    · simp only [update_of_ne hne] at hn
      simpa [Kernel.setCpu, hne] using h.unused hn

theorem Looks.enter (hc : v.curenv c = none) : Looks (v.run c e) ((k.awake c).dispatch c e) := by
  have hcpu : (k.awake c).setCpu c { (k.awake c).cpus c with env := some e } =
      k.setCpu c ⟨.started, some e⟩ := by
    simp [Kernel.awake, Kernel.setCpu]
  rw [dispatch_idle (awake_curenv.trans (h.curenv.trans hc)), hcpu]
  exact (h.runs c ⟨.started, some e⟩ rfl).setEnv_status rfl rfl rfl rfl rfl

theorem Looks.dispatch (hc : v.curenv c ≠ some e) (hcur : ∀ x, v.curenv c = some x → v.status x ≠ .running) :
    Looks (v.run c e) (k.dispatch c e) := by
  have hpre : k.preempt c = k := by
    unfold Kernel.preempt
    cases hx : k.curenv c with
    | none => rfl
    | some x =>
      have hst := hcur x (h.curenv.symm.trans hx)
      rw [← h.status] at hst
      exact if_neg hst
  have hstate : k.dispatch c e = (k.setCpu c { k.cpus c with env := some e }).setEnv e
      { k.envs e with status := .running, runs := (k.envs e).runs + 1, cpunum := c } := by
    rw [Kernel.dispatch, if_neg (by rw [h.curenv]; exact hc)]
    simp [Kernel.switch, hpre, Kernel.setEnv]
  rw [hstate]
  exact (h.runs c ⟨(k.cpus c).status, some e⟩ rfl).setEnv_status rfl rfl rfl rfl rfl

theorem Looks.preempt (hc : v.curenv c = some x) (hr : v.status x = .running) (hne : x ≠ e) :
    Looks ((v.setStatus x .runnable).run c e) (k.dispatch c e) := by
  have hx : k.curenv c = some x := h.curenv.trans hc
  have hpre : k.preempt c = k.setEnv x { k.envs x with status := .runnable } := by
    unfold Kernel.preempt
    rw [hx]
    exact if_pos (h.status.trans hr)
  have hsame : k.dispatch c e = (k.preempt c).dispatch c e := by
    have hce : k.curenv c ≠ some e := by
      rw [hx]
      exact fun h => hne (Option.some.inj h)
    have hce' : (k.preempt c).curenv c ≠ some e := by
      rw [hpre]
      exact hce
    have htwice : (k.preempt c).preempt c = k.preempt c := by
      rw [hpre]
      simp [Kernel.preempt, hx]
    rw [Kernel.dispatch, if_neg hce, Kernel.dispatch, if_neg hce', Kernel.switch, Kernel.switch, htwice]
  rw [hsame, hpre]
  refine (h.setStatus x .runnable).dispatch ?_ ?_
  · rw [View.setStatus_curenv, hc]
    exact fun h => hne (Option.some.inj h)
  · intro y hy
    obtain rfl := Option.some.inj (hc.symm.trans hy)
    simp

end

/-! ## Steps of the machine -/

theorem Looks.live (h : Looks v k) (hl : v.status e ≠ .free) : k.Live e := by rwa [Kernel.Live, h.status]

theorem Looks.current (h : Looks v k) (hc : v.curenv c = some cur) (hr : v.status cur ≠ .free) : k.Current c :=
  current_some (h.curenv.trans hc) (h.live hr)

theorem Looks.sameEnvs (h : Looks v k) (hs : SameEnvs k k') : Looks v k' where
  status := hs.status.trans h.status
  id := hs.id.trans h.id
  parentId := hs.parentId.trans h.parentId
  recving := hs.recving.trans h.recving
  curenv := hs.curenv.trans h.curenv
  unused hc := (hs.cpu (h.curenv.trans hc)).trans (h.unused hc)
  free := by
    obtain ⟨l, hl⟩ := h.free
    refine ⟨l, ?_⟩
    rw [hs.free]
    exact hl.frame fun _ _ => hs.link

def View.SameFree (v v' : View) : Prop := ∀ e, v'.status e = .free ↔ v.status e = .free

theorem View.setStatus_sameFree (hst : st ≠ .free) (he : v.status e ≠ .free) : v.SameFree (v.setStatus e st) := by
  intro x
  by_cases hx : x = e
  · subst hx
    simp [hst, he]
  · simp [update_of_ne hx]

theorem Looks.dirs (h : Looks v k) (h' : Looks v' k') (hfree : v.SameFree v')
    (hpgdir : ∀ x, (k'.envs x).pgdir = (k.envs x).pgdir) : k'.dirs = k.dirs := by
  funext x
  unfold Kernel.dirs
  rw [h'.status, h.status, hpgdir]
  simp only [hfree x]

/-- The environments of `k` still have their address spaces in `k'`. -/
def Kernel.Keeps (k k' : Kernel) : Prop :=
  ∀ e, k.Live e → k'.dirs e = k.dirs e ∧ KeepsSpace k.dirs e k.pmap.mem k'.pmap.mem

theorem Kernel.Keeps.pte (h : k.Keeps k') (hl : k.Live e) (ho : Own d) (hk : t < 1024) :
    pteOf k'.dirs k'.pmap.mem e d t = pteOf k.dirs k.pmap.mem e d t := by
  obtain ⟨hd, hm⟩ := h e hl
  rw [pteOf_dirs hd, hm.pte ho hk]

theorem Shows.quiet (h : Shows P n v k) (hs : Step k ev k') (hl : ev.ByLive k) (hlooks : Looks v' k')
    (hfree : v.SameFree v') (hpgdir : ∀ x, (k'.envs x).pgdir = (k.envs x).pgdir) (hp : k'.pmap = k.pmap) :
    Shows P n v' k' ∧ k.Keeps k' := by
  have hd := h.looks.dirs hlooks hfree hpgdir
  refine ⟨⟨hlooks, (h.kernel.step h.bounded hs hl).1, ?_, ?_⟩, fun e _ => ⟨by rw [hd], ?_⟩⟩
  · unfold Kernel.Bounded
    rw [hd, hp]
    exact h.bounded
  · rw [hp]
    exact h.spare
  · rw [hp]
    exact .refl _

theorem byLive_trap (h : Looks v k) (hc : v.curenv c = some cur) (hr : v.status cur ≠ .free) :
    (Event.trap c tf cr2).ByLive k := by
  intro c' hc'
  obtain rfl := Option.some.inj hc'
  exact h.current hc hr

theorem resumed_pgdir : ((k.resumed c cur r).envs x).pgdir = (k.envs x).pgdir := setEnv_field Env.pgdir rfl

theorem dispatch_pgdir : ((k.dispatch c e).envs x).pgdir = (k.envs x).pgdir := by
  obtain ⟨st, r, n, henv⟩ := dispatch_env k c e x
  rw [henv]

theorem Looks.call {a : Args} (h : Looks v k) (hc : v.curenv c = some cur) (hr : v.status cur = .running)
    (hcall : exec (a.call c cur) (k.entered c cur (callFrame a)) = (.ok r, k1)) (hlooks : Looks v' k1)
    (hc' : v'.curenv c = some cur) (hr' : v'.status cur = .running) :
    Step k (.trap c (callFrame a) 0) (k1.resumed c cur r) ∧ Looks v' (k1.resumed c cur r) := by
  have hrk : (k.envs cur).status ≠ .dying := by
    rw [h.status, hr]
    decide
  exact ⟨Step.call (h.curenv.trans hc) hrk hcall (hlooks.curenv.trans hc') (hlooks.status.trans hr'),
    hlooks.resumed⟩

theorem Shows.call_status {a : Args} (h : Shows P n v k) (hc : v.curenv c = some cur) (hr : v.status cur = .running)
    (hne : e ≠ cur) (he : v.status e ≠ .free) (hst : st ≠ .free)
    (hcall : exec (a.call c cur) (k.entered c cur (callFrame a)) = (.ok r, (k.entered c cur (callFrame a)).setEnv e
      { (k.entered c cur (callFrame a)).envs e with status := st })) :
    ∃ k', Step k (.trap c (callFrame a) 0) k' ∧ Shows P n (v.setStatus e st) k' ∧ k.Keeps k' := by
  have hlooks := (h.looks.entered hc (callFrame a)).setStatus e st
  have hrun : (v.setStatus e st).status cur = .running := by
    simp [update_of_ne hne.symm, hr]
  obtain ⟨hstep, hshow⟩ := h.looks.call hc hr hcall hlooks hc hrun
  refine ⟨_, hstep, h.quiet hstep (byLive_trap h.looks hc (by rw [hr]; decide)) hshow
    (View.setStatus_sameFree hst he) (fun x => ?_) rfl⟩
  exact resumed_pgdir.trans ((setEnv_field Env.pgdir (by rfl)).trans entered_pgdir)

section
variable (h : Shows P n v k) (hc : v.curenv c = some cur) (hr : v.status cur = .running) (hchild : v.Child cur e)
include h hc hr hchild

theorem Shows.setStatus (hst : statusOf w = some st) :
    ∃ k', Step k (.trap c (callFrame ⟨8, v.id e, w, 0, 0, 0⟩) 0) k' ∧ Shows P n (v.setStatus e st) k' ∧ k.Keeps k' :=
  h.call_status hc hr hchild.1 hchild.2.1 (statusOf_ne_free hst)
    (exec_setStatus_call rfl ((h.looks.entered hc _).resolve hchild) hst)

theorem Shows.destroy_running (hst : v.status e = .running) :
    ∃ k', Step k (.trap c (callFrame ⟨3, v.id e, 0, 0, 0, 0⟩) 0) k' ∧ Shows P n (v.setStatus e .dying) k' ∧
      k.Keeps k' := by
  have hent := h.looks.entered hc (callFrame ⟨3, v.id e, 0, 0, 0, 0⟩)
  refine h.call_status hc hr hchild.1 hchild.2.1 (by decide) (exec_destroy_call rfl (hent.resolve hchild)
    (exec_envDestroy_running (hent.status.trans hst) ?_))
  rw [hent.curenv, hc]
  exact fun h => hchild.1 (Option.some.inj h).symm

theorem Shows.destroy_other (hst : v.status e ≠ .running) :
    ∃ k', Step k (.trap c (callFrame ⟨3, v.id e, 0, 0, 0, 0⟩) 0) k' ∧ Shows P 1 (v.release e) k' := by
  have hl : k.Live e := h.looks.live hchild.2.1
  obtain ⟨q, hq, hp⟩ := h.kernel.dir hl
  obtain ⟨_, s, hfree, hsteady, hrefs, -⟩ := (envFreeSpace_ok (h.kernel.steady h.bounded) hq).returns
  have hent := h.looks.entered hc (callFrame ⟨3, v.id e, 0, 0, 0, 0⟩)
  have hother : (k.entered c cur (callFrame ⟨3, v.id e, 0, 0, 0, 0⟩)).curenv c ≠ some e := by
    rw [hent.curenv, hc]
    exact fun h => hchild.1 (Option.some.inj h).symm
  have hspace : exec (envFreeSpace ((k.entered c cur (callFrame ⟨3, v.id e, 0, 0, 0, 0⟩)).envs e).pgdir)
      (k.entered c cur (callFrame ⟨3, v.id e, 0, 0, 0, 0⟩)).pmap = (.ok (), s) := by
    rw [entered_pgdir, hp]
    exact hfree
  have hcall := exec_destroy_call (a := ⟨3, v.id e, 0, 0, 0, 0⟩) rfl (hent.resolve hchild)
    (exec_envDestroy_other (by rw [hent.status]; exact hst) hother hspace)
  have hrun : (v.release e).status cur = .running := by
    simp [View.release, update_of_ne hchild.1.symm, hr]
  have hslots : (k.entered c cur (callFrame ⟨3, v.id e, 0, 0, 0, 0⟩)).SlotsOk :=
    Kernel.SlotsOk.setEnv (k := k.awake c) h.kernel.slots Iff.rfl rfl
  have hlive : (k.entered c cur (callFrame ⟨3, v.id e, 0, 0, 0, 0⟩)).Live e := hent.live hchild.2.1
  obtain ⟨hstep, hlooks⟩ := h.looks.call hc hr hcall (hent.release hslots hlive) hc hrun
  refine ⟨_, hstep, hlooks, (h.kernel.step h.bounded hstep (byLive_trap h.looks hc (by rw [hr]; decide))).1,
    .of_steady hsteady ?_ rfl, ?_⟩
  · rw [resumed_dirs, freed_dirs, entered_dirs]
  · obtain ⟨l, hok⟩ := hsteady.ok
    obtain ⟨l0, hok0⟩ := h.kernel.mem
    have huses : uses (target (update k.dirs e none) s.mem : Ref EnvPtr Own → Option Nat) [] q = 0 := by
      simpa [uses, refs] using hrefs
    have hmem : q ∈ l := hok.counted.free_iff.mpr ⟨hok0.dir_pool hq, huses, by simp⟩
    exact ⟨l, hok.counted.chain, List.length_pos_of_mem hmem⟩

end

theorem Shows.fork (h : Shows P (n + 1) v k) (hc : v.curenv c = some cur) (hr : v.status cur = .running)
    (hf : v.free = e :: l) (hne : e ≠ cur) :
    ∃ k', Step k (.trap c (callFrame ⟨7, 0, 0, 0, 0, 0⟩) 0) k' ∧ Shows P n (v.fork cur e) k' ∧ k.Keeps k' := by
  have hent := h.looks.entered hc (callFrame ⟨7, 0, 0, 0, 0, 0⟩)
  have hhead : k.envFreeList = some e := by
    obtain ⟨r, hr⟩ := h.looks.free
    rw [hr.head_eq, hf]
    rfl
  obtain ⟨q, s, hvm, hnew, hspare⟩ := envSetupVm_progress (h.kernel.steady h.bounded)
    (dirs_free (h.kernel.slots.head_free hhead)) h.spare
  have hcall : exec (Args.call ⟨7, 0, 0, 0, 0, 0⟩ c cur) (k.entered c cur (callFrame ⟨7, 0, 0, 0, 0, 0⟩)) = _ :=
    exec_exofork_call rfl hhead hvm
  have hrun : (v.fork cur e).status cur = .running := by
    simp [View.fork, update_of_ne hne.symm, hr]
  obtain ⟨hstep, hlooks⟩ := h.looks.call hc hr hcall (hent.fork hf) hc hrun
  have hdirs : ∀ tf r, (((k.entered c cur tf).forked cur e s (q * pgsize)).resumed c cur r).dirs =
      update k.dirs e (some q) := fun tf r => by
    rw [resumed_dirs, forked_dirs, entered_dirs]
  refine ⟨_, hstep, ⟨hlooks, (h.kernel.step h.bounded hstep (byLive_trap h.looks hc (by rw [hr]; decide))).1,
    .of_steady hnew.steady (hdirs ..) rfl, hspare⟩, fun x hx => ?_⟩
  obtain ⟨l, hok⟩ := h.kernel.mem
  have hxe : x ≠ e := fun heq => h.kernel.slots.head_free hhead (heq ▸ hx)
  refine ⟨?_, (hnew.touches hok).keeps hxe⟩
  rw [hdirs, update_of_ne hxe]

theorem View.run_sameFree (he : v.status e = .runnable) : v.SameFree (v.run c e) :=
  View.setStatus_sameFree (by decide) (by rw [he]; decide)

theorem View.SameFree.trans {v1 v2 v3 : View} (h : v1.SameFree v2) (h' : v2.SameFree v3) : v1.SameFree v3 :=
  fun e => (h' e).trans (h e)

theorem Shows.enter (h : Shows P n v k) (hc : v.curenv c = none) (hf : v.Finds 0 e) :
    ∃ k', Step k (.start c) k' ∧ Shows P n (v.run c e) k' := by
  have hnone : k.curenv c = none := h.looks.curenv.trans hc
  have hlt : e.1 < 1024 := e.2
  have hstep := Step.enter (h.looks.unused hc) hnone
    (hf.scan (k := k.awake c) (fun _ => h.looks.status) (Nat.lt_of_lt_of_le hlt (Nat.le_add_left ..)))
  refine ⟨_, hstep, (h.quiet hstep ?_ (h.looks.enter hc) (View.run_sameFree hf.2.1) (fun x => dispatch_pgdir) ?_).1⟩
  · intro c' hc'
    obtain rfl := Option.some.inj hc'
    exact current_none hnone
  · refine (dispatch_mem (k := k.awake c) ?_).2
    rw [Kernel.Live]
    exact h.looks.status.trans hf.2.1 ▸ by decide

theorem Looks.yield (h : Looks v k) (hc : v.curenv c = some cur) (hr : v.status cur = .running)
    (hf : v.Finds (cur.1 + 1) e) :
    ∃ k', Step k (.trap c (callFrame ⟨11, 0, 0, 0, 0, 0⟩) 0) k' ∧
      Looks ((v.setStatus cur .runnable).run c e) k' ∧ (∀ x, (k'.envs x).pgdir = (k.envs x).pgdir) ∧
      k'.pmap = k.pmap := by
  have hent := h.entered hc (callFrame ⟨11, 0, 0, 0, 0, 0⟩)
  have hne : cur ≠ e := by
    rintro rfl
    exact Nat.not_succ_le_self _ hf.1
  have hrk : (k.envs cur).status ≠ .dying := by
    rw [h.status, hr]
    decide
  have hlt : e.1 < 1024 := e.2
  refine ⟨_, .yields rfl (h.curenv.trans hc) hrk (hf.scan (fun _ => hent.status)
    (Nat.lt_of_lt_of_le hlt (Nat.le_add_left ..))), hent.preempt hc hr hne, fun x => dispatch_pgdir.trans entered_pgdir,
    (dispatch_mem ?_).2⟩
  rw [Kernel.Live, hent.status, hf.2.1]
  decide

theorem Shows.yield (h : Shows P n v k) (hc : v.curenv c = some cur) (hr : v.status cur = .running)
    (hf : v.Finds (cur.1 + 1) e) :
    ∃ k', Step k (.trap c (callFrame ⟨11, 0, 0, 0, 0, 0⟩) 0) k' ∧
      Shows P n ((v.setStatus cur .runnable).run c e) k' := by
  obtain ⟨k', hstep, hlooks, hpgdir, hpmap⟩ := h.looks.yield hc hr hf
  have hne : cur ≠ e := by
    rintro rfl
    exact Nat.not_succ_le_self _ hf.1
  have hsame : v.SameFree ((v.setStatus cur .runnable).run c e) :=
    (View.setStatus_sameFree (by decide) (by rw [hr]; decide)).trans
      (View.run_sameFree (by simp [update_of_ne hne.symm, hf.2.1]))
  exact ⟨k', hstep, (h.quiet hstep (byLive_trap h.looks hc (by rw [hr]; decide)) hlooks hsame hpgdir hpmap).1⟩

section
variable (h : Shows P n v k) (hc : v.curenv c = some cur) (hr : v.status cur ≠ .free) (hd : v.status cur ≠ .dying) (hf : v.Finds (cur.1 + 1) e)
include h hc hr hd hf

theorem Shows.recvAt (hva : ¬ (dstva < utop ∧ dstva % 4096 ≠ 0)) :
    ∃ k', Step k (.trap c (callFrame ⟨13, dstva, 0, 0, 0, 0⟩) 0) k' ∧ Shows P n ((v.block cur).run c e) k' ∧
      k.Keeps k' ∧ (k'.envs cur).ipcDstva = dstva := by
  have hent := h.looks.entered hc (callFrame ⟨13, dstva, 0, 0, 0, 0⟩)
  have hne : cur ≠ e := by
    rintro rfl
    exact Nat.not_succ_le_self _ hf.1
  have hrk : (k.envs cur).status ≠ .dying := by
    rw [h.looks.status]
    exact hd
  have hblock := hent.block cur dstva
  have hlt : e.1 < 1024 := e.2
  have hf' : (v.block cur).Finds (cur.1 + 1) e := hf.block
  have hstep : Step k (.trap c (callFrame ⟨13, dstva, 0, 0, 0, 0⟩) 0) _ := .recv (h.looks.curenv.trans hc) hrk hva
    (hf'.scan (fun _ => hblock.status) (Nat.lt_of_lt_of_le hlt (Nat.le_add_left ..)))
  have hsame : v.SameFree ((v.block cur).run c e) :=
    (View.setStatus_sameFree (by decide) hr : v.SameFree (v.block cur)).trans (View.run_sameFree hf'.2.1)
  have hcur : (v.block cur).curenv c = some cur := hc
  have hother : (v.block cur).curenv c ≠ some e := by
    rw [hcur]
    exact fun h => hne (Option.some.inj h)
  have hstopped : ∀ x, (v.block cur).curenv c = some x → (v.block cur).status x ≠ .running := by
    intro x hx
    obtain rfl := Option.some.inj (hcur.symm.trans hx)
    simp [View.block]
  have hlooks := hblock.dispatch hother hstopped
  have hquiet := h.quiet hstep (byLive_trap h.looks hc hr) hlooks hsame
    (fun x => dispatch_pgdir.trans ((setEnv_field Env.pgdir (by rfl)).trans entered_pgdir)) ?_
  · refine ⟨_, hstep, hquiet.1, hquiet.2, ?_⟩
    obtain ⟨st, r, n, henv⟩ := dispatch_env
      ((k.entered c cur (callFrame ⟨13, dstva, 0, 0, 0, 0⟩)).blocked cur dstva) c e cur
    rw [henv]
    simp [Kernel.blocked]
  · refine (dispatch_mem ?_).2
    rw [Kernel.Live, hblock.status, hf'.2.1]
    decide

theorem Shows.recv :
    ∃ k', Step k (.trap c (callFrame ⟨13, utop, 0, 0, 0, 0⟩) 0) k' ∧ Shows P n ((v.block cur).run c e) k' := by
  obtain ⟨k', hstep, hshow, -⟩ := h.recvAt hc hr hd hf (by decide : ¬ (utop < utop ∧ utop % 4096 ≠ 0))
  exact ⟨k', hstep, hshow⟩

end

end

/-! ## The first program -/

theorem two_lt_nenv : 2 < nenv := by decide
theorem three_lt_nenv : 3 < nenv := by decide

def slot2 : EnvPtr := ⟨2, two_lt_nenv⟩
def slot3 : EnvPtr := ⟨3, three_lt_nenv⟩

def View.first (k : Kernel) : View where
  status e := if e = slot0 then .running else .free
  id e := if e = slot0 then 4096#32 else 0#32
  parentId e := (k.envs e).parentId
  recving e := (k.envs e).ipcRecving
  curenv c := if c = 0 then some slot0 else none
  free := [slot1, slot2, slot3]

theorem Alone.shows {k : Kernel} (h : Alone P k type n text stack) : Shows P n (.first k) k where
  looks :=
    { status := fun {e} => by
        by_cases he : e = slot0
        · simp [View.first, he, h.status]
        · simp [View.first, he, h.others he]
      id := fun {e} => by
        by_cases he : e = slot0
        · simp [View.first, he, h.id]
        · simp [View.first, he, (h.fresh he).1]
      parentId := rfl
      recving := rfl
      curenv := fun {c} => by
        by_cases hc : c = 0
        · simp [View.first, hc, h.curenv]
        · simp [View.first, hc, h.only c hc]
      unused := fun {c} hc => h.unused fun h0 => by simp [View.first, h0] at hc
      free := by
        obtain ⟨l, hl, -⟩ := h.machine.kernel.slots
        rw [h.next] at hl
        obtain ⟨l1, rfl, hl1⟩ := Chain.some_iff.mp hl
        have h2 : (k.envs slot1).link = some slot2 := h.link (by decide) two_lt_nenv
        have h3 : (k.envs slot2).link = some slot3 := h.link (by decide) three_lt_nenv
        rw [h2] at hl1
        obtain ⟨l2, rfl, hl2⟩ := Chain.some_iff.mp hl1
        rw [h3] at hl2
        obtain ⟨l3, rfl, -⟩ := Chain.some_iff.mp hl2
        rw [← h.next] at hl
        exact ⟨l3, hl⟩ }
  kernel := h.machine.kernel
  bounded := h.bounded
  spare := h.spare

theorem statusOf_two : statusOf 2 = some .runnable := by decide

theorem first_id (k : Kernel) (h : e ≠ slot0) : (View.first k).id e = 0#32 := if_neg h

def View.withChild (k : Kernel) : View := ((View.first k).fork slot0 slot1).setStatus slot1 .runnable

theorem withChild_id (k : Kernel) : (View.withChild k).id slot1 = 4097#32 := by
  have h : (View.withChild k).id slot1 = nextEnvId ((View.first k).id slot1) slot1 := by
    simp [View.withChild, View.setStatus, View.fork]
  rw [h, first_id k (by decide)]
  decide

theorem fork_child_slot1 (k : Kernel) : ((View.first k).fork slot0 slot1).Child slot0 slot1 := by
  refine View.fork_child (by decide) ?_ ?_
  · rw [first_id k (by decide)]
    decide
  · rw [first_id k (by decide)]
    decide

theorem withChild_child (k : Kernel) : (View.withChild k).Child slot0 slot1 :=
  (fork_child_slot1 k).setStatus (by decide)

theorem withChild_parent (k : Kernel) : (View.withChild k).status slot0 = .running := rfl

theorem withChild_finds (k : Kernel) (hi : i ≤ 1) : (View.withChild k).Finds i slot1 := by
  refine ⟨hi, by simp [View.withChild], fun x _ hx => ?_⟩
  have hx0 : x = slot0 := Fin.ext (Nat.lt_one_iff.mp hx)
  rw [hx0, withChild_parent]
  decide

end Jos
