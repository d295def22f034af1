import Jos.Kern.Smp

/-!
# Messages

`env_ipc_recving` says that an environment waits for a message, and
`env_status` that it does not run. Two system calls write both, and
`sys_env_set_status` writes the second alone: as long as it leaves those who
wait alone, only a blocked environment is sent to, and every message is
received once.
-/

namespace Jos

open Lib

section
variable {k : Kernel}

/-! ## Whoever waits is blocked -/

def Env.IpcOk (env : Env) : Prop := env.ipcRecving = true → env.status = .notRunnable ∨ env.status = .free

def Kernel.IpcOk (k : Kernel) : Prop := ∀ e, (k.envs e).IpcOk

/-- A system call that makes nobody runnable who waits for a message. -/
def Args.SparesWaiting (a : Args) (cur : EnvPtr) (k : Kernel) : Prop :=
  a.no = 8 → statusOf a.a2 = some .runnable → ∀ e, k.resolve cur a.a1 true = some e → (k.envs e).ipcRecving = false

def Event.SparesWaiting (k : Kernel) : Event → Prop
  | .trap c tf _ => tf.trapno = trapSyscall → ∀ cur, k.curenv c = some cur →
      tf.args.SparesWaiting cur (k.entered c cur tf)
  | _ => True

theorem Env.IpcOk.of_status (h : Env.IpcOk env) (hs : env.status ≠ .notRunnable) (hf : env.status ≠ .free) :
    env.ipcRecving = false := by
  cases hr : env.ipcRecving with
  | false => rfl
  | true => exact absurd (h hr) (not_or.mpr ⟨hs, hf⟩)

theorem Env.IpcOk.of_not (h : env.ipcRecving = false) : Env.IpcOk env := fun hr => by simp [h] at hr

section
variable (h : k.IpcOk)
include h

theorem Kernel.IpcOk.setEnv (he : env.IpcOk) : (k.setEnv e env).IpcOk := fun x => by
  rw [setEnv_apply]
  split
  · exact he
  · exact h x

theorem Kernel.IpcOk.sys (hs : Sys cur a k k') (hcon : a.SparesWaiting cur k) : k'.IpcOk := by
  cases hs with
  | envDying _ _ _ hr => exact h.setEnv (.of_not ((h _).of_status (by simp [hr]) (by simp [hr])))
  | envFreed _ _ _ _ _ => exact Kernel.IpcOk.setEnv (k := k.withPmap _) h fun _ => .inr rfl
  | exofork _ _ _ =>
    refine Kernel.IpcOk.setEnv (Kernel.IpcOk.setEnv (k := k.withPmap _) h (.of_not rfl)) (.of_not ?_)
    simp [Kernel.allocated, newEnv]
  | setStatus hno he hst =>
    refine h.setEnv ?_
    by_cases hr : statusOf a.a2 = some .runnable
    · exact .of_not (hcon hno hr _ he)
    · exact fun _ => .inl (statusOf_notRunnable hst hr)
  | setTrapframe _ _ _ | setUpcall _ _ => exact h.setEnv (h _)
  | send _ _ _ _ => exact h.setEnv (.of_not rfl)
  | sendPage _ _ _ _ _ _ _ => exact Kernel.IpcOk.setEnv (k := k.withPmap _) h (.of_not rfl)
  | _ => exact h

theorem Kernel.IpcOk.destroyed (hd : Destroyed c cur k k') : k'.IpcOk := by
  obtain ⟨w, s, -, rfl⟩ := hd
  exact Kernel.IpcOk.setEnv (k := k.withPmap s) h fun _ => .inr rfl

theorem Kernel.IpcOk.handles (hh : Handles c cur tf k k')
    (hcon : tf.trapno = trapSyscall → tf.args.SparesWaiting cur k) : k'.IpcOk := by
  cases hh with
  | ticked _ => exact h
  | syscall hn hs _ =>
    have h1 := h.sys hs (hcon hn)
    exact h1.setEnv (h1 cur)
  | sleeps _ hs =>
    cases hs with
    | yield _ => exact h
    | recv _ _ => exact h.setEnv fun _ => .inl rfl
    | destroyed _ _ hd => exact h.destroyed hd
  | destroyed _ hd => exact h.destroyed hd
  | fault _ _ _ => exact Kernel.IpcOk.setEnv (k := k.withPmap _) h (h cur)

theorem Kernel.IpcOk.entered : (k.entered c cur tf).IpcOk :=
  Kernel.IpcOk.setEnv (k := k.awake c) h (h cur)

theorem Kernel.IpcOk.ready (hr : Ready c tf k k') (hcon : (Event.trap c tf cr2).SparesWaiting k) : k'.IpcOk := by
  cases hr with
  | woken _ => exact h
  | reaped _ _ _ _ => exact Kernel.IpcOk.setEnv (k := (k.awake c).withPmap _) h fun _ => .inr rfl
  | handled _ hc _ hh => exact h.entered.handles hh fun hn => hcon hn _ hc

theorem Kernel.IpcOk.preempt : (k.preempt c).IpcOk := by
  unfold Kernel.preempt
  split
  · split
    · rename_i hr
      exact h.setEnv (.of_not ((h _).of_status (by simp [hr]) (by simp [hr])))
    · exact h
  · exact h

end

theorem preempt_recving : ((k.preempt c).envs e).ipcRecving = (k.envs e).ipcRecving := by
  unfold Kernel.preempt
  split
  · split
    · exact setEnv_field Env.ipcRecving rfl
    · rfl
  · rfl

theorem Kernel.IpcOk.dispatch (h : k.IpcOk) (hr : k.curenv c = some e ∨ (k.envs e).status = .runnable) :
    (k.dispatch c e).IpcOk := by
  unfold Kernel.dispatch
  split
  · exact h.setEnv (h e)
  · rename_i hne
    have hrun := hr.resolve_left hne
    have hnot : ((k.preempt c).envs e).ipcRecving = false :=
      preempt_recving.trans ((h e).of_status (by simp [hrun]) (by simp [hrun]))
    have hsw : (k.switch c e).IpcOk :=
      Kernel.IpcOk.setEnv (k := (k.preempt c).setCpu c _) h.preempt (.of_not hnot)
    exact hsw.setEnv (hsw e)

theorem Kernel.IpcOk.exits (h : k.IpcOk) (he : Exits k c p) : p.2.IpcOk := by
  cases he with
  | resume hc _ | handler hc _ => exact h.dispatch (.inl hc)
  | sched hy =>
    cases hy with
    | next hr _ => exact h.dispatch (.inr hr)
    | again hc _ => exact h.dispatch (.inl hc)
    | halt _ | monitor _ | wild _ => exact h

theorem Kernel.IpcOk.step (h : k.IpcOk) (hs : Step k ev k') (hcon : ev.SparesWaiting k) : k'.IpcOk := by
  cases hs.does with
  | start _ he _ => exact Kernel.IpcOk.exits (k := k.awake _) h he
  | trap hr he _ => exact (h.ready hr hcon).exits he
  | @create _ _ _ s _ _ _ => exact Kernel.IpcOk.setEnv (k := k.withPmap s) h (.of_not rfl)
  | store _ _ _ | stack _ | card => exact h

end

theorem Boots.ipcOk {mach : Machine} (h : Boots mach k) : k.IpcOk := by
  obtain ⟨b, rfl⟩ := h.envInited
  exact fun e _ => .inr rfl

/-- The runs in which nobody who waits for a message is made runnable by `sys_env_set_status`. -/
def PatientRuns : Kernel → Kernel → Prop := Runs fun k ev _ => ev.SparesWaiting k

theorem PatientRuns.ipcOk {mach : Machine} (hrun : PatientRuns k0 k) (hboot : Boots mach k0) : k.IpcOk :=
  Runs.invariant hrun hboot.ipcOk fun _ _ _ h hs hcon => h.step hs hcon

theorem Env.IpcOk.blocked (h : Env.IpcOk env) (hl : env.status ≠ .free) (hr : env.ipcRecving = true) :
    env.status = .notRunnable :=
  (h hr).resolve_right hl

/-- A message reaches nobody but an environment that waits for it. -/
theorem Sends.blocked (h : k.IpcOk) (hs : Sends cur a k r k') (hb : k.resolve cur a.a1 false = some b) (hl : k.Live b) :
    (r = 0 → (k.envs b).ipcRecving = true ∧ (k.envs b).status = .notRunnable) ∧
      ((k.envs b).status ≠ .notRunnable → r < 0 ∧ k' = k) := by
  cases hs with
  | refused _ hr => exact ⟨fun h0 => absurd h0 (Int.ne_of_lt hr), fun _ => ⟨hr, rfl⟩⟩
  | value he hrecv _ | page he hrecv _ _ _ _ =>
    obtain rfl := Option.some.inj (hb.symm.trans he)
    have hst := (h b).blocked hl hrecv
    exact ⟨fun _ => ⟨hrecv, hst⟩, fun hne => absurd hst hne⟩

/-! ## The messages of an environment -/

/-- What a message leaves in the fields of its receiver. -/
structure Message where
  value : Word
  sender : Word
  perm : Word

/-- The fields of an environment that a message writes. -/
structure Mailbox where
  recving : Bool
  message : Message

def Env.mailbox (env : Env) : Mailbox := ⟨env.ipcRecving, ⟨env.ipcValue, env.ipcFrom, env.ipcPerm⟩⟩

/-- The message of a `sys_ipc_try_send` of `cur` to `b`. -/
def Kernel.message (k : Kernel) (cur b : EnvPtr) (a : Args) : Message where
  value := a.a2
  sender := (k.envs cur).id
  perm := if (k.envs b).ipcDstva < utop ∧ a.a3 < utop then a.a4 else 0

def Event.Calls (k : Kernel) (cur : EnvPtr) (a : Args) : Event → Prop
  | .trap c tf _ => tf.cs &&& 3 = 3 ∧ tf.trapno = trapSyscall ∧ k.curenv c = some cur ∧
      (k.envs cur).status ≠ .dying ∧ tf.args = a
  | _ => False

theorem Event.Calls.curenv (h : Event.Calls k cur a ev) : ∃ c, k.curenv c = some cur := by
  cases ev with
  | trap c tf cr2 => exact ⟨c, h.2.2.1⟩
  | _ => exact h.elim

/-- `b` calls `sys_ipc_recv`, with an address that is accepted. -/
def Event.Receives (ev : Event) (b : EnvPtr) (k : Kernel) : Prop :=
  ∃ a, ev.Calls k b a ∧ a.no = 13 ∧ ¬ (a.a1 < utop ∧ a.a1 % 4096 ≠ 0)

def Event.Delivers (ev : Event) (b : EnvPtr) (m : Message) (k k' : Kernel) : Prop :=
  ∃ cur a, ev.Calls k cur a ∧ a.no = 12 ∧ k.resolve cur a.a1 false = some b ∧
    (k'.envs cur).tf.regs.eax = 0 ∧ m = k.message cur b a

/-- What the log of an environment tells, the newest entry first. -/
inductive IpcAct
  | recv
  | sent (m : Message)

/-- What a step adds to the log of slot `b`, which starts when the slot is taken. -/
inductive Writes (b : EnvPtr) (k : Kernel) (ev : Event) (k' : Kernel) : List IpcAct → List IpcAct → Prop
  | fresh : ¬ k.Live b → Writes b k ev k' l []
  | recv : k.Live b → ev.Receives b k → Writes b k ev k' l (.recv :: l)
  | sent : k.Live b → ev.Delivers b m k k' → Writes b k ev k' l (.sent m :: l)
  | none : k.Live b → ¬ ev.Receives b k → (∀ m, ¬ ev.Delivers b m k k') → Writes b k ev k' l l

/-- The runs of machine and log of slot `b` every step of which meets `ok`. -/
inductive Logged (ok : Kernel → Event → Kernel → Prop) (b : EnvPtr) (k0 : Kernel) : List IpcAct → Kernel → Prop
  | start : Logged ok b k0 [] k0
  | step : Logged ok b k0 l k → Step k ev k' → ok k ev k' → Writes b k ev k' l l' → Logged ok b k0 l' k'

/-- Each message is the answer to the `sys_ipc_recv` before it, and the last one
of these is open if the environment waits. -/
inductive Matched : Bool → List IpcAct → Prop
  | start : Matched false []
  | recv : Matched false l → Matched true (.recv :: l)
  | sent : Matched true l → Matched false (.sent m :: l)

section
variable {ok ok' : Kernel → Event → Kernel → Prop}

theorem Logged.mono (h : Logged ok b k0 l k) (hok : ∀ k ev k', ok k ev k' → ok' k ev k') : Logged ok' b k0 l k := by
  induction h with
  | start => exact .start
  | step _ hs hk hw ih => exact ih.step hs (hok _ _ _ hk) hw

theorem Logged.runs (h : Logged ok b k0 l k) : Runs ok k0 k := by
  induction h with
  | start => exact .refl
  | step _ hs hk _ ih => exact ih.tail ⟨_, hs, hk⟩

theorem writes_total (b : EnvPtr) (k : Kernel) (ev : Event) (k' : Kernel) (l : List IpcAct) :
    ∃ l', Writes b k ev k' l l' := by
  by_cases hl : k.Live b
  · by_cases hr : ev.Receives b k
    · exact ⟨_, .recv hl hr⟩
    · by_cases hs : ∃ m, ev.Delivers b m k k'
      · obtain ⟨m, hm⟩ := hs
        exact ⟨_, .sent hl hm⟩
      · exact ⟨_, .none hl hr fun m hm => hs ⟨m, hm⟩⟩
  · exact ⟨_, .fresh hl⟩

theorem Runs.logged (h : Runs ok k0 k) (b : EnvPtr) : ∃ l, Logged ok b k0 l k := by
  induction h with
  | refl => exact ⟨_, .start⟩
  | tail _ hstep ih =>
    obtain ⟨l, hl⟩ := ih
    obtain ⟨ev, hs, hk⟩ := hstep
    obtain ⟨l', hw⟩ := writes_total b _ ev _ l
    exact ⟨l', hl.step hs hk hw⟩

end

/-! ## What a step does to a mailbox -/

section
variable {k : Kernel}

/-- The mailbox of `b` is as it was, or `b` is new and waits for nothing. -/
def KeepsMail (b : EnvPtr) (k k' : Kernel) : Prop :=
  (k.Live b → (k'.envs b).mailbox = (k.envs b).mailbox) ∧ (¬ k.Live b → k'.Live b → (k'.envs b).ipcRecving = false)

theorem KeepsMail.of_envs (h : k'.envs b = k.envs b) : KeepsMail b k k' := by
  refine ⟨fun _ => congrArg Env.mailbox h, fun hn hl => absurd hl ?_⟩
  rw [Kernel.Live, h]
  exact hn

theorem KeepsMail.setLive (hl : k.Live e) (h : env.mailbox = (k.envs e).mailbox) : KeepsMail b k (k.setEnv e env) := by
  by_cases hb : b = e
  · subst hb
    exact ⟨fun _ => setEnv_field Env.mailbox h, fun hn => absurd hl hn⟩
  · exact .of_envs (setEnv_of_ne hb)

theorem KeepsMail.setFree (hl : ¬ k.Live e) (h : env.ipcRecving = false) : KeepsMail b k (k.setEnv e env) := by
  by_cases hb : b = e
  · subst hb
    refine ⟨fun hx => absurd hx hl, fun _ _ => ?_⟩
    rw [setEnv_self]
    exact h
  · exact .of_envs (setEnv_of_ne hb)

/-- Nothing but a message changes the mailbox of an environment that is there. -/
theorem Sys.keepsMail (hs : Sys cur a k k') (hslots : k.SlotsOk) (hcur : k.Live cur) (hno : a.no ≠ 12) :
    KeepsMail b k k' := by
  cases hs with
  | envDying _ he _ _ => exact .setLive (live_resolve hcur he) rfl
  | envFreed _ he _ _ _ => exact KeepsMail.setLive (k := k.withPmap _) (live_resolve hcur he) rfl
  | @exofork e s pgdir _ hf _ =>
    by_cases hb : b = e
    · subst hb
      refine ⟨fun hl => absurd hl (hslots.head_free hf), fun _ _ => ?_⟩
      simp [Kernel.forked, Kernel.allocated, newEnv]
    · exact .of_envs (forked_of_ne hb)
  | setStatus _ he _ | setTrapframe _ he _ | setUpcall _ he => exact .setLive (live_resolve hcur he) rfl
  | send hn _ _ _ | sendPage hn _ _ _ _ _ _ => exact absurd hn hno
  | nothing | pageAlloc _ _ _ _ _ | pageMap _ _ _ _ _ _ _ | pageUnmap _ _ _ _ | transmit _ => exact .of_envs rfl

theorem Sends.mailbox (hs : Sends cur a k r k') :
    (r = 0 ∧ k.resolve cur a.a1 false = some b ∧ (k.envs b).ipcRecving = true ∧
        (k'.envs b).mailbox = ⟨false, k.message cur b a⟩ ∧ k'.Live b) ∨
      (k'.envs b = k.envs b ∧ (k.resolve cur a.a1 false = some b → -16 < r ∧ r < 0)) := by
  cases hs with
  | refused h1 h2 => exact .inr ⟨rfl, fun _ => ⟨h1, h2⟩⟩
  | @value e he hrecv hpage =>
    by_cases hb : b = e
    · subst hb
      refine .inl ⟨rfl, he, hrecv, ?_, by simp [Kernel.Live, Kernel.delivered]⟩
      simp [Kernel.delivered, Env.mailbox, Kernel.message, hpage]
    · exact .inr ⟨setEnv_of_ne hb, fun hx => absurd (Option.some.inj (hx.symm.trans he)) hb⟩
  | @page e s he hrecv hdst hva _ _ =>
    by_cases hb : b = e
    · subst hb
      refine .inl ⟨rfl, he, hrecv, ?_, by simp [Kernel.Live, Kernel.delivered]⟩
      simp [Kernel.delivered, Env.mailbox, Kernel.message, hdst, lt_utop_of_not_badVa hva, Kernel.withPmap]
    · exact .inr ⟨setEnv_of_ne (k := k.withPmap s) hb, fun hx => absurd (Option.some.inj (hx.symm.trans he)) hb⟩

theorem KeepsMail.of_entered (h : KeepsMail b (k.entered c cur tf) k') : KeepsMail b k k' := by
  have hmail : ((k.entered c cur tf).envs b).mailbox = (k.envs b).mailbox :=
    setEnv_field (k := k.awake c) Env.mailbox (by rfl)
  obtain ⟨h1, h2⟩ := h
  rw [entered_live] at h1 h2
  rw [hmail] at h1
  exact ⟨h1, h2⟩

theorem KeepsMail.setEax (h : KeepsMail b k k') : KeepsMail b k (k'.setEax cur r) := by
  have hmail : ((k'.setEax cur r).envs b).mailbox = (k'.envs b).mailbox := setEnv_field Env.mailbox (by rfl)
  have hlive : (k'.setEax cur r).Live b ↔ k'.Live b := live_setEnv Iff.rfl
  refine ⟨fun hl => hmail.trans (h.1 hl), fun hn hl => ?_⟩
  exact (congrArg Mailbox.recving hmail).trans (h.2 hn (hlive.mp hl))

theorem Destroyed.keepsMail (hd : Destroyed c cur k k') (hcur : k.Live cur) : KeepsMail b k k' := by
  obtain ⟨w, s, -, rfl⟩ := hd
  exact KeepsMail.setLive (k := k.withPmap s) hcur rfl

theorem recv_never_returns (hn : a.no = 13) (hva : ¬ (a.a1 < utop ∧ a.a1 % 4096 ≠ 0)) :
    exec (Args.call a c cur) k ≠ (.ok r, k') := by
  intro h
  have hcall : a.call c cur = (do return BitVec.ofInt 32 (← sysIpcRecv c cur a.a1)) := by
    unfold Args.call syscall
    rw [hn]
    rfl
  have hnever : Triple (sysIpcRecv c cur a.a1) k (fun _ _ => False) (fun _ _ => True) := by
    unfold sysIpcRecv
    rw [if_neg hva]
    refine .bind .trivial fun _ k1 _ => .bind ((schedYield_leaves (R := fun _ => True) trivial).imp_error fun _ _ _ => trivial) fun _ _ h => h.elim
  rw [hcall] at h
  exact (Triple.bind hnever fun _ _ hf => hf.elim : Triple _ k (fun _ _ => False) _).ok h

theorem ofInt_ne_zero (h1 : -16 < code) (h2 : code < 0) : BitVec.ofInt 32 code ≠ 0#32 := by
  intro h
  bv_omega

section
variable (hr : Ready c tf k k1)
include hr

theorem Ready.call (hcall : (Event.trap c tf cr2).Calls k cur a) :
    (∃ k2 r, Sys cur a (k.entered c cur tf) k2 ∧ exec (a.call c cur) (k.entered c cur tf) = (.ok r, k2) ∧
        k1 = k2.setEax cur r) ∨ Sleeps c cur a (k.entered c cur tf) k1 := by
  obtain ⟨hcs, hn, hc, hd, rfl⟩ := hcall
  cases hr with
  | woken hcs' => exact absurd hcs hcs'
  | reaped _ hc' hd' _ =>
    obtain rfl := Option.some.inj (hc.symm.trans hc')
    exact absurd hd' hd
  | handled _ hc' _ hh =>
    obtain rfl := Option.some.inj (hc.symm.trans hc')
    cases hh with
    | ticked hne | destroyed hne _ => exact absurd hn hne
    | syscall _ hs hrun => exact .inl ⟨_, _, hs, hrun, rfl⟩
    | sleeps _ hs => exact .inr hs
    | fault hp _ _ =>
      rw [hn] at hp
      exact absurd hp (by decide)

theorem Ready.received (hrecv : (Event.trap c tf cr2).Receives b k) : k1 = (k.entered c b tf).blocked b tf.args.a1 := by
  obtain ⟨a, hcall, hno, hva⟩ := hrecv
  obtain rfl := hcall.2.2.2.2
  obtain ⟨k2, r, -, hrun, -⟩ | hs := hr.call hcall
  · exact absurd hrun (recv_never_returns hno hva)
  · cases hs with
    | yield h11 =>
      rw [hno] at h11
      exact absurd h11 (by decide)
    | recv _ _ => rfl
    | destroyed _ h13 _ => exact absurd hno h13

theorem Ready.delivered (hdel : (Event.trap c tf cr2).Delivers b m k k1) :
    (k.envs b).ipcRecving = true ∧ (k1.envs b).mailbox = ⟨false, m⟩ := by
  obtain ⟨cur, a, hcall, hno, hb, heax, rfl⟩ := hdel
  obtain ⟨k2, r, -, hrun, rfl⟩ | hs := hr.call hcall
  · obtain ⟨code, rfl, hsend⟩ := sends_of_call hno hrun
    have hmail : ((k2.setEax cur (BitVec.ofInt 32 code)).envs b).mailbox = (k2.envs b).mailbox :=
      setEnv_field Env.mailbox (by rfl)
    have hrecv : ((k.entered c cur tf).envs b).ipcRecving = (k.envs b).ipcRecving :=
      setEnv_field (k := k.awake c) Env.ipcRecving (by rfl)
    have hmessage : (k.entered c cur tf).message cur b a = k.message cur b a := by
      have hid : ((k.entered c cur tf).envs cur).id = (k.envs cur).id := setEnv_field (k := k.awake c) Env.id (by rfl)
      have hdst : ((k.entered c cur tf).envs b).ipcDstva = (k.envs b).ipcDstva :=
        setEnv_field (k := k.awake c) Env.ipcDstva (by rfl)
      rw [Kernel.message, hid, hdst]
      rfl
    obtain ⟨-, -, hwait, hbox, -⟩ | ⟨-, hneg⟩ := hsend.mailbox (b := b)
    · exact ⟨hrecv.symm.trans hwait, by rw [hmail, hbox, hmessage]⟩
    · obtain ⟨h1, h2⟩ := hneg (entered_resolve.trans hb)
      refine absurd ?_ (ofInt_ne_zero h1 h2)
      simpa [Kernel.setEax] using heax
  · cases hs with
    | yield h11 =>
      rw [hno] at h11
      exact absurd h11 (by decide)
    | recv h13 _ =>
      rw [hno] at h13
      exact absurd h13 (by decide)
    | destroyed h12 _ _ => exact absurd hno h12

theorem Ready.keepsMail (hslots : k.SlotsOk) (hcur : k.Current c)
    (hrecv : ¬ (Event.trap c tf cr2).Receives b k) (hdel : ∀ m, ¬ (Event.trap c tf cr2).Delivers b m k k1) :
    KeepsMail b k k1 := by
  cases hr with
  | woken _ => exact .of_envs rfl
  | @reaped cur s _ hc _ _ => exact KeepsMail.setLive (k := (k.awake c).withPmap s) (hcur _ hc) rfl
  | @handled cur _ hcs hc hd hh =>
    have hl : (k.entered c cur tf).Live cur := entered_live.mpr (hcur _ hc)
    have hslots' : (k.entered c cur tf).SlotsOk := Kernel.SlotsOk.setEnv (k := k.awake c) hslots Iff.rfl rfl
    refine KeepsMail.of_entered (?_ : KeepsMail b (k.entered c cur tf) _)
    cases hh with
    | ticked _ => exact .of_envs rfl
    | @syscall k2 r hn hs hrun =>
      refine KeepsMail.setEax ?_
      by_cases hno : tf.args.no = 12
      · obtain ⟨code, rfl, hsend⟩ := sends_of_call hno hrun
        obtain ⟨rfl, hb, -, hbox, -⟩ | ⟨hsame, -⟩ := hsend.mailbox (b := b)
        · refine absurd ⟨cur, tf.args, ⟨hcs, hn, hc, hd, rfl⟩, hno, entered_resolve.symm.trans hb, ?_, rfl⟩ (hdel _)
          simp [Kernel.setEax]
        · exact .of_envs hsame
      · exact hs.keepsMail hslots' hl hno
    | sleeps hn hs =>
      cases hs with
      | yield _ => exact .of_envs rfl
      | recv hno hva =>
        refine .of_envs (setEnv_of_ne ?_)
        rintro rfl
        exact hrecv ⟨tf.args, ⟨hcs, hn, hc, hd, rfl⟩, hno, hva⟩
      | destroyed _ _ hd => exact hd.keepsMail hl
    | destroyed _ hd => exact hd.keepsMail hl
    | @fault _ _ _ s _ _ _ => exact KeepsMail.setLive (k := (k.entered c cur tf).withPmap s) hl rfl

end

/-! ## Every message is received once -/

/-- A system call on CPU `c` that destroys an environment another CPU runs only
while it is `ENV_RUNNING`, and makes none of them runnable and wakes no zombie. -/
def Args.SparesRunning (a : Args) (c : Nat) (cur : EnvPtr) (k : Kernel) : Prop :=
  ∀ e, k.Elsewhere c e → k.resolve cur a.a1 true = some e →
    (a.no = 3 → (k.envs e).status = .running) ∧
    (a.no = 8 → statusOf a.a2 ≠ some .runnable ∧ (k.envs e).status ≠ .dying)

def Event.SparesRunning (k : Kernel) : Event → Prop
  | .trap c tf _ => tf.trapno = trapSyscall → ∀ cur, k.curenv c = some cur →
      tf.args.SparesRunning c cur (k.entered c cur tf)
  | _ => True

/-- Environments that run, wait and are free, each in its place. -/
structure Kernel.Orderly (k : Kernel) : Prop where
  apart : k.Apart
  ipc : k.IpcOk
  awake : k.curenv c = some e → (k.envs e).ipcRecving = false

theorem Kernel.Orderly.live (h : k.Orderly) (hc : k.curenv c = some e) : k.Live e := (h.apart.busy hc).1

/-- Nobody whom another CPU runs waits for a message. -/
theorem Kernel.Orderly.considerate (h : k.Orderly) (hcon : Event.SparesRunning k ev) : ev.Considerate k := by
  cases ev with
  | trap c tf cr2 =>
    intro hn cur hc e hel
    have hrecv : ((k.entered c cur tf).envs e).ipcRecving = false := by
      obtain ⟨c', -, hc'⟩ := hel
      exact (setEnv_field (k := k.awake c) Env.ipcRecving (by rfl)).trans (h.awake (entered_curenv.symm.trans hc'))
    exact ⟨fun hno hb => (hcon hn cur hc e hel hb).1 hno, fun hno hb => (hcon hn cur hc e hel hb).2 hno,
      fun _ _ => hrecv⟩
  | _ => trivial

theorem Exits.mailbox (he : Exits k c (x, k')) : (k'.envs b).mailbox = (k.envs b).mailbox := by
  obtain ⟨_, _, _, henv⟩ := he.env b
  rw [henv]
  rfl

theorem Exits.blocked (he : Exits k c (x, k')) (hx : x.GoesOn) (hst : (k.envs b).status = .notRunnable)
    (htrap : (k.envs b).tf.trapno ≠ trapPgflt) : k'.curenv c ≠ some b := by
  intro hc
  cases he with
  | resume _ hr =>
    rw [dispatch_curenv, if_pos rfl] at hc
    obtain rfl := Option.some.inj hc
    simp [hst] at hr
  | handler _ hn =>
    rw [dispatch_curenv, if_pos rfl] at hc
    obtain rfl := Option.some.inj hc
    exact htrap hn
  | sched hy =>
    cases hy with
    | next hr _ | again _ hr =>
      rw [dispatch_curenv, if_pos rfl] at hc
      obtain rfl := Option.some.inj hc
      simp [hst] at hr
    | halt _ => simp [Kernel.idle, setCpu_curenv] at hc
    | monitor _ | wild _ => cases hx

theorem Kernel.Orderly.ready (h : k.Orderly) (cr2 : Word) (hr : Ready c tf k k1) (hl : k.Live e)
    (hrecv : ¬ (Event.trap c tf cr2).Receives e k) (hnot : (k.envs e).ipcRecving = false) :
    (k1.envs e).ipcRecving = false := by
  by_cases hdel : ∃ m, (Event.trap c tf cr2).Delivers e m k k1
  · obtain ⟨m, hm⟩ := hdel
    exact congrArg Mailbox.recving (hr.delivered hm).2
  · have hkeep := hr.keepsMail h.apart.slots (fun _ hc => h.live hc) hrecv fun m hm => hdel ⟨m, hm⟩
    exact (congrArg Mailbox.recving (hkeep.1 hl)).trans hnot

theorem Kernel.Orderly.step (h : k.Orderly) (hs : Step k ev k') (hrun : ev.SparesRunning k)
    (hwait : ev.SparesWaiting k) : k'.Orderly := by
  have hapart := (h.apart.step hs (h.considerate hrun)).1
  have hipc := h.ipc.step hs hwait
  refine ⟨hapart, hipc, fun {c' e} hc' => ?_⟩
  cases hs.does with
  | @start c _ _ _ he _ =>
    refine (congrArg Mailbox.recving he.mailbox).trans ?_
    by_cases hcc : c' = c
    · subst hcc
      obtain hcur | hrunnable := he.current hc'
      · exact h.awake (awake_curenv.symm.trans hcur)
      · exact (h.ipc e).of_status (by simp [show (k.envs e).status = _ from hrunnable])
          (by simp [show (k.envs e).status = _ from hrunnable])
    · exact h.awake ((hs.curenv_of_ne fun heq => hcc (Option.some.inj heq).symm).symm.trans hc')
  | @trap c tf k1 _ _ cr2 hr he hgo =>
    refine (congrArg Mailbox.recving he.mailbox).trans ?_
    by_cases hcc : c' = c
    · subst hcc
      obtain hcur | hrunnable := he.current hc'
      · have hk := hr.current hcur
        refine h.ready cr2 hr (h.live hk) (fun hrecv => ?_) (h.awake hk)
        -- A blocked caller is not what this CPU runs next.
        obtain rfl := hr.received hrecv
        obtain ⟨a, ⟨-, hn, -, -, -⟩, -⟩ := hrecv
        refine he.blocked hgo ?_ ?_ hc'
        · simp [Kernel.blocked]
        · simp [Kernel.blocked, Kernel.entered, hn]
          decide
      · exact (h.ipc.ready hr hwait e).of_status (by simp [hrunnable]) (by simp [hrunnable])
    · have hk : k.curenv c' = some e := (hs.curenv_of_ne fun heq => hcc (Option.some.inj heq).symm).symm.trans hc'
      refine h.ready cr2 hr (h.live hk) (fun hrecv => ?_) (h.awake hk)
      obtain ⟨a, ⟨-, -, hc, -, -⟩, -⟩ := hrecv
      exact hcc (h.apart.once hk hc)
  | @create _ _ x s pgdir _ hf =>
    have hne : e ≠ x := by
      rintro rfl
      exact h.apart.slots.head_free hf (h.live hc')
    change (((k.withPmap s).setEnv x _).envs e).ipcRecving = false
    rw [setEnv_of_ne hne]
    exact h.awake hc'
  | store _ _ _ | stack _ | card => exact h.awake hc'

theorem Exits.delivers (he : Exits k1 c (x, k')) : Event.Delivers ev b m k k' ↔ Event.Delivers ev b m k k1 := by
  have hsame : ∀ cur, (k'.envs cur).tf = (k1.envs cur).tf := fun cur => by
    obtain ⟨_, _, _, henv⟩ := he.env cur
    rw [henv]
  simp only [Event.Delivers, hsame]

theorem Step.received (hs : Step k ev k') (hrecv : ev.Receives b k) :
    (k'.envs b).mailbox = ⟨true, (k.envs b).mailbox.message⟩ ∧ ∃ c, k.curenv c = some b := by
  cases hs.does with
  | trap hr he _ =>
    obtain rfl := hr.received hrecv
    obtain ⟨a, ⟨-, -, hc, -⟩, -⟩ := hrecv
    refine ⟨?_, _, hc⟩
    rw [he.mailbox]
    simp [Kernel.blocked, Kernel.entered, Env.mailbox]
  | _ =>
    obtain ⟨a, hcall, -⟩ := hrecv
    exact hcall.elim

theorem Step.delivered (hs : Step k ev k') (hdel : ev.Delivers b m k k') :
    (k.envs b).ipcRecving = true ∧ (k'.envs b).mailbox = ⟨false, m⟩ := by
  cases hs.does with
  | trap hr he _ =>
    rw [he.mailbox]
    exact hr.delivered (he.delivers.mp hdel)
  | _ =>
    obtain ⟨cur, a, hcall, -⟩ := hdel
    exact hcall.elim

theorem KeepsMail.exits (h : KeepsMail b k k1) (he : Exits k1 c (x, k')) : KeepsMail b k k' :=
  ⟨fun hl => he.mailbox.trans (h.1 hl), fun hn hl =>
    (congrArg Mailbox.recving he.mailbox).trans (h.2 hn (he.live.mp hl))⟩

theorem Kernel.Orderly.keepsMail (h : k.Orderly) (hs : Step k ev k') (hrecv : ¬ ev.Receives b k)
    (hdel : ∀ m, ¬ ev.Delivers b m k k') : KeepsMail b k k' := by
  cases hs.does with
  | @start c _ _ _ he _ =>
    have hkeep : KeepsMail b k (k.awake c) := .of_envs rfl
    exact hkeep.exits he
  | trap hr he _ =>
    exact (hr.keepsMail h.apart.slots (fun _ hc => h.live hc) hrecv fun m hm => hdel m (he.delivers.mpr hm)).exits he
  | @create _ _ _ s _ _ hf => exact KeepsMail.setFree (k := k.withPmap s) (h.apart.slots.head_free hf) rfl
  | store _ _ _ | stack _ | card => exact .of_envs rfl

/-- The log of `b` matches what its fields say. -/
structure LogOk (b : EnvPtr) (l : List IpcAct) (k : Kernel) : Prop where
  matched : Matched (k.envs b).ipcRecving l
  message : l = .sent m :: l' → (k.envs b).mailbox.message = m

theorem Kernel.Orderly.logStep (h : k.Orderly) (hlog : k.Live b → LogOk b l k) (hs : Step k ev k') (hw : Writes b k ev k' l l')
    (hl' : k'.Live b) : LogOk b l' k' := by
  cases hw with
  | fresh hn =>
    have hkeep : KeepsMail b k k' := by
      refine h.keepsMail hs (fun hrecv => hn ?_) fun m hdel => hn ?_
      · obtain ⟨-, c, hc⟩ := hs.received hrecv
        exact h.live hc
      · obtain ⟨cur, a, hcall, -, hb, -⟩ := hdel
        obtain ⟨c, hc⟩ := hcall.curenv
        exact live_resolve (h.live hc) hb
    have hnot := hkeep.2 hn hl'
    refine ⟨?_, fun hl => by simp at hl⟩
    rw [hnot]
    exact .start
  | recv hl hrecv =>
    obtain ⟨hmail, c, hc⟩ := hs.received hrecv
    have hmatched := (hlog hl).matched
    rw [h.awake hc] at hmatched
    refine ⟨?_, fun hl => by simp at hl⟩
    rw [show (k'.envs b).ipcRecving = true from congrArg Mailbox.recving hmail]
    exact hmatched.recv
  | sent hl hdel =>
    obtain ⟨hwait, hmail⟩ := hs.delivered hdel
    have hmatched := (hlog hl).matched
    rw [hwait] at hmatched
    refine ⟨?_, fun hl => ?_⟩
    · rw [show (k'.envs b).ipcRecving = false from congrArg Mailbox.recving hmail]
      exact hmatched.sent
    · obtain ⟨hm, -⟩ := List.cons.inj hl
      obtain rfl := IpcAct.sent.inj hm
      exact congrArg Mailbox.message hmail
  | none hl hrecv hdel =>
    have hmail := (h.keepsMail hs hrecv hdel).1 hl
    refine ⟨?_, fun heq => ?_⟩
    · rw [show (k'.envs b).ipcRecving = (k.envs b).ipcRecving from congrArg Mailbox.recving hmail]
      exact (hlog hl).matched
    · rw [hmail]
      exact (hlog hl).message heq

end

/-- The steps of a machine whose system calls spare those who run elsewhere and those who wait. -/
def Cautious (k : Kernel) (ev : Event) (_ : Kernel) : Prop := ev.SparesRunning k ∧ ev.SparesWaiting k

theorem Boots.orderly {mach : Machine} (h : Boots mach k) : k.Orderly := by
  refine ⟨h.apart, h.ipcOk, fun {c e} hc => ?_⟩
  obtain ⟨b, rfl⟩ := h.envInited
  simp [Kernel.curenv, Kernel.envInited, Boot.kernel] at hc

theorem Logged.logOk {mach : Machine} (hlog : Logged Cautious b k0 l k) (hboot : Boots mach k0) :
    k.Orderly ∧ (k.Live b → LogOk b l k) := by
  induction hlog with
  | start =>
    obtain ⟨b0, rfl⟩ := hboot.envInited
    exact ⟨hboot.orderly, fun hl => absurd rfl hl⟩
  | step _ hs hok hw ih => exact ⟨ih.1.step hs hok.1 hok.2, ih.1.logStep ih.2 hs hw⟩

end Jos
