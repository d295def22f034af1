import Jos.Kern.Family

/-!
# Several CPUs

`env_status` is the only record that an environment is running. As long as
the system calls spare the environments other CPUs run, no environment runs on
two CPUs, and none is freed under the CPU that runs it. The calls themselves do
not take that care: a parent can make a running child runnable again, and can
destroy it twice.
-/

namespace Jos

open Lib

section
variable {k : Kernel}

def Kernel.Elsewhere (k : Kernel) (c : Nat) (e : EnvPtr) : Prop := ∃ c', c' ≠ c ∧ k.curenv c' = some e

/-- What a CPU may find in `env_status` of the environment it runs. -/
def EnvStatus.Busy (st : EnvStatus) : Prop := st ≠ .free ∧ st ≠ .runnable

/-- What may become of the status of an environment another CPU runs. -/
inductive EnvStatus.Kept : EnvStatus → EnvStatus → Prop
  | same : Kept st st
  | dying : Kept .running .dying
  | notRunnable : st ≠ .dying → Kept st .notRunnable

/-- What may become of an environment another CPU runs. -/
structure Env.Spared (env env' : Env) : Prop where
  status : env.status.Kept env'.status
  pgdir : env'.pgdir = env.pgdir

theorem Env.Spared.refl (env : Env) : env.Spared env := ⟨.same, rfl⟩

theorem EnvStatus.Kept.busy (h : Kept st st') (hb : st.Busy) : st'.Busy := by
  cases h with
  | same => exact hb
  | dying => exact ⟨by decide, by decide⟩
  | notRunnable _ => exact ⟨by decide, by decide⟩

theorem EnvStatus.Kept.of_dying (h : Kept .dying st) : st = .dying := by
  cases h with
  | same => rfl
  | notRunnable h => exact absurd rfl h

/-- A system call on CPU `c` that spares the environments other CPUs run: it
destroys only those still `ENV_RUNNING`, makes none of them runnable, wakes no
zombie, and sends to none. -/
def Args.Considerate (a : Args) (c : Nat) (cur : EnvPtr) (k : Kernel) : Prop :=
  ∀ e, k.Elsewhere c e →
    (a.no = 3 → k.resolve cur a.a1 true = some e → (k.envs e).status = .running) ∧
    (a.no = 8 → k.resolve cur a.a1 true = some e →
      statusOf a.a2 ≠ some .runnable ∧ (k.envs e).status ≠ .dying) ∧
    (a.no = 12 → k.resolve cur a.a1 false = some e → (k.envs e).ipcRecving = false)

def Event.Considerate (k : Kernel) : Event → Prop
  | .trap c tf _ => tf.trapno = trapSyscall → ∀ cur, k.curenv c = some cur →
      tf.args.Considerate c cur (k.entered c cur tf)
  | _ => True

/-- Every environment that some CPU runs is marked so, and runs on that CPU only. -/
structure Kernel.Apart (k : Kernel) : Prop where
  slots : k.SlotsOk
  busy : k.curenv c = some e → (k.envs e).status.Busy
  once : k.curenv c = some e → k.curenv c' = some e → c = c'

/-! ## The environments of the other CPUs -/

theorem spared_setEnv (h : e = x → (k.envs e).Spared env) : (k.envs e).Spared ((k.setEnv x env).envs e) := by
  rw [setEnv_apply]
  split
  · exact h ‹_›
  · exact .refl _

theorem statusOf_notRunnable (h : statusOf w = some st) (hne : statusOf w ≠ some .runnable) : st = .notRunnable := by
  rw [h] at hne
  unfold statusOf at h
  split at h
  · exact absurd h.symm hne
  · split at h
    · exact (Option.some.inj h).symm
    · simp at h

theorem Sys.spares (hs : Sys cur a k k') (hslots : k.SlotsOk) (hcon : a.Considerate c cur k) (he : k.Elsewhere c e)
    (hb : (k.envs e).status.Busy) : (k.envs e).Spared (k'.envs e) := by
  obtain ⟨hdestroy, hstatus, hsend⟩ := hcon e he
  cases hs with
  | envDying _ _ _ hr => exact spared_setEnv fun h => ⟨by rw [h, hr]; exact .dying, by rw [h]⟩
  | envFreed hno hx _ hr _ =>
    refine spared_setEnv (k := k.withPmap _) fun h => ?_
    subst h
    exact absurd (hdestroy hno hx) hr
  | exofork _ hf _ =>
    unfold Kernel.forked Kernel.allocated
    simp only [setEnv_apply]
    split
    · rename_i hx
      exact absurd hb.1 (hx ▸ hslots.head_free hf)
    · exact .refl _
  | setStatus hno hx hst =>
    refine spared_setEnv fun h => ?_
    subst h
    obtain ⟨hne, hd⟩ := hstatus hno hx
    obtain rfl := statusOf_notRunnable hst hne
    exact ⟨.notRunnable hd, rfl⟩
  | setTrapframe _ _ _ => exact spared_setEnv fun h => by rw [h]; exact ⟨.same, rfl⟩
  | setUpcall _ _ => exact spared_setEnv fun h => by rw [h]; exact ⟨.same, rfl⟩
  | send hno hx hrecv _ =>
    refine spared_setEnv fun h => ?_
    subst h
    simp [hsend hno hx] at hrecv
  | sendPage hno hx hrecv _ _ _ _ =>
    refine spared_setEnv (k := k.withPmap _) fun h => ?_
    subst h
    simp [hsend hno hx] at hrecv
  | _ => exact .refl _

theorem Destroyed.spares (hd : Destroyed c cur k k') (hne : e ≠ cur) : k'.envs e = k.envs e := by
  obtain ⟨w, s, -, rfl⟩ := hd
  exact setEnv_of_ne (k := k.withPmap s) hne

theorem Handles.spares (hh : Handles c cur tf k k') (hslots : k.SlotsOk)
    (hcon : tf.trapno = trapSyscall → tf.args.Considerate c cur k) (he : k.Elsewhere c e) (hne : e ≠ cur)
    (hb : (k.envs e).status.Busy) : (k.envs e).Spared (k'.envs e) := by
  cases hh with
  | ticked _ => exact .refl _
  | syscall hn hs _ =>
    have h := hs.spares hslots (hcon hn) he hb
    rw [Kernel.setEax, setEnv_of_ne hne]
    exact h
  | sleeps _ hs =>
    cases hs with
    | yield _ => exact .refl _
    | recv _ _ =>
      rw [Kernel.blocked, setEnv_of_ne hne]
      exact .refl _
    | destroyed _ _ hd =>
      rw [hd.spares hne]
      exact .refl _
  | destroyed _ hd =>
    rw [hd.spares hne]
    exact .refl _
  | fault _ _ _ =>
    rw [Kernel.faulted, setEnv_of_ne hne]
    exact .refl _

theorem Kernel.Apart.ne_of_elsewhere (h : k.Apart) (hc : k.curenv c = some cur) (he : k.Elsewhere c e) : e ≠ cur := by
  rintro rfl
  obtain ⟨c', hne, hc'⟩ := he
  exact hne (h.once hc' hc)

theorem elsewhere_awake (he : k.Elsewhere c e) : (k.awake c').Elsewhere c e := by
  obtain ⟨c1, hne, hc1⟩ := he
  exact ⟨c1, hne, awake_curenv.trans hc1⟩

theorem Kernel.Apart.ready (h : k.Apart) (hcon : (Event.trap c tf cr2).Considerate k) (hr : Ready c tf k k')
    (he : k.Elsewhere c e) : (k.envs e).Spared (k'.envs e) := by
  have hb : (k.envs e).status.Busy := he.elim fun _ hc1 => h.busy hc1.2
  cases hr with
  | woken _ => exact .refl _
  | @reaped cur s _ hc _ _ =>
    have hsame : (((k.awake c).freed cur s).noCurenv c).envs e = k.envs e :=
      setEnv_of_ne (k := (k.awake c).withPmap s) (h.ne_of_elsewhere hc he)
    rw [hsame]
    exact .refl _
  | @handled cur _ _ hc _ hh =>
    have hne := h.ne_of_elsewhere hc he
    have hsame : (k.entered c cur tf).envs e = k.envs e := setEnv_of_ne (k := k.awake c) hne
    have hslots : (k.entered c cur tf).SlotsOk := Kernel.SlotsOk.setEnv (k := k.awake c) h.slots Iff.rfl rfl
    have hkept := hh.spares hslots (fun hn => hcon hn cur hc) (elsewhere_awake he) hne (by rw [hsame]; exact hb)
    rw [hsame] at hkept
    exact hkept

/-! ## The free slots -/

section
variable (h : k.SlotsOk)
include h

theorem Kernel.SlotsOk.sys (hcur : k.Live cur) (hs : Sys cur a k k') : k'.SlotsOk := by
  cases hs with
  | envDying _ he _ _ => exact h.setLive (live_resolve hcur he) (by simp) rfl
  | envFreed _ he _ _ _ => exact h.freed (live_resolve hcur he) _
  | exofork _ hf _ =>
    refine Kernel.SlotsOk.setEnv (h.fill hf ?_ _) (by simp [Kernel.allocated, newEnv]) rfl
    simp [newEnv]
  | setStatus _ he hst => exact h.setLive (live_resolve hcur he) (statusOf_ne_free hst) rfl
  | setTrapframe _ he _ => exact h.setEnv Iff.rfl rfl
  | setUpcall _ he => exact h.setEnv Iff.rfl rfl
  | send _ he _ _ => exact h.setLive (live_resolve hcur he) (by simp) rfl
  | sendPage _ he _ _ _ _ _ =>
    exact Kernel.SlotsOk.setLive (k := k.withPmap _) h (live_resolve hcur he) (by simp) rfl
  | _ => exact h

theorem Kernel.SlotsOk.destroyed (hcur : k.Live cur) (hd : Destroyed c cur k k') : k'.SlotsOk := by
  obtain ⟨w, s, -, rfl⟩ := hd
  exact h.freed hcur s

theorem Kernel.SlotsOk.ready (hcur : k.Current c) (hr : Ready c tf k k') : k'.SlotsOk := by
  cases hr with
  | woken _ => exact h
  | reaped _ hc _ _ => exact Kernel.SlotsOk.freed (k := k.awake c) h (hcur _ hc) _
  | @handled cur _ _ hc _ hh =>
    have hent : (k.entered c cur tf).SlotsOk := Kernel.SlotsOk.setEnv (k := k.awake c) h Iff.rfl rfl
    have hl : (k.entered c cur tf).Live cur := by simpa [Kernel.Live, Kernel.entered] using hcur _ hc
    cases hh with
    | ticked _ => exact hent
    | syscall _ hs _ => exact (hent.sys hl hs).setEnv Iff.rfl rfl
    | sleeps _ hs =>
      cases hs with
      | yield _ => exact hent
      | recv _ _ => exact hent.setLive hl (by simp) rfl
      | destroyed _ _ hd => exact hent.destroyed hl hd
    | destroyed _ hd => exact hent.destroyed hl hd
    | fault _ _ _ => exact Kernel.SlotsOk.setEnv (k := Kernel.withPmap _ _) hent Iff.rfl rfl

theorem Kernel.SlotsOk.preempt : (k.preempt c).SlotsOk := by
  unfold Kernel.preempt
  split
  · split
    · rename_i hr
      exact h.setEnv (by simp [hr]) rfl
    · exact h
  · exact h

theorem Kernel.SlotsOk.dispatch (hl : k.Live e) : (k.dispatch c e).SlotsOk := by
  unfold Kernel.dispatch
  split
  · exact h.setEnv Iff.rfl rfl
  · have hl' := (preempt_live (k := k) (c := c)).mpr hl
    have hsw : (k.switch c e).SlotsOk :=
      Kernel.SlotsOk.setLive (k := (k.preempt c).setCpu c _) h.preempt hl' (by simp) rfl
    exact hsw.setEnv Iff.rfl rfl

end

/-- The environment sent to its page fault handler, if this is how the kernel is left. -/
def Kernel.Faulting (k : Kernel) (c : Nat) (e : EnvPtr) : Prop :=
  k.curenv c = some e ∧ (k.envs e).tf.trapno = trapPgflt

theorem Kernel.SlotsOk.exits (h : k.SlotsOk) (he : Exits k c p)
    (hfault : ∀ e, k.Faulting c e → (k.envs e).status.Busy) : p.2.SlotsOk := by
  cases he with
  | resume _ hr => exact h.dispatch (by simp [Kernel.Live, hr])
  | handler hc htrap => exact h.dispatch (hfault _ ⟨hc, htrap⟩).1
  | sched hy =>
    cases hy with
    | next hr _ => exact h.dispatch (by simp [Kernel.Live, hr])
    | again _ hr => exact h.dispatch (by simp [Kernel.Live, hr])
    | halt _ => exact h
    | monitor _ => exact h
    | wild _ => exact h

/-! ## Leaving the kernel -/

theorem dispatch_other (hne : e ≠ x) (hc : k.curenv c ≠ some e) : (k.dispatch c x).envs e = k.envs e := by
  have hpre : (k.preempt c).envs e = k.envs e := by
    unfold Kernel.preempt
    split
    · rename_i hcur
      split
      · refine setEnv_of_ne fun h => hc ?_
        rw [hcur, h]
      · rfl
    · rfl
  unfold Kernel.dispatch
  split
  · exact setEnv_of_ne hne
  · rw [setEnv_of_ne hne, Kernel.switch, setEnv_of_ne hne, setCpu_envs, hpre]

theorem Exits.spares (he : Exits k c p) (hb : (k.envs e).status.Busy) (hc : k.curenv c ≠ some e) :
    p.2.envs e = k.envs e := by
  have hcur : ∀ {x}, k.curenv c = some x → e ≠ x := by
    rintro _ hx rfl
    exact hc hx
  cases he with
  | resume hx _ | handler hx _ => exact dispatch_other (hcur hx) hc
  | sched hy =>
    cases hy with
    | next hr _ =>
      refine dispatch_other ?_ hc
      rintro rfl
      exact hb.2 hr
    | again hx _ => exact dispatch_other (hcur hx) hc
    | halt _ => rfl
    | monitor _ => rfl
    | wild _ => rfl

theorem dispatch_status : ((k.dispatch c e).envs e).status =
    if k.curenv c = some e then (k.envs e).status else .running := by
  unfold Kernel.dispatch
  split
  · rw [setEnv_self]
  · simp only [Kernel.switch, setEnv_self]

theorem Exits.busy (he : Exits k c (x, k')) (hx : x.GoesOn)
    (hfault : ∀ e, k.Faulting c e → (k.envs e).status.Busy) (hcur : k'.curenv c = some e) :
    (k'.envs e).status.Busy := by
  have hrunning : EnvStatus.Busy .running := ⟨by decide, by decide⟩
  cases he with
  | resume hc hr =>
    rw [dispatch_curenv, if_pos rfl] at hcur
    obtain rfl := Option.some.inj hcur
    rw [dispatch_status, if_pos hc, hr]
    exact hrunning
  | handler hc htrap =>
    rw [dispatch_curenv, if_pos rfl] at hcur
    obtain rfl := Option.some.inj hcur
    rw [dispatch_status, if_pos hc]
    exact hfault _ ⟨hc, htrap⟩
  | sched hy =>
    cases hy with
    | next _ hne =>
      rw [dispatch_curenv, if_pos rfl] at hcur
      obtain rfl := Option.some.inj hcur
      rw [dispatch_status, if_neg hne]
      exact hrunning
    | again hc hr =>
      rw [dispatch_curenv, if_pos rfl] at hcur
      obtain rfl := Option.some.inj hcur
      rw [dispatch_status, if_pos hc, hr]
      exact hrunning
    | halt _ => simp [Kernel.idle, setCpu_curenv] at hcur
    | monitor _ => cases hx
    | wild _ => cases hx

theorem Sys.cur_status (hs : Sys cur a k k') (hslots : k.SlotsOk) (hcur : k.Live cur) :
    (k'.envs cur).status = (k.envs cur).status ∨ (k'.envs cur).tf.trapno = (k.envs cur).tf.trapno := by
  cases hs with
  | envDying _ _ hne _ => exact .inl (by rw [Kernel.dying, setEnv_of_ne hne.symm])
  | envFreed _ _ hne _ _ => exact .inl (by rw [Kernel.freed, setEnv_of_ne (k := k.withPmap _) hne.symm]; rfl)
  | exofork _ hf _ =>
    refine .inl ?_
    unfold Kernel.forked Kernel.allocated
    simp only [setEnv_apply]
    split
    · rename_i h
      exact absurd hcur (h ▸ hslots.head_free hf)
    · rfl
  | setStatus _ _ _ => exact .inr (setEnv_field (fun env => env.tf.trapno) rfl)
  | send _ _ _ _ => exact .inr (setEnv_field (fun env => env.tf.trapno) rfl)
  | sendPage _ _ _ _ _ _ _ => exact .inr (setEnv_field (k := k.withPmap _) (fun env => env.tf.trapno) rfl)
  | setTrapframe _ _ _ => exact .inl (setEnv_field (fun env => env.status) rfl)
  | setUpcall _ _ => exact .inl (setEnv_field (fun env => env.status) rfl)
  | _ => exact .inl rfl

/-- Only a busy environment is sent to its page fault handler. -/
theorem Kernel.Apart.fault (h : k.Apart) (hr : Ready c tf k k') (hf : k'.Faulting c e) :
    (k'.envs e).status.Busy := by
  obtain ⟨hc, htrap⟩ := hf
  cases hr with
  | woken _ => exact h.busy (awake_curenv.symm.trans hc)
  | reaped _ _ _ _ => simp [Kernel.noCurenv, setCpu_curenv] at hc
  | @handled cur _ _ hcur _ hh =>
    have hb : ((k.entered c cur tf).envs cur).status.Busy := by
      rw [Kernel.entered, setEnv_self]
      exact h.busy hcur
    have hcur' : (k.entered c cur tf).curenv c = some cur := entered_curenv.trans hcur
    cases hh with
    | ticked _ =>
      obtain rfl := Option.some.inj (hcur'.symm.trans hc)
      exact hb
    | @syscall k1 r hn hs _ =>
      have hc1 : k1.curenv c = some cur := by
        unfold Kernel.curenv
        rw [hs.cpus]
        exact hcur'
      obtain rfl := Option.some.inj (hc1.symm.trans hc)
      rw [Kernel.setEax, setEnv_self] at htrap ⊢
      obtain hst | htf := hs.cur_status (Kernel.SlotsOk.setEnv (k := k.awake c) h.slots Iff.rfl rfl) hb.1
      · rw [hst]
        exact hb
      · rw [htf, Kernel.entered, setEnv_self, hn] at htrap
        exact absurd htrap (by decide)
    | sleeps _ hs =>
      cases hs with
      | yield _ =>
        obtain rfl := Option.some.inj (hcur'.symm.trans hc)
        exact hb
      | recv _ _ =>
        obtain rfl := Option.some.inj (hcur'.symm.trans hc)
        rw [Kernel.blocked, setEnv_self]
        exact ⟨by simp, by simp⟩
      | destroyed _ _ hd =>
        obtain ⟨w, s, -, rfl⟩ := hd
        simp [Kernel.noCurenv, setCpu_curenv] at hc
    | destroyed _ hd =>
      obtain ⟨w, s, -, rfl⟩ := hd
      simp [Kernel.noCurenv, setCpu_curenv] at hc
    | fault _ _ _ =>
      obtain rfl := Option.some.inj (hcur'.symm.trans hc)
      rw [Kernel.faulted, setEnv_self]
      exact hb

theorem Ready.current (hr : Ready c tf k k') (hc : k'.curenv c = some e) : k.curenv c = some e := by
  cases hr with
  | woken _ => exact awake_curenv.symm.trans hc
  | reaped _ _ _ _ => simp [Kernel.noCurenv, setCpu_curenv] at hc
  | handled _ hcur _ hh =>
    rw [← entered_curenv (k := k)]
    cases hh with
    | ticked _ => exact hc
    | syscall _ hs _ =>
      unfold Kernel.curenv
      rw [← hs.cpus]
      exact hc
    | sleeps _ hs =>
      cases hs with
      | yield _ => exact hc
      | recv _ _ => exact hc
      | destroyed _ _ hd =>
        obtain ⟨w, s, -, rfl⟩ := hd
        simp [Kernel.noCurenv, setCpu_curenv] at hc
    | destroyed _ hd =>
      obtain ⟨w, s, -, rfl⟩ := hd
      simp [Kernel.noCurenv, setCpu_curenv] at hc
    | fault _ _ _ => exact hc

theorem Kernel.Apart.exits {k1 : Kernel} (h : k.Apart) (hslots : k1.SlotsOk)
    (hkept : ∀ e, k.Elsewhere c e → (k.envs e).Spared (k1.envs e))
    (hother : ∀ c', c' ≠ c → k1.curenv c' = k.curenv c') (hhere : ∀ e, k1.curenv c = some e → k.curenv c = some e)
    (hfault : ∀ e, k1.Faulting c e → (k1.envs e).status.Busy) (he : Exits k1 c (x, k')) (hx : x.GoesOn) :
    k'.Apart ∧ ∀ e, k.Elsewhere c e → (k.envs e).Spared (k'.envs e) := by
  have hbusy : ∀ e, k.Elsewhere c e → (k1.envs e).status.Busy := fun e hel =>
    (hkept e hel).status.busy (hel.elim fun _ hc => h.busy hc.2)
  have hnot : ∀ e, k.Elsewhere c e → k1.curenv c ≠ some e := fun e hel hc =>
    h.ne_of_elsewhere (hhere e hc) hel rfl
  have hsame : ∀ e, k.Elsewhere c e → k'.envs e = k1.envs e := fun e hel => he.spares (hbusy e hel) (hnot e hel)
  have hcpu : ∀ c', c' ≠ c → k'.curenv c' = k.curenv c' := fun c' hne =>
    (he.curenv_of_ne hne).trans (hother c' hne)
  -- What this CPU runs now is run by no other: it is what it ran before, or was runnable.
  have hone : ∀ c' e, c' ≠ c → k'.curenv c = some e → k'.curenv c' ≠ some e := by
    intro c' e hne hc hc'
    rw [hcpu c' hne] at hc'
    rcases he.current hc with hcur | hr
    · exact hnot e ⟨c', hne, hc'⟩ hcur
    · exact (hbusy e ⟨c', hne, hc'⟩).2 hr
  refine ⟨⟨hslots.exits he hfault, fun {c' e} hc => ?_, fun {c1 e c2} h1 h2 => ?_⟩, fun e hel => ?_⟩
  · by_cases hcc : c' = c
    · subst hcc
      exact he.busy hx hfault hc
    · have hel : k.Elsewhere c e := ⟨c', hcc, (hcpu c' hcc).symm.trans hc⟩
      rw [hsame e hel]
      exact hbusy e hel
  · by_cases hc1 : c1 = c
    · subst hc1
      by_contra hne
      exact hone c2 e (Ne.symm hne) h1 h2
    · by_cases hc2 : c2 = c
      · subst hc2
        exact absurd h1 (hone c1 e hc1 h2)
      · exact h.once ((hcpu c1 hc1).symm.trans h1) ((hcpu c2 hc2).symm.trans h2)
  · rw [hsame e hel]
    exact hkept e hel

/-- A step of the machine spares what the other CPUs run. -/
theorem Kernel.Apart.step (h : k.Apart) (hs : Step k ev k') (hcon : ev.Considerate k) :
    k'.Apart ∧ ∀ c e, ev.cpu ≠ some c → k.curenv c = some e → (k.envs e).Spared (k'.envs e) := by
  cases hs.does with
  | @start c _ _ _ he hx =>
    have hslots : (k.awake c).SlotsOk := h.slots
    obtain ⟨hok, hkept⟩ := h.exits hslots (fun _ _ => .refl _) (fun _ _ => awake_curenv)
      (fun _ hc => awake_curenv.symm.trans hc) (fun _ hf => h.busy (awake_curenv.symm.trans hf.1)) he hx
    exact ⟨hok, fun c' e hne hc => hkept e ⟨c', fun h => hne (congrArg some h.symm), hc⟩⟩
  | trap hr he hx =>
    obtain ⟨hok, hkept⟩ := h.exits (h.slots.ready (fun e hc => (h.busy hc).1) hr) (fun e hel => h.ready hcon hr hel)
      (fun _ hne => hr.curenv_of_ne hne) (fun _ => hr.current) (fun _ => h.fault hr) he hx
    exact ⟨hok, fun c' e hne hc => hkept e ⟨c', fun h => hne (congrArg some h.symm), hc⟩⟩
  | @create binary type x s pgdir _ hf =>
    have hsame : ∀ c e, k.curenv c = some e → (k.created x s pgdir binary.entry type).envs e = k.envs e := by
      intro c e hc
      refine setEnv_of_ne (k := k.withPmap s) ?_
      rintro rfl
      exact h.slots.head_free hf (h.busy hc).1
    refine ⟨⟨h.slots.fill hf (by simp [newEnv]) s, fun {c e} hc => ?_, h.once⟩, fun c e _ hc => ?_⟩
    · rw [hsame c e hc]
      exact h.busy hc
    · rw [hsame c e hc]
      exact .refl _
  | store _ _ _ | stack _ | card => exact ⟨⟨h.slots, h.busy, h.once⟩, fun _ _ _ _ => .refl _⟩

end

theorem Boots.apart {mach : Machine} (h : Boots mach k) : k.Apart := by
  obtain ⟨P, -, -, -, -, hok, -, -⟩ := h.machineOk
  obtain ⟨b, rfl⟩ := h.envInited
  have hnone : ∀ c, b.kernel.envInited.curenv c = none := fun c => by
    simp [Kernel.curenv, Kernel.envInited, Boot.kernel]
  exact ⟨hok.kernel.slots, fun {c e} hc => by simp [hnone c] at hc, fun {c e c'} hc => by simp [hnone c] at hc⟩

/-- The runs in which every system call spares the environments other CPUs run. -/
def ConsiderateRuns : Kernel → Kernel → Prop := Runs fun k ev _ => ev.Considerate k

theorem ConsiderateRuns.apart {mach : Machine} (hrun : ConsiderateRuns k0 k) (hboot : Boots mach k0) : k.Apart :=
  Runs.invariant hrun hboot.apart fun _ _ _ h hs hcon => (h.step hs hcon).1

/-- No environment is the current one of two CPUs, and the one a CPU takes up
is none that another CPU runs. -/
theorem one_cpu_per_env {mach : Machine} (hboot : Boots mach k0) (hrun : ConsiderateRuns k0 k) :
    (∀ c c' e, k.curenv c = some e → k.curenv c' = some e → c = c') ∧
      ∀ ev k', Step k ev k' → ev.Considerate k → ∀ c c' e, ev.cpu = some c → k'.curenv c = some e → c' ≠ c →
        k.curenv c' ≠ some e := by
  have h := hrun.apart hboot
  refine ⟨fun c c' e => h.once, fun ev k' hs hcon c c' e hev hc hne hc' => hne ?_⟩
  have hsame : k'.curenv c' = k.curenv c' :=
    hs.curenv_of_ne fun hev' => hne (Option.some.inj (hev.symm.trans hev')).symm
  exact (h.step hs hcon).1.once (hsame.trans hc') hc

/-- The environment a CPU runs is not freed by another CPU, and stays a zombie
once it is one. -/
theorem freed_by_own_cpu {mach : Machine} (hboot : Boots mach k0) (hrun : ConsiderateRuns k0 k) (hs : Step k ev k')
    (hcon : ev.Considerate k) (hne : ev.cpu ≠ some c) (hc : k.curenv c = some e) :
    k'.Live e ∧ (k'.envs e).pgdir = (k.envs e).pgdir ∧
      ((k.envs e).status = .dying → (k'.envs e).status = .dying) := by
  have h := hrun.apart hboot
  have hspared := (h.step hs hcon).2 c e hne hc
  refine ⟨(hspared.status.busy (h.busy hc)).1, hspared.pgdir, fun hd => ?_⟩
  exact EnvStatus.Kept.of_dying (hd ▸ hspared.status)

/-! ## A parent and a child on two CPUs -/

theorem considerate_of_only {k : Kernel} {a : Args} (h : k.OnlyCpu0) : a.Considerate 0 cur k := by
  rintro e ⟨c, hne, hc⟩
  rw [h c hne] at hc
  simp at hc

theorem Event.Single.considerate {k : Kernel} (hev : Event.Single ev) (h : k.OnlyCpu0) : ev.Considerate k := by
  cases ev with
  | trap c tf cr2 =>
    obtain rfl := hev c rfl
    intro _ cur _
    refine considerate_of_only fun c hc => ?_
    exact entered_curenv.trans (h c hc)
  | _ => trivial

theorem MachineOk.considerateRuns (h : MachineOk P k0) (hc : k0.OnlyCpu0) (hr : SingleRuns k0 k) :
    ConsiderateRuns k0 k := by
  induction hr with
  | refl => exact .refl
  | tail hr hstep ih =>
    obtain ⟨ev, hs, -, hev⟩ := hstep
    exact ih.tail ⟨ev, hs, hev.considerate (h.singleRuns hc hr).2⟩

theorem pc64_forks : ∃ (k0 : Kernel) (P : Platform) (k k1 k2 k3 : Kernel), Boots pc64 k0 ∧
    (StartRuns k0 k ∧ k.OnlyCpu0 ∧ ¬ k.Live slot1) ∧
    (Step k (.trap 0 (callFrame ⟨7, 0, 0, 0, 0, 0⟩) 0) k1 ∧ k1.OnlyCpu0 ∧ Shows P 14906 ((View.first k).fork slot0 slot1) k1) ∧
    (Step k1 (.trap 0 (callFrame ⟨8, 4097, 2, 0, 0, 0⟩) 0) k2 ∧ Shows P 14906 (View.withChild k) k2) ∧
    Step k2 (.start 1) k3 ∧ Shows P 14906 ((View.withChild k).run 1 slot1) k3 := by
  obtain ⟨k0, P, k, a, b, hboot, -, hrun, h⟩ := pc64_started (fun _ => 0#8) .user
  obtain ⟨k1, hs1, h1, -⟩ := h.shows.fork (c := 0) rfl rfl rfl (by decide)
  obtain ⟨k2, hs2, h2, -⟩ := h1.setStatus (c := 0) rfl rfl (fork_child_slot1 k) statusOf_two
  obtain ⟨k3, hs3, h3⟩ := Shows.enter (v := View.withChild k) h2 (c := 1) rfl (withChild_finds k (Nat.zero_le _))
  have hid : ((View.first k).fork slot0 slot1).id slot1 = 4097#32 := withChild_id k
  rw [hid] at hs2
  have hnot : ¬ k.Live slot1 := fun hl => hl (h.others (by decide))
  exact ⟨k0, P, k, k1, k2, k3, hboot, ⟨hrun, h.only, hnot⟩, ⟨hs1, fun c hc => h1.looks.curenv.trans (if_neg hc), h1⟩,
    ⟨hs2, h2⟩, hs3, h3⟩

theorem pc64_pair : ∃ (k0 : Kernel) (P : Platform) (k k' : Kernel), Boots pc64 k0 ∧ ConsiderateRuns k0 k' ∧
    Shows P 14906 ((View.withChild k).run 1 slot1) k' := by
  obtain ⟨k0, P, k, k1, k2, k3, hboot, ⟨hrun, honly, -⟩, ⟨hs1, honly1, -⟩, ⟨hs2, -⟩, hs3, h3⟩ := pc64_forks
  obtain ⟨P0, -, -, -, -, hok0, honly0, -⟩ := hboot.machineOk
  have hstart := hok0.considerateRuns honly0 (hrun.mono fun _ _ _ hb hev _ => ⟨hb, hev⟩)
  refine ⟨k0, P, k, k3, hboot, ((hstart.tail ⟨_, hs1, ?_⟩).tail ⟨_, hs2, ?_⟩).tail ⟨_, hs3, trivial⟩, h3⟩
  · exact Event.Single.considerate (fun c hc => (Option.some.inj hc).symm) honly
  · exact Event.Single.considerate (fun c hc => (Option.some.inj hc).symm) honly1

/-- The parent and the child on the CPUs of a machine with 64MB. -/
theorem one_cpu_per_env_pc64 : ∃ k0 k : Kernel, Boots pc64 k0 ∧ ConsiderateRuns k0 k ∧
    (k.curenv 0 = some slot0 ∧ k.curenv 1 = some slot1) ∧
    ∀ c c' e, k.curenv c = some e → k.curenv c' = some e → c = c' := by
  obtain ⟨k0, P, k, k', hboot, hrun, h⟩ := pc64_pair
  exact ⟨k0, k', hboot, hrun, ⟨h.looks.curenv, h.looks.curenv⟩, (one_cpu_per_env hboot hrun).1⟩

/-- The parent sets the status of the child that runs on the second CPU to
`ENV_RUNNABLE` and yields: now both CPUs run the child. -/
theorem set_status_runs_twice : ∃ k0 k k1 k2 : Kernel, Boots pc64 k0 ∧ ConsiderateRuns k0 k ∧
    (k.curenv 0 = some slot0 ∧ k.curenv 1 = some slot1) ∧
    Step k (.trap 0 (callFrame ⟨8, 4097, 2, 0, 0, 0⟩) 0) k1 ∧
    Step k1 (.trap 0 (callFrame ⟨11, 0, 0, 0, 0, 0⟩) 0) k2 ∧
    k2.curenv 0 = some slot1 ∧ k2.curenv 1 = some slot1 := by
  obtain ⟨k0, P, k, k', hboot, hrun, h⟩ := pc64_pair
  obtain ⟨k1, hs1, h1, -⟩ := h.setStatus (c := 0) rfl rfl (withChild_child k).run statusOf_two
  have hfinds : (((View.withChild k).run 1 slot1).setStatus slot1 .runnable).Finds (slot0.1 + 1) slot1 := by
    refine ⟨Nat.le_refl _, by simp, fun x h1 h2 => absurd h2 (Nat.not_lt.mpr h1)⟩
  obtain ⟨k2, hs2, h2⟩ := h1.yield (c := 0) rfl rfl hfinds
  have hid : ((View.withChild k).run 1 slot1).id slot1 = 4097#32 := withChild_id k
  rw [hid] at hs1
  exact ⟨k0, k', k1, k2, hboot, hrun, ⟨h.looks.curenv, h.looks.curenv⟩, hs1, hs2, h2.looks.curenv, h2.looks.curenv⟩

/-- The parent destroys the child that runs on the second CPU: it becomes a zombie there. -/
theorem freed_by_own_cpu_pc64 : ∃ k0 k k' : Kernel, Boots pc64 k0 ∧ ConsiderateRuns k0 k ∧
    k.curenv 1 = some slot1 ∧ Step k (.trap 0 (callFrame ⟨3, 4097, 0, 0, 0, 0⟩) 0) k' ∧
    k'.Live slot1 ∧ (k'.envs slot1).pgdir = (k.envs slot1).pgdir ∧
      ((k.envs slot1).status = .dying → (k'.envs slot1).status = .dying) := by
  obtain ⟨k0, P, k, k', hboot, hrun, h⟩ := pc64_pair
  obtain ⟨k1, hs1, h1, -⟩ := h.destroy_running (c := 0) rfl rfl (withChild_child k).run (by simp [View.run])
  have hid : ((View.withChild k).run 1 slot1).id slot1 = 4097#32 := withChild_id k
  have hc : k'.curenv 1 = some slot1 := h.looks.curenv
  rw [hid] at hs1
  refine ⟨k0, k', k1, hboot, hrun, hc, hs1, freed_by_own_cpu (c := 1) hboot hrun hs1 ?_ (by decide) hc⟩
  -- The only environment another CPU runs is the child, and it is running.
  rintro - cur - e ⟨c', hne, hc'⟩
  have hcur : ((View.withChild k).run 1 slot1).curenv c' = some e :=
    h.looks.curenv.symm.trans (entered_curenv.symm.trans hc')
  have hc1 : c' = 1 := by
    by_contra hc1
    simp [View.run, Function.update_of_ne hc1, View.withChild, View.fork, View.first, hne] at hcur
  subst hc1
  simp only [View.run, Function.update_self, Option.some.injEq] at hcur
  subst hcur
  refine ⟨fun _ _ => ?_, fun hno => absurd hno (by decide), fun hno => absurd hno (by decide)⟩
  refine (setEnv_field (k := k'.awake 0) Env.status (by rfl)).trans (h.looks.status.trans ?_)
  simp [View.run]

/-- The parent destroys the child that runs on the second CPU twice: the second
call frees it, and the CPU still runs it. -/
theorem destroyed_twice : ∃ k0 k k1 k2 : Kernel, Boots pc64 k0 ∧ ConsiderateRuns k0 k ∧
    (k.curenv 0 = some slot0 ∧ k.curenv 1 = some slot1) ∧
    Step k (.trap 0 (callFrame ⟨3, 4097, 0, 0, 0, 0⟩) 0) k1 ∧
    Step k1 (.trap 0 (callFrame ⟨3, 4097, 0, 0, 0, 0⟩) 0) k2 ∧
    (k1.envs slot1).status = .dying ∧ (k2.envs slot1).status = .free ∧ k2.curenv 1 = some slot1 := by
  obtain ⟨k0, P, k, k', hboot, hrun, h⟩ := pc64_pair
  obtain ⟨k1, hs1, h1, -⟩ := h.destroy_running (c := 0) rfl rfl (withChild_child k).run (by simp [View.run])
  obtain ⟨k2, hs2, h2⟩ := h1.destroy_other (c := 0) rfl rfl ((withChild_child k).run.setStatus (by decide)) (by simp)
  have hid : ((View.withChild k).run 1 slot1).id slot1 = 4097#32 := withChild_id k
  have hid' : (((View.withChild k).run 1 slot1).setStatus slot1 .dying).id slot1 = 4097#32 := withChild_id k
  rw [hid] at hs1
  rw [hid'] at hs2
  refine ⟨k0, k', k1, k2, hboot, hrun, ⟨h.looks.curenv, h.looks.curenv⟩, hs1, hs2, ?_, ?_, h2.looks.curenv⟩
  · simp [h1.looks.status]
  · simp [h2.looks.status, View.release]

end Jos
