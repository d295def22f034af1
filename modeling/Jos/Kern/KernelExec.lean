import Jos.Kern.Trap

/-!
# What the scheduler and the environment table compute

`env_run`, `sched_halt` and `sched_yield` as functions on the kernel's state,
and equations that say the code computes them.
-/

namespace Jos

open Lib

variable {k : Kernel}

theorem exec_liftPmap_ok (h : exec m k.pmap = (.ok a, s)) :
    exec (liftPmap m) k = (.ok a, { k with pmap := s }) := by
  simp [liftPmap, exec_bind, exec_map, h]

theorem exec_liftPmap_error {m : PmapM α} (h : exec m k.pmap = (.error p, s)) :
    exec (liftPmap m) k = (.error (.panic p), { k with pmap := s }) := by
  simp [liftPmap, exec_bind, h]

theorem liftPmap_cases (m : PmapM α) (k : Kernel) :
    Triple (liftPmap m) k (fun a k' => ∃ s, exec m k.pmap = (.ok a, s) ∧ k' = { k with pmap := s })
      (fun x _ => ∃ p, x = .panic p) := by
  cases h : exec m k.pmap with
  | mk r s =>
    cases r with
    | ok a => exact .of_ok (exec_liftPmap_ok h) ⟨s, rfl, rfl⟩
    | error p => exact .of_error (exec_liftPmap_error h) ⟨p, rfl⟩

@[simp] theorem exec_modifyEnv (e : EnvPtr) (f : Env → Env) :
    exec (modifyEnv e f) k = (.ok (), k.setEnv e (f (k.envs e))) := rfl

@[simp] theorem exec_setCurenv (c : Nat) (e : Option EnvPtr) :
    exec (setCurenv c e) k = (.ok (), k.setCpu c { k.cpus c with env := e }) := rfl

@[simp] theorem exec_envPgdir (e : EnvPtr) : exec (envPgdir e) k = (.ok (k.envs e).pgdir, k) := rfl

/-! ## Fields after one change -/

@[simp] theorem setEnv_self : (k.setEnv e env).envs e = env := by simp [Kernel.setEnv]

theorem setEnv_of_ne (h : e' ≠ e) : (k.setEnv e env).envs e' = k.envs e' := by
  simp [Kernel.setEnv, h]

theorem setEnv_apply : (k.setEnv e env).envs e' = if e' = e then env else k.envs e' := by
  simp [Kernel.setEnv, Function.update_apply]

theorem setEnv_field (f : Env → α) (h : f env = f (k.envs x)) : f ((k.setEnv x env).envs e) = f (k.envs e) := by
  rw [setEnv_apply]
  split
  · rename_i he
    rw [h, he]
  · rfl

@[simp] theorem setEnv_pmap : (k.setEnv e env).pmap = k.pmap := rfl
@[simp] theorem setEnv_cpus : (k.setEnv e env).cpus = k.cpus := rfl
@[simp] theorem setEnv_curenv : (k.setEnv e env).curenv c = k.curenv c := rfl
@[simp] theorem setEnv_envFreeList : (k.setEnv e env).envFreeList = k.envFreeList := rfl
@[simp] theorem setCpu_pmap : (k.setCpu c cpu).pmap = k.pmap := rfl
@[simp] theorem setCpu_envs : (k.setCpu c cpu).envs = k.envs := rfl
@[simp] theorem setCpu_envFreeList : (k.setCpu c cpu).envFreeList = k.envFreeList := rfl

theorem setCpu_curenv : (k.setCpu c cpu).curenv c' = if c' = c then cpu.env else k.curenv c' := by
  simp only [Kernel.curenv, Kernel.setCpu, Function.update_apply]
  split <;> rfl

/-! ## Looking up an environment -/

def Kernel.resolve (k : Kernel) (cur : EnvPtr) (envid : Word) (checkperm : Bool) : Option EnvPtr :=
  if envid = 0 then some cur
  else if (k.envs (envx envid)).status = .free ∨ (k.envs (envx envid)).id ≠ envid then none
  else if checkperm ∧ envx envid ≠ cur ∧ (k.envs (envx envid)).parentId ≠ (k.envs cur).id then none
  else some (envx envid)

theorem exec_envid2env :
    exec (envid2env cur envid checkperm) k = (.ok (k.resolve cur envid checkperm), k) := by
  unfold envid2env Kernel.resolve
  simp only [exec_bind, exec_get]
  by_cases h0 : envid = 0
  · simp [h0]
  · by_cases h1 : (k.envs (envx envid)).status = .free ∨ (k.envs (envx envid)).id ≠ envid
    · simp only [if_neg h0, if_pos h1, exec_pure]
    · by_cases h2 : checkperm ∧ envx envid ≠ cur ∧ (k.envs (envx envid)).parentId ≠ (k.envs cur).id
      · simp only [if_neg h0, if_neg h1, if_pos h2, exec_pure]
      · simp only [if_neg h0, if_neg h1, if_neg h2, exec_pure]

/-- The caller itself, or an environment that is alive and, where that is
checked, its child. -/
theorem resolve_cases (h : k.resolve cur envid checkperm = some e) :
    e = cur ∨ ((k.envs e).status ≠ .free ∧ (k.envs e).id = envid ∧
      (checkperm = true → (k.envs e).parentId = (k.envs cur).id)) := by
  unfold Kernel.resolve at h
  split at h
  · exact .inl (Option.some.inj h).symm
  · split at h
    · simp at h
    · rename_i hlive
      push Not at hlive
      split at h
      · simp at h
      · rename_i hperm
        obtain rfl := Option.some.inj h
        by_cases hc : envx envid = cur
        · exact .inl hc
        · refine .inr ⟨hlive.1, hlive.2, fun hp => ?_⟩
          by_contra hne
          exact hperm ⟨hp, hc, hne⟩

/-! ## Leaving the kernel -/

/-- The environment that ran before is runnable again, if it was running. -/
def Kernel.preempt (k : Kernel) (c : Nat) : Kernel :=
  match k.curenv c with
  | some old =>
    if (k.envs old).status = .running then k.setEnv old { k.envs old with status := .runnable } else k
  | none => k

def Kernel.switch (k : Kernel) (c : Nat) (e : EnvPtr) : Kernel :=
  let k := (k.preempt c).setCpu c { (k.preempt c).cpus c with env := some e }
  k.setEnv e { k.envs e with status := .running, runs := (k.envs e).runs + 1 }

def Kernel.dispatch (k : Kernel) (c : Nat) (e : EnvPtr) : Kernel :=
  let k := if k.curenv c = some e then k else k.switch c e
  k.setEnv e { k.envs e with cpunum := c }

theorem exec_envRun : exec (envRun c e) k = (.error (.run e), k.dispatch c e) := by
  unfold envRun Kernel.dispatch Kernel.switch Kernel.preempt
  cases hc : k.curenv c with
  | none => simp [exec_bind, hc]
  | some old =>
    by_cases he : old = e
    · simp [exec_bind, hc, he]
    · by_cases hr : (k.envs old).status = .running
      · simp [exec_bind, hc, he, hr]
      · simp [exec_bind, hc, he, hr]

def Kernel.idle (k : Kernel) (c : Nat) : Kernel := k.setCpu c { status := .halted, env := none }

/-- Nothing is runnable, running or dying. -/
def Kernel.Stopped (k : Kernel) : Prop :=
  ∀ e : EnvPtr, (k.envs e).status = .free ∨ (k.envs e).status = .notRunnable

instance (k : Kernel) : Decidable k.Stopped :=
  inferInstanceAs (Decidable (∀ e : EnvPtr, (k.envs e).status = .free ∨ (k.envs e).status = .notRunnable))

theorem exec_schedHalt :
    exec (schedHalt c) k = if k.Stopped then (.error .monitor, k) else (.error .halt, k.idle c) := by
  unfold schedHalt
  by_cases h : k.Stopped
  · have h' := h
    unfold Kernel.Stopped at h'
    simp only [exec_bind, exec_get, if_pos h', if_pos h, exec_throw]
  · have h' := h
    unfold Kernel.Stopped at h'
    simp only [exec_bind, exec_get, if_neg h', if_neg h, exec_setCurenv, exec_modify, exec_throw]
    simp [Kernel.idle, Kernel.setCpu]

/-- How `sched_yield` leaves the kernel, and in which state. -/
def Kernel.yield (k : Kernel) (c : Nat) : Exit × Kernel :=
  match k.schedScan 1024 (k.firstSlot c) with
  | some i => if h : i < nenv then (.run ⟨i, h⟩, k.dispatch c ⟨i, h⟩) else (.wild, k)
  | none =>
    match k.curenv c with
    | some cur =>
      if (k.envs cur).status = .running then (.run cur, k.dispatch c cur)
      else if k.Stopped then (.monitor, k) else (.halt, k.idle c)
    | none => if k.Stopped then (.monitor, k) else (.halt, k.idle c)

theorem exec_schedYield : exec (schedYield c) k = (.error (k.yield c).1, (k.yield c).2) := by
  unfold schedYield Kernel.yield
  simp only [exec_bind, exec_get]
  cases k.schedScan 1024 (k.firstSlot c) with
  | some i =>
    by_cases hn : i < nenv
    · simp only [dif_pos hn, exec_envRun]
    · simp only [dif_neg hn, exec_throw]
  | none =>
    cases k.curenv c with
    | none =>
      simp only [exec_schedHalt]
      split <;> rfl
    | some cur =>
      by_cases hr : (k.envs cur).status = .running
      · simp only [if_pos hr, exec_envRun]
      · simp only [if_neg hr, exec_schedHalt]
        split <;> rfl

theorem schedScan_le (h : k.schedScan n idle = some i) (hi : idle ≤ nenv) :
    i ≤ nenv ∧ k.runnableAt i = true := by
  induction n generalizing idle with
  | zero => simp [Kernel.schedScan] at h
  | succ n ih =>
    unfold Kernel.schedScan at h
    split at h
    · rename_i hr
      obtain rfl := Option.some.inj h
      exact ⟨hi, hr⟩
    · refine ih h ?_
      split <;> omega

/-- The slots and the one past the table make a ring the scan goes round. -/
theorem schedScan_ring (h : k.schedScan n idle = some i) (hi : idle ≤ nenv) :
    ∃ j, j < n ∧ i = (idle + j) % (nenv + 1) := by
  induction n generalizing idle with
  | zero => simp [Kernel.schedScan] at h
  | succ n ih =>
    unfold Kernel.schedScan at h
    split at h
    · obtain rfl := Option.some.inj h
      exact ⟨0, Nat.succ_pos n, (Nat.mod_eq_of_lt (Nat.lt_succ_of_le hi)).symm⟩
    · have hnext : (if idle ≥ nenv then 0 else idle + 1) = (idle + 1) % (nenv + 1) := by
        split
        · rw [show idle = nenv by omega, Nat.mod_self]
        · exact (Nat.mod_eq_of_lt (by omega)).symm
      rw [hnext] at h
      obtain ⟨j, hj, rfl⟩ := ih h (Nat.le_of_lt_succ (Nat.mod_lt _ (Nat.succ_pos _)))
      refine ⟨j + 1, by omega, ?_⟩
      rw [Nat.mod_add_mod, Nat.add_assoc, Nat.add_comm 1 j]

theorem schedScan_ne (hc : k.curenv c = some e) (h : k.schedScan 1024 (k.firstSlot c) = some i) : i ≠ e.1 := by
  have hlt : e.1 < 1024 := e.2
  have hfirst : k.firstSlot c = e.1 + 1 := by simp [Kernel.firstSlot, hc]
  rw [hfirst] at h
  obtain ⟨j, hj, rfl⟩ := schedScan_ring h hlt
  rw [show nenv + 1 = 1025 from rfl]
  omega

theorem runnableAt_lt (h : i < nenv) : k.runnableAt i = true ↔ (k.envs ⟨i, h⟩).status = .runnable := by
  simp [Kernel.runnableAt, h]

/-- What `sched_yield` can do. -/
inductive Yields (k : Kernel) (c : Nat) : Exit × Kernel → Prop
  | next : (k.envs e).status = .runnable → k.curenv c ≠ some e → Yields k c (.run e, k.dispatch c e)
  | again : k.curenv c = some e → (k.envs e).status = .running → Yields k c (.run e, k.dispatch c e)
  | halt : (∀ e, k.curenv c = some e → (k.envs e).status ≠ .running) → Yields k c (.halt, k.idle c)
  | monitor : k.Stopped → Yields k c (.monitor, k)
  | wild : k.runnableAt nenv = true → Yields k c (.wild, k)

theorem yields (k : Kernel) (c : Nat) : Yields k c (k.yield c) := by
  have hfirst : k.firstSlot c ≤ nenv := by
    unfold Kernel.firstSlot
    split
    · exact Nat.zero_le _
    · rename_i cur _
      exact cur.2
  unfold Kernel.yield
  cases hs : k.schedScan 1024 (k.firstSlot c) with
  | some i =>
    obtain ⟨hi, hr⟩ := schedScan_le hs hfirst
    by_cases hn : i < nenv
    · simp only [dif_pos hn]
      exact .next ((runnableAt_lt hn).mp hr) fun hc => schedScan_ne hc hs rfl
    · simp only [dif_neg hn]
      obtain rfl : i = nenv := by omega
      exact .wild hr
  | none =>
    cases hc : k.curenv c with
    | some cur =>
      by_cases hr : (k.envs cur).status = .running
      · simp only [if_pos hr]
        exact .again hc hr
      · simp only [if_neg hr]
        split
        · exact .monitor ‹_›
        · refine .halt fun e he => ?_
          rw [hc] at he
          exact Option.some.inj he ▸ hr
    | none =>
      simp only
      split
      · exact .monitor ‹_›
      · exact .halt (by simp [hc])

end Jos
