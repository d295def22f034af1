import Jos.Kern.KernelExec
import Jos.Kern.PmapExec

/-!
# What one kernel entry can do

Everything a trap can do to the kernel's state, said once: `Sys` is the effect
of a system call that returns, `Sleeps` that of one that enters the scheduler,
`Ready` the state a trap reaches, and `Exits` how it leaves the kernel from
there. Every invariant of the kernel is proved over these cases and none
unfolds the code again.
-/

namespace Jos

open Lib

variable {k : Kernel}

/-! ## Changes of the environment table -/

def Kernel.withPmap (k : Kernel) (s : Pmap) : Kernel := { k with pmap := s }

def Kernel.freed (k : Kernel) (e : EnvPtr) (s : Pmap) : Kernel :=
  { (k.withPmap s).setEnv e { k.envs e with pgdir := 0, status := .free, link := k.envFreeList } with
    envFreeList := some e }

def newEnv (env : Env) (e : EnvPtr) (pgdir : Nat) (parentId : Word) : Env :=
  { env with
    pgdir := pgdir, id := nextEnvId env.id e, parentId := parentId, type := .user
    status := .runnable, runs := 0, tf := initialTf, pgfaultUpcall := 0, ipcRecving := false }

def Kernel.allocated (k : Kernel) (e : EnvPtr) (s : Pmap) (pgdir : Nat) (parentId : Word) : Kernel :=
  { (k.withPmap s).setEnv e (newEnv (k.envs e) e pgdir parentId) with
    envFreeList := (k.envs e).link }

/-- The message of `sys_ipc_try_send` in the target's fields, and the target runnable. -/
def Kernel.delivered (k : Kernel) (cur e : EnvPtr) (value perm : Word) : Kernel :=
  k.setEnv e { k.envs e with
    ipcPerm := perm, ipcRecving := false, ipcValue := value, ipcFrom := (k.envs cur).id
    status := .runnable
    tf := { (k.envs e).tf with regs := { (k.envs e).tf.regs with eax := 0 } } }

def Kernel.setEax (k : Kernel) (e : EnvPtr) (r : Word) : Kernel :=
  k.setEnv e { k.envs e with tf := { (k.envs e).tf with regs := { (k.envs e).tf.regs with eax := r } } }

def Kernel.noCurenv (k : Kernel) (c : Nat) : Kernel := k.setCpu c { k.cpus c with env := none }

theorem envFree_cases (k : Kernel) (e : EnvPtr) :
    Triple (envFree e) k
      (fun _ k' => ∃ s, exec (envFreeSpace (k.envs e).pgdir) k.pmap = (.ok (), s) ∧ k' = k.freed e s)
      (fun x _ => ∃ p, x = .panic p) := by
  refine .get_bind ?_
  refine .bind (liftPmap_cases _ k) ?_
  rintro _ _ ⟨s, hs, rfl⟩
  exact .modify ⟨s, hs, rfl⟩

theorem envSetupVm_none (s : Pmap) :
    Triple envSetupVm s (fun r s' => r = none → s = s') (fun _ _ => True) := by
  cases hf : s.pageFreeList with
  | none =>
    refine .ok_bind (exec_pageAlloc_none hf) ?_
    exact .pure fun _ => rfl
  | some p =>
    have hsome : Triple (pageAlloc true) s (fun r _ => r ≠ none) (fun _ _ => True) := by
      refine .get_bind ?_
      rw [hf]
      iterate 3 refine .bind .trivial fun _ _ _ => ?_
      exact .pure (by simp)
    refine .bind hsome ?_
    rintro (_ | q) t ht
    · simp at ht
    · iterate 6 refine .bind .trivial fun _ _ _ => ?_
      exact .pure (by simp)

theorem envAlloc_cases (k : Kernel) (parentId : Word) :
    Triple (envAlloc parentId) k
      (fun r k' => (∃ code, r = .inl code ∧ k' = k) ∨
        ∃ e s pgdir, r = .inr e ∧ k.envFreeList = some e ∧ exec envSetupVm k.pmap = (.ok (some pgdir), s) ∧
          k' = k.allocated e s pgdir parentId)
      (fun x _ => ∃ p, x = .panic p) := by
  refine .get_bind ?_
  cases hf : k.envFreeList with
  | none => exact .pure (.inl ⟨_, rfl, rfl⟩)
  | some e =>
    refine .bind (liftPmap_cases envSetupVm k) ?_
    rintro r _ ⟨s, hs, rfl⟩
    cases r with
    | none =>
      obtain rfl := (envSetupVm_none k.pmap).ok hs rfl
      exact .pure (.inl ⟨_, rfl, rfl⟩)
    | some pgdir =>
      refine .ok_bind (exec_modifyEnv ..) ?_
      refine .bind (.modify (Q := fun _ k' => k' = k.allocated e s pgdir parentId) ?_) ?_
      · simp [Kernel.allocated, newEnv, Kernel.withPmap]
      · rintro _ _ rfl
        exact .pure (.inr ⟨e, s, pgdir, rfl, rfl, hs, rfl⟩)

/-! ## Checking and reading user memory -/

theorem pgdirWalk_frame (pgdir : Nat) (va : Word) (s : Pmap) :
    Triple (pgdirWalk pgdir va false) s (fun _ s' => s = s') (fun _ _ => True) := by
  cases ht : entryPage (s.mem.read32 (pgdir + 4 * pdx va)) with
  | none => exact .of_ok (by rw [exec_pgdirWalk_false, ht]) rfl
  | some pt =>
    by_cases hlt : pt < s.layout.npages
    · exact .of_ok (by rw [exec_pgdirWalk_false, ht]; exact if_pos hlt) rfl
    · exact .of_error (by rw [exec_pgdirWalk_false, ht]; exact if_neg hlt) trivial

/-- What `user_mem_check` changes: nothing, or when it fails the address it reports. -/
def Checked (s : Pmap) (r : Int) (s' : Pmap) : Prop :=
  (r = 0 ∧ s = s') ∨ (r = -eFault ∧ ∃ a, s' = { s with userMemCheckAddr := a })

theorem userMemFault_frame (a : Word) (s : Pmap) :
    Triple (userMemFault a) s (Checked s) (fun _ _ => True) :=
  .of_ok (a := -eFault) rfl (.inr ⟨rfl, a, rfl⟩)

theorem userMemCheckLoop_frame (pgdir : Nat) (memEnd perm memStart : Word) (s : Pmap) :
    Triple (userMemCheckLoop pgdir memEnd perm memStart) s (Checked s) (fun _ _ => True) := by
  induction memStart using userMemCheckLoop.induct memEnd with
  | case1 memStart h hu =>
    rw [userMemCheckLoop, dif_pos h, dif_pos hu]
    exact userMemFault_frame memStart s
  | case2 memStart h hu ih =>
    rw [userMemCheckLoop, dif_pos h, dif_neg hu]
    refine .bind (pgdirWalk_frame pgdir memStart s) ?_
    rintro (_ | pte) _ rfl
    · exact userMemFault_frame memStart s
    · refine .bind (.of_ok (exec_load pte) (Q := fun _ s' => s = s') rfl) ?_
      rintro w _ rfl
      split
      · exact userMemFault_frame memStart s
      · exact ih
  | case3 memStart h =>
    rw [userMemCheckLoop, dif_neg h]
    exact .pure (.inl ⟨rfl, rfl⟩)

theorem vload8_frame (pgdir : Nat) (va : Word) (s : Pmap) :
    Triple (vload8 pgdir va) s (fun _ s' => s = s') (fun _ _ => True) := by
  refine .get_bind ?_
  dsimp only
  cases translate s.mem pgdir va with
  | none => exact .throw trivial
  | some x => exact .pure rfl

theorem readOnly_bind {m : M σ ε α} {f : α → M σ ε β} (hm : Triple m s (fun _ s' => s = s') (fun _ _ => True))
    (hf : ∀ a, Triple (f a) s (fun _ s' => s = s') (fun _ _ => True)) :
    Triple (m >>= f) s (fun _ s' => s = s') (fun _ _ => True) := by
  refine .bind hm ?_
  rintro a _ rfl
  exact hf a

theorem vload32_frame (pgdir : Nat) (va : Word) (s : Pmap) :
    Triple (vload32 pgdir va) s (fun _ s' => s = s') (fun _ _ => True) := by
  iterate 4 refine readOnly_bind (vload8_frame ..) fun _ => ?_
  exact .pure rfl

theorem vloadTrapframe_frame (pgdir : Nat) (tf : Word) (s : Pmap) :
    Triple (vloadTrapframe pgdir tf) s (fun _ s' => s = s') (fun _ _ => True) := by
  iterate 17 refine readOnly_bind (vload32_frame ..) fun _ => ?_
  exact .pure rfl

theorem readChars_frame (pgdir n : Nat) (p : Word) (s : Pmap) :
    Triple (readChars pgdir n p) s (fun _ s' => s = s') (fun _ _ => True) := by
  induction n generalizing p with
  | zero => exact .pure rfl
  | succ n ih =>
    refine readOnly_bind (vload8_frame pgdir p s) fun b => ?_
    split
    · exact .pure rfl
    · exact ih (p + 1)

theorem forM_vload8_frame (pgdir : Nat) (addr : Word) (l : List Nat) (s : Pmap) :
    Triple (l.forM fun k => do let _ ← vload8 pgdir (addr + BitVec.ofNat 32 k)) s (fun _ s' => s = s')
      (fun _ _ => True) :=
  .forM (I := fun _ s' => s = s') rfl fun k l t ht => by
    subst ht
    exact readOnly_bind (vload8_frame ..) fun _ => .pure rfl

/-! ## Destroying an environment -/

def Kernel.dying (k : Kernel) (e : EnvPtr) : Kernel := k.setEnv e { k.envs e with status := .dying }

/-- The environment `cur` of CPU `c` is gone, after a check of user memory that
may have reported an address. -/
def Destroyed (c : Nat) (cur : EnvPtr) (k k' : Kernel) : Prop :=
  ∃ w s, exec (envFreeSpace (k.envs cur).pgdir) { k.pmap with userMemCheckAddr := w } = (.ok (), s) ∧
    k' = (k.freed cur s).noCurenv c

/-- A panic, or the scheduler entered in a state of `R`. -/
def Leaves (c : Nat) (R : Kernel → Prop) (x : Exit) (k' : Kernel) : Prop :=
  (∃ p, x = .panic p) ∨ ∃ k1, R k1 ∧ Yields k1 c (x, k')

theorem Leaves.mono (h : Leaves c R x k') (hr : ∀ k1, R k1 → R' k1) : Leaves c R' x k' :=
  h.imp id fun ⟨k1, h1, hy⟩ => ⟨k1, hr k1 h1, hy⟩

theorem schedYield_leaves {R : Kernel → Prop} (h : R k) :
    Triple (schedYield c) k (fun _ _ => False) (Leaves c R) :=
  .of_error exec_schedYield (.inr ⟨k, h, yields k c⟩)

theorem envDestroy_self (hc : k.curenv c = some cur) (w : Word) :
    Triple (envDestroy c cur) (k.withPmap { k.pmap with userMemCheckAddr := w }) (fun _ _ => False)
      (Leaves c (Destroyed c cur k)) := by
  refine .get_bind ?_
  have hc' : (k.withPmap { k.pmap with userMemCheckAddr := w }).curenv c = some cur := hc
  rw [if_neg (by simp [hc'])]
  refine .bind ((envFree_cases _ _).imp_error fun _ _ h => .inl h) ?_
  rintro _ _ ⟨s, hs, rfl⟩
  rw [if_pos hc']
  refine .ok_bind (exec_setCurenv ..) ?_
  exact schedYield_leaves ⟨w, s, hs, rfl⟩

theorem envDestroy_cases (hc : k.curenv c = some cur) (e : EnvPtr) :
    Triple (envDestroy c e) k
      (fun _ k' => e ≠ cur ∧ (((k.envs e).status = .running ∧ k' = k.dying e) ∨
        ((k.envs e).status ≠ .running ∧
          ∃ s, exec (envFreeSpace (k.envs e).pgdir) k.pmap = (.ok (), s) ∧ k' = k.freed e s)))
      (Leaves c (Destroyed c cur k)) := by
  by_cases he : e = cur
  · subst he
    exact (envDestroy_self hc k.pmap.userMemCheckAddr).imp (fun _ _ h => h.elim)
  · have hce : k.curenv c ≠ some e := by
      rw [hc]
      exact fun h => he (Option.some.inj h).symm
    refine .get_bind ?_
    by_cases hr : (k.envs e).status = .running
    · rw [if_pos ⟨hr, hce⟩]
      exact .of_ok (exec_modifyEnv ..) ⟨he, .inl ⟨hr, rfl⟩⟩
    · rw [if_neg (fun h => hr h.1)]
      refine .bind ((envFree_cases k e).imp_error fun _ _ h => .inl h) ?_
      rintro _ _ ⟨s, hs, rfl⟩
      rw [if_neg hce]
      exact .pure ⟨he, .inr ⟨hr, s, hs, rfl⟩⟩

theorem userMemAssert_cases (hc : k.curenv c = some cur) (va len perm : Word) :
    Triple (userMemAssert c cur va len perm) k
      (fun _ k' => k = k' ∧ exec (userMemCheck (k.envs cur).pgdir va len (perm ||| pteU)) k.pmap = (.ok 0, k.pmap))
      (Leaves c (Destroyed c cur k)) := by
  refine .get_bind ?_
  refine .bind ((liftPmap_cases _ k).imp_error fun _ _ h => .inl h) ?_
  rintro r _ ⟨s, hs, rfl⟩
  obtain ⟨rfl, rfl⟩ | ⟨rfl, w, rfl⟩ := (userMemCheckLoop_frame ..).ok hs
  · exact .pure ⟨rfl, hs⟩
  · exact (envDestroy_self hc w).imp (fun _ _ h => h.elim)

theorem liftPmap_readOnly {m : PmapM α} (hm : Triple m k.pmap (fun _ s' => k.pmap = s') (fun _ _ => True)) :
    Triple (liftPmap m) k (fun a k' => k = k' ∧ exec m k.pmap = (.ok a, k.pmap)) (Leaves c R) := by
  refine (liftPmap_cases m k).mono ?_ fun _ _ h => .inl h
  rintro a _ ⟨s, hs, rfl⟩
  obtain rfl := hm.ok hs
  exact ⟨rfl, hs⟩

/-! ## System calls -/

structure Args where
  no : Word
  a1 : Word
  a2 : Word
  a3 : Word
  a4 : Word
  a5 : Word

def Args.call (a : Args) (c : Nat) (cur : EnvPtr) : KernelM Word := syscall c cur a.no a.a1 a.a2 a.a3 a.a4 a.a5

/-- The child `sys_exofork` made of slot `e`: not runnable, with the registers
of the parent but `0` as the result of the call. -/
def Kernel.forked (k : Kernel) (cur e : EnvPtr) (s : Pmap) (pgdir : Nat) : Kernel :=
  let k1 := k.allocated e s pgdir (k.envs cur).id
  k1.setEnv e { k1.envs e with
    status := .notRunnable
    tf := { (k1.envs cur).tf with regs := { (k1.envs cur).tf.regs with eax := 0 } } }

def Kernel.blocked (k : Kernel) (cur : EnvPtr) (dstva : Word) : Kernel :=
  k.setEnv cur { k.envs cur with ipcDstva := dstva, ipcRecving := true, status := .notRunnable }

/-- What a system call of `cur` that returns has done. -/
inductive Sys (cur : EnvPtr) (a : Args) (k : Kernel) : Kernel → Prop
  | nothing : Sys cur a k k
  | envDying : a.no = 3 → k.resolve cur a.a1 true = some e → e ≠ cur → (k.envs e).status = .running →
      Sys cur a k (k.dying e)
  | envFreed : a.no = 3 → k.resolve cur a.a1 true = some e → e ≠ cur → (k.envs e).status ≠ .running →
      exec (envFreeSpace (k.envs e).pgdir) k.pmap = (.ok (), s) → Sys cur a k (k.freed e s)
  | pageAlloc : a.no = 4 → k.resolve cur a.a1 true = some e → ¬ badVa a.a2 → ¬ badPerm a.a3 →
      exec (pageAllocAt (k.envs e).pgdir a.a2 a.a3) k.pmap = (.ok r, s) → Sys cur a k (k.withPmap s)
  | pageMap : a.no = 5 → k.resolve cur a.a1 true = some src → k.resolve cur a.a3 true = some dst →
      ¬ badVa a.a2 → ¬ badVa a.a4 → ¬ badPerm a.a5 →
      exec (pageMapAt (k.envs src).pgdir a.a2 (k.envs dst).pgdir a.a4 a.a5) k.pmap = (.ok r, s) →
      Sys cur a k (k.withPmap s)
  | pageUnmap : a.no = 6 → k.resolve cur a.a1 true = some e → ¬ badVa a.a2 →
      exec (pageRemove (k.envs e).pgdir a.a2) k.pmap = (.ok (), s) → Sys cur a k (k.withPmap s)
  | exofork : a.no = 7 → k.envFreeList = some e → exec envSetupVm k.pmap = (.ok (some pgdir), s) →
      Sys cur a k (k.forked cur e s pgdir)
  | setStatus : a.no = 8 → k.resolve cur a.a1 true = some e → statusOf a.a2 = some st →
      Sys cur a k (k.setEnv e { k.envs e with status := st })
  | setTrapframe : a.no = 9 → k.resolve cur a.a1 true = some e →
      exec (vloadTrapframe (k.envs cur).pgdir a.a2) k.pmap = (.ok tf, k.pmap) →
      Sys cur a k (k.setEnv e { k.envs e with tf := tf })
  | setUpcall : a.no = 10 → k.resolve cur a.a1 true = some e →
      Sys cur a k (k.setEnv e { k.envs e with pgfaultUpcall := a.a2 })
  | send : a.no = 12 → k.resolve cur a.a1 false = some e → (k.envs e).ipcRecving = true →
      ¬ ((k.envs e).ipcDstva < utop ∧ a.a3 < utop) → Sys cur a k (k.delivered cur e a.a2 0)
  | sendPage : a.no = 12 → k.resolve cur a.a1 false = some e → (k.envs e).ipcRecving = true →
      (k.envs e).ipcDstva < utop → ¬ badVa a.a3 → ¬ badPerm a.a4 →
      exec (ipcPageAt (k.envs cur).pgdir a.a3 (k.envs e).pgdir (k.envs e).ipcDstva a.a4) k.pmap = (.ok none, s) →
      Sys cur a k ((k.withPmap s).delivered cur e a.a2 a.a4)
  | transmit : a.no = 15 → Sys cur a k { k with tx := tx }

/-- The state in which a system call of `cur` enters the scheduler. -/
inductive Sleeps (c : Nat) (cur : EnvPtr) (a : Args) (k : Kernel) : Kernel → Prop
  | yield : a.no = 11 → Sleeps c cur a k k
  | recv : a.no = 13 → ¬ (a.a1 < utop ∧ a.a1 % 4096 ≠ 0) → Sleeps c cur a k (k.blocked cur a.a1)
  | destroyed : a.no ≠ 12 → a.no ≠ 13 → Destroyed c cur k k' → Sleeps c cur a k k'

/-- The shape of every system call. -/
abbrev Does (c : Nat) (cur : EnvPtr) (a : Args) (k : Kernel) (m : KernelM α) : Prop :=
  Triple m k (fun _ k' => Sys cur a k k') (Leaves c (Sleeps c cur a k))

theorem Does.int {m : KernelM Int} (h : Does c cur a k m) :
    Does c cur a k (do return BitVec.ofInt 32 (← m)) :=
  .bind h fun _ _ ht => .pure ht

theorem leaves_destroyed {a : Args} (h12 : a.no ≠ 12) (h13 : a.no ≠ 13) (h : Leaves c (Destroyed c cur k) x k') :
    Leaves c (Sleeps c cur a k) x k' :=
  h.mono fun _ => .destroyed h12 h13

section
variable {a : Args}

theorem envid2env_bind {f : Option EnvPtr → KernelM α} (h : Triple (f (k.resolve cur envid checkperm)) k Q E) :
    Triple (envid2env cur envid checkperm >>= f) k Q E := by
  refine .ok_bind exec_envid2env ?_
  exact h

theorem envPgdir_bind {f : Nat → KernelM α} (h : Triple (f (k.envs e).pgdir) k Q E) :
    Triple (envPgdir e >>= f) k Q E :=
  .ok_bind (exec_envPgdir e) h

theorem liftPmap_rule {m : PmapM α} (h : Triple m k.pmap (fun a s => Q a (k.withPmap s)) (fun _ _ => False)) :
    Triple (liftPmap m) k Q E := by
  obtain ⟨a, s, hexec, hq⟩ := h.returns
  exact .of_ok (exec_liftPmap_ok hexec) hq

/-! ## What the calls come to once their arguments are checked -/

section
variable {Q : Int → Kernel → Prop} {E : Exit → Kernel → Prop} (hno : ∀ r, r = -eInval ∨ r = -eBadEnv → Q r k)
include hno

theorem sysEnvSetStatus_rule (hgo : ∀ e st, k.resolve cur envid true = some e → statusOf status = some st →
    Q 0 (k.setEnv e { k.envs e with status := st })) : Triple (sysEnvSetStatus cur envid status) k Q E := by
  unfold sysEnvSetStatus
  cases hst : statusOf status with
  | none => exact .pure (hno _ (.inl rfl))
  | some st =>
    refine envid2env_bind ?_
    cases he : k.resolve cur envid true with
    | none => exact .pure (hno _ (.inr rfl))
    | some e => exact .ok_bind (exec_modifyEnv ..) (.pure (hgo e st he hst))

theorem sysEnvSetPgfaultUpcall_rule (hgo : ∀ e, k.resolve cur envid true = some e →
    Q 0 (k.setEnv e { k.envs e with pgfaultUpcall := func })) :
    Triple (sysEnvSetPgfaultUpcall cur envid func) k Q E := by
  refine envid2env_bind ?_
  cases he : k.resolve cur envid true with
  | none => exact .pure (hno _ (.inr rfl))
  | some e => exact .ok_bind (exec_modifyEnv ..) (.pure (hgo e he))

theorem sysPageAlloc_rule (hgo : ∀ e, k.resolve cur envid true = some e → ¬ badVa va → ¬ badPerm perm →
    Triple (liftPmap (pageAllocAt (k.envs e).pgdir va perm)) k Q E) :
    Triple (sysPageAlloc cur envid va perm) k Q E := by
  refine .ite (fun _ => .pure (hno _ (.inl rfl))) fun hva => .ite (fun _ => .pure (hno _ (.inl rfl))) fun hperm =>
    envid2env_bind ?_
  cases he : k.resolve cur envid true with
  | none => exact .pure (hno _ (.inr rfl))
  | some e => exact envPgdir_bind (hgo e he hva hperm)

theorem sysPageMap_rule (hgo : ∀ src dst, k.resolve cur srcenvid true = some src →
    k.resolve cur dstenvid true = some dst → ¬ badVa srcva → ¬ badVa dstva → ¬ badPerm perm →
    Triple (liftPmap (pageMapAt (k.envs src).pgdir srcva (k.envs dst).pgdir dstva perm)) k Q E) :
    Triple (sysPageMap cur srcenvid srcva dstenvid dstva perm) k Q E := by
  refine .ite (fun _ => .pure (hno _ (.inl rfl))) fun hva => .ite (fun _ => .pure (hno _ (.inl rfl))) fun hperm =>
    envid2env_bind ?_
  rw [not_or] at hva
  cases hsrc : k.resolve cur srcenvid true with
  | none => exact .pure (hno _ (.inr rfl))
  | some src =>
    refine envid2env_bind ?_
    cases hdst : k.resolve cur dstenvid true with
    | none => exact .pure (hno _ (.inr rfl))
    | some dst => exact envPgdir_bind (envPgdir_bind (hgo src dst hsrc hdst hva.1 hva.2 hperm))

theorem sysPageUnmap_rule (hgo : ∀ e, k.resolve cur envid true = some e → ¬ badVa va →
    Triple (liftPmap (pageRemove (k.envs e).pgdir va)) k (fun _ => Q 0) E) :
    Triple (sysPageUnmap cur envid va) k Q E := by
  refine .ite (fun _ => .pure (hno _ (.inl rfl))) fun hva => envid2env_bind ?_
  cases he : k.resolve cur envid true with
  | none => exact .pure (hno _ (.inr rfl))
  | some e => exact envPgdir_bind (.bind (hgo e he hva) fun _ _ hq => .pure hq)

end

theorem sysExofork_cases (k : Kernel) (cur : EnvPtr) :
    Triple (sysExofork cur) k
      (fun r k' => k' = k ∨ ∃ e s pgdir, k.envFreeList = some e ∧ exec envSetupVm k.pmap = (.ok (some pgdir), s) ∧
        k' = k.forked cur e s pgdir ∧ r = nextEnvId (k.envs e).id e)
      (fun x _ => ∃ p, x = .panic p) := by
  refine .get_bind (.bind (envAlloc_cases k _) ?_)
  rintro r _ (⟨code, rfl, rfl⟩ | ⟨e, s, pgdir, rfl, hf, hs, rfl⟩)
  · exact .pure (.inl rfl)
  · refine .get_bind (.ok_bind (t := k.forked cur e s pgdir) (exec_modifyEnv ..) (.get_bind (.pure (.inr ?_))))
    exact ⟨e, s, pgdir, hf, hs, rfl, by simp [Kernel.forked, Kernel.allocated, newEnv]⟩

/-! ## What each call does -/

theorem sysCputs_does (hc : k.curenv c = some cur) (hn : a.no = 0) : Does c cur a k (sysCputs c cur s len) := by
  refine .bind ((userMemAssert_cases hc s len pteU).imp_error fun _ _ => leaves_destroyed (by simp [hn]) (by simp [hn])) ?_
  rintro _ _ ⟨rfl, -⟩
  split
  · refine envPgdir_bind ((liftPmap_readOnly (readChars_frame ..)).imp ?_)
    rintro _ _ ⟨rfl, -⟩
    exact .nothing
  · exact .pure .nothing

theorem sysEnvDestroy_does (hc : k.curenv c = some cur) (hn : a.no = 3) :
    Does c cur a k (sysEnvDestroy c cur a.a1) := by
  refine envid2env_bind ?_
  cases he : k.resolve cur a.a1 true with
  | none => exact .pure .nothing
  | some e =>
    refine .bind ((envDestroy_cases hc e).imp_error fun _ _ => leaves_destroyed (by simp [hn]) (by simp [hn])) ?_
    rintro _ _ ⟨hne, ⟨hr, rfl⟩ | ⟨hr, s, hs, rfl⟩⟩
    · exact .pure (.envDying hn he hne hr)
    · exact .pure (.envFreed hn he hne hr hs)

theorem sysExofork_does (hn : a.no = 7) : Does c cur a k (sysExofork cur) := by
  refine (sysExofork_cases k cur).mono ?_ fun _ _ h => .inl h
  rintro _ _ (rfl | ⟨e, s, pgdir, hf, hs, rfl, -⟩)
  · exact .nothing
  · exact .exofork hn hf hs

theorem sysEnvSetStatus_does (hn : a.no = 8) : Does c cur a k (sysEnvSetStatus cur a.a1 a.a2) :=
  sysEnvSetStatus_rule (fun _ _ => .nothing) fun _ _ he hst => .setStatus hn he hst

theorem sysEnvSetTrapframe_does (hn : a.no = 9) : Does c cur a k (sysEnvSetTrapframe cur a.a1 a.a2) := by
  refine envid2env_bind ?_
  cases he : k.resolve cur a.a1 true with
  | none => exact .throw (.inl ⟨_, rfl⟩)
  | some e =>
    dsimp only
    split
    · exact .throw (.inl ⟨_, rfl⟩)
    · refine envPgdir_bind (.bind (liftPmap_readOnly (vloadTrapframe_frame ..)) ?_)
      rintro tf _ ⟨rfl, hs⟩
      exact .bind (.of_ok (exec_modifyEnv ..) (.setTrapframe hn he hs)) fun _ _ h => .pure h

theorem sysEnvSetPgfaultUpcall_does (hn : a.no = 10) : Does c cur a k (sysEnvSetPgfaultUpcall cur a.a1 a.a2) :=
  sysEnvSetPgfaultUpcall_rule (fun _ _ => .nothing) fun _ he => .setUpcall hn he

theorem sysPageAlloc_does (hn : a.no = 4) : Does c cur a k (sysPageAlloc cur a.a1 a.a2 a.a3) := by
  refine sysPageAlloc_rule (fun _ _ => .nothing) fun e he hva hperm => ?_
  refine (liftPmap_cases _ k).mono ?_ fun _ _ h => .inl h
  rintro r _ ⟨s, hs, rfl⟩
  exact .pageAlloc hn he hva hperm hs

theorem sysPageMap_does (hn : a.no = 5) : Does c cur a k (sysPageMap cur a.a1 a.a2 a.a3 a.a4 a.a5) := by
  refine sysPageMap_rule (fun _ _ => .nothing) fun src dst hsrc hdst hva hva' hperm => ?_
  refine (liftPmap_cases _ k).mono ?_ fun _ _ h => .inl h
  rintro r _ ⟨s, hs, rfl⟩
  exact .pageMap hn hsrc hdst hva hva' hperm hs

theorem sysPageUnmap_does (hn : a.no = 6) : Does c cur a k (sysPageUnmap cur a.a1 a.a2) := by
  refine sysPageUnmap_rule (fun _ _ => .nothing) fun e he hva => ?_
  refine (liftPmap_cases _ k).mono ?_ fun _ _ h => .inl h
  rintro _ _ ⟨s, hs, rfl⟩
  exact .pageUnmap hn he hva hs

theorem tableEntry_some (pgdir : Nat) (va : Word) (s : Pmap) :
    Triple (tableEntry pgdir va) s (fun r _ => r ≠ none) (fun _ _ => True) := by
  exact .bind .trivial fun _ _ _ => .bind .trivial fun _ _ _ => .pure (Option.some_ne_none _)

theorem pageAlloc_none (zero : Bool) (s : Pmap) :
    Triple (pageAlloc zero) s (fun r s' => r = none → s = s') (fun _ _ => True) := by
  cases hf : s.pageFreeList with
  | none => exact .of_ok (exec_pageAlloc_none hf) fun _ => rfl
  | some pp =>
    refine .mono (Q := fun r _ => r = some pp) ?_ (fun r _ hr hn => by simp [hr] at hn) fun _ _ h => h
    refine .bind (.get (Q := fun a _ => s = a) rfl) ?_
    rintro _ _ rfl
    rw [hf]
    refine .bind .trivial fun _ _ _ => ?_
    split
    · exact .bind .trivial fun _ _ _ => .bind .trivial fun _ _ _ => .pure rfl
    · exact .pure rfl

theorem pgdirWalk_none (pgdir : Nat) (va : Word) (create : Bool) (s : Pmap) :
    Triple (pgdirWalk pgdir va create) s (fun r s' => r = none → s = s') (fun _ _ => True) := by
  have hentry : ∀ t, Triple (tableEntry pgdir va) t (fun r s' => r = none → s = s') (fun _ _ => True) := fun t =>
    (tableEntry_some pgdir va t).imp (fun _ _ hr hn => absurd hn hr)
  refine .bind (.of_ok (exec_load _) (Q := fun _ s' => s = s') rfl) ?_
  rintro pde _ rfl
  split
  · split
    · refine .bind (pageAlloc_none true s) ?_
      rintro (_ | pp) t ht
      · exact .pure fun _ => ht rfl
      · exact .bind .trivial fun _ _ _ => .bind .trivial fun _ _ _ => hentry _
    · exact .pure fun _ => rfl
  · exact hentry s

theorem pageInsert_fails (pgdir pp : Nat) (va perm : Word) (s : Pmap) :
    Triple (pageInsert pgdir pp va perm) s (fun r s' => r < 0 → s = s') (fun _ _ => True) := by
  refine .bind (pgdirWalk_none pgdir va true s) ?_
  rintro (_ | ptep) t ht
  · exact .pure fun _ => ht rfl
  · have hzero : ∀ u, Triple (pure 0 : PmapM Int) u (fun r s' => r < 0 → s = s') (fun _ _ => True) := fun u =>
      .pure fun hlt => absurd hlt (by decide)
    refine .bind .trivial fun _ _ _ => .bind .trivial fun _ _ _ => ?_
    split
    · exact .bind .trivial fun _ _ _ => .bind .trivial fun _ _ _ => .bind .trivial fun _ _ _ =>
        .bind .trivial fun _ _ _ => hzero _
    · exact .bind .trivial fun _ _ _ => .bind .trivial fun _ _ _ => .bind .trivial fun _ _ _ => hzero _

theorem pageLookup_frame (pgdir : Nat) (va : Word) (cell : Nat) (s : Pmap) :
    Triple (pageLookup pgdir va cell) s (fun _ s' => s = s') (fun _ _ => True) := by
  refine readOnly_bind (pgdirWalk_frame pgdir va s) fun r => ?_
  cases r with
  | none => exact .pure rfl
  | some ptep =>
    refine readOnly_bind (.of_ok (exec_load ptep) rfl) fun pte => ?_
    split
    · exact .pure rfl
    · refine readOnly_bind (readOnly_bind (.get rfl) fun t => ?_) fun _ => .pure rfl
      split
      · exact .throw trivial
      · exact .pure rfl

theorem ipcPageAt_fails (src : Nat) (srcva : Word) (dst : Nat) (dstva perm : Word) (s : Pmap) :
    Triple (ipcPageAt src srcva dst dstva perm) s (fun r s' => ∀ code, r = some code → s = s' ∧ -16 < code ∧ code < 0)
      (fun _ _ => True) := by
  have hfail : ∀ (code : Int), -16 < code → code < 0 → Triple (pure (some code) : PmapM (Option Int)) s
      (fun r s' => ∀ code, r = some code → s = s' ∧ -16 < code ∧ code < 0) (fun _ _ => True) := fun code h h' =>
    .pure (by rintro _ ⟨⟩; exact ⟨rfl, h, h'⟩)
  refine .get_bind ?_
  refine .bind (pageLookup_frame src srcva s.uninit s) ?_
  rintro ⟨_ | pp, pte⟩ _ rfl
  · exact hfail _ (by decide) (by decide)
  · dsimp only
    split
    · exact hfail _ (by decide) (by decide)
    · split
      · exact .throw trivial
      · refine .bind (.of_ok (exec_load pte) (Q := fun _ s' => s = s') rfl) ?_
        rintro w _ rfl
        split
        · exact hfail _ (by decide) (by decide)
        · refine .bind (pageInsert_fails dst pp dstva perm s) fun r t hr => ?_
          split
          · rename_i hlt
            obtain rfl := hr hlt
            exact hfail _ (by decide) (by decide)
          · exact .pure fun _ h => by simp at h

/-- What a `sys_ipc_try_send` of `cur` that returns `r` has done. -/
inductive Sends (cur : EnvPtr) (a : Args) (k : Kernel) : Int → Kernel → Prop
  | refused : -16 < r → r < 0 → Sends cur a k r k
  | value : k.resolve cur a.a1 false = some e → (k.envs e).ipcRecving = true →
      ¬ ((k.envs e).ipcDstva < utop ∧ a.a3 < utop) → Sends cur a k 0 (k.delivered cur e a.a2 0)
  | page : k.resolve cur a.a1 false = some e → (k.envs e).ipcRecving = true → (k.envs e).ipcDstva < utop →
      ¬ badVa a.a3 → ¬ badPerm a.a4 →
      exec (ipcPageAt (k.envs cur).pgdir a.a3 (k.envs e).pgdir (k.envs e).ipcDstva a.a4) k.pmap = (.ok none, s) →
      Sends cur a k 0 ((k.withPmap s).delivered cur e a.a2 a.a4)

theorem Sends.sys (h : Sends cur a k r k') (hn : a.no = 12) : Sys cur a k k' := by
  cases h with
  | refused _ _ => exact .nothing
  | value he hrecv hpage => exact .send hn he hrecv hpage
  | page he hrecv hdst hva hperm hs => exact .sendPage hn he hrecv hdst hva hperm hs

theorem sysIpcTrySend_sends :
    Triple (sysIpcTrySend cur a.a1 a.a2 a.a3 a.a4) k (Sends cur a k) (Leaves c (Sleeps c cur a k)) := by
  refine envid2env_bind ?_
  cases he : k.resolve cur a.a1 false with
  | none => exact .pure (.refused (by decide) (by decide))
  | some e =>
    refine Triple.get_bind ?_
    dsimp only
    split
    · exact .pure (.refused (by decide) (by decide))
    · rename_i hrecv
      rw [Bool.not_eq_false] at hrecv
      split
      · exact .pure (.refused (by decide) (by decide))
      · rename_i halign
        split
        · rename_i hpage
          have hva : ¬ badVa a.a3 := by
            rintro (h | h)
            · exact BitVec.not_le.mpr hpage.2 h
            · exact halign ⟨hpage.2, h⟩
          split
          · exact .pure (.refused (by decide) (by decide))
          · rename_i hperm
            refine envPgdir_bind (envPgdir_bind (.bind ((liftPmap_cases _ k).imp_error fun _ _ h => .inl h) ?_))
            rintro (_ | r) _ ⟨s, hs, rfl⟩
            · refine Triple.get_bind (.bind (.of_ok (exec_modifyEnv ..) ?_) fun _ _ h => .pure h)
              exact .page he hrecv hpage.1 hva hperm hs
            · obtain ⟨rfl, hr, hr'⟩ := (ipcPageAt_fails ..).ok hs r rfl
              exact .pure (.refused hr hr')
        · rename_i hpage
          refine Triple.get_bind (.bind (.of_ok (exec_modifyEnv ..) ?_) fun _ _ h => .pure h)
          exact .value he hrecv hpage

theorem sysIpcTrySend_does (hn : a.no = 12) : Does c cur a k (sysIpcTrySend cur a.a1 a.a2 a.a3 a.a4) :=
  sysIpcTrySend_sends.imp (fun _ _ h => h.sys hn)

theorem sysIpcRecv_does (hn : a.no = 13) : Does c cur a k (sysIpcRecv c cur a.a1) := by
  unfold sysIpcRecv
  split
  · exact .pure .nothing
  · rename_i hva
    refine .ok_bind (exec_modifyEnv ..) ?_
    exact .bind (schedYield_leaves (.recv hn hva)) fun _ _ h => h.elim

theorem sysE1000Transmit_does (hc : k.curenv c = some cur) (hn : a.no = 15) :
    Does c cur a k (sysE1000Transmit c cur a.a1 a.a2) := by
  refine .bind ((userMemAssert_cases hc a.a1 a.a2 pteW).imp_error fun _ _ => leaves_destroyed (by simp [hn]) (by simp [hn])) ?_
  rintro _ _ ⟨rfl, -⟩
  refine Triple.get_bind ?_
  split
  · exact .throw (.inl ⟨_, rfl⟩)
  · refine Triple.get_bind ?_
    split
    · exact .pure .nothing
    · refine envPgdir_bind (.bind (liftPmap_readOnly (forM_vload8_frame ..)) ?_)
      rintro _ _ ⟨rfl, -⟩
      exact .bind (.modify (.transmit hn)) fun _ _ h => .pure h

end

theorem syscall_does (hc : k.curenv c = some cur) (a : Args) : Does c cur a k (a.call c cur) := by
  unfold Args.call syscall
  have hno : ∀ n, a.no.toNat = n → a.no = BitVec.ofNat 32 n := fun n h => by
    rw [← h, BitVec.ofNat_toNat, BitVec.setWidth_eq]
  split
  · exact .bind (sysCputs_does hc (hno 0 ‹_›)) fun _ _ h => .pure h
  · exact .pure .nothing
  · exact Triple.get_bind (.pure .nothing)
  · exact (sysEnvDestroy_does hc (hno 3 ‹_›)).int
  · exact (sysPageAlloc_does (hno 4 ‹_›)).int
  · exact (sysPageMap_does (hno 5 ‹_›)).int
  · exact (sysPageUnmap_does (hno 6 ‹_›)).int
  · exact sysExofork_does (hno 7 ‹_›)
  · exact (sysEnvSetStatus_does (hno 8 ‹_›)).int
  · exact (sysEnvSetTrapframe_does (hno 9 ‹_›)).int
  · exact (sysEnvSetPgfaultUpcall_does (hno 10 ‹_›)).int
  · exact .bind (schedYield_leaves (.yield (hno 11 ‹_›))) fun _ _ h => h.elim
  · exact (sysIpcTrySend_does (hno 12 ‹_›)).int
  · exact (sysIpcRecv_does (hno 13 ‹_›)).int
  · exact Triple.get_bind (.pure .nothing)
  · exact (sysE1000Transmit_does hc (hno 15 ‹_›)).int
  · exact .pure .nothing
  · exact .pure .nothing

theorem sends_of_call (hn : a.no = 12) (h : exec (a.call c cur) k = (.ok r, k')) :
    ∃ code, r = BitVec.ofInt 32 code ∧ Sends cur a k code k' := by
  have hcall : a.call c cur = (do return BitVec.ofInt 32 (← sysIpcTrySend cur a.a1 a.a2 a.a3 a.a4)) := by
    unfold Args.call syscall
    rw [hn]
    rfl
  rw [hcall] at h
  exact Triple.ok (.bind (sysIpcTrySend_sends (c := c)) fun code _ hs => .pure ⟨code, rfl, hs⟩ :
    Triple _ k (fun r k' => ∃ code, r = BitVec.ofInt 32 code ∧ Sends cur a k code k') _) h

/-! ## Traps -/

def Trapframe.args (tf : Trapframe) : Args :=
  ⟨tf.regs.eax, tf.regs.edx, tf.regs.ecx, tf.regs.ebx, tf.regs.edi, tf.regs.esi⟩

def Kernel.awake (k : Kernel) (c : Nat) : Kernel := k.setCpu c { k.cpus c with status := .started }

def Kernel.entered (k : Kernel) (c : Nat) (cur : EnvPtr) (tf : Trapframe) : Kernel :=
  (k.awake c).setEnv cur { k.envs cur with tf := tf }

def Kernel.faulted (k : Kernel) (cur : EnvPtr) (s : Pmap) (esp : Word) : Kernel :=
  (k.withPmap s).setEnv cur { k.envs cur with
    tf := { (k.envs cur).tf with esp := esp, eip := (k.envs cur).pgfaultUpcall } }

/-- What handling a trap of `cur` can have done once the registers are saved. -/
inductive Handles (c : Nat) (cur : EnvPtr) (tf : Trapframe) (k : Kernel) : Kernel → Prop
  | ticked : tf.trapno ≠ trapSyscall → Handles c cur tf k { k with ticks := t }
  | syscall : tf.trapno = trapSyscall → Sys cur tf.args k k' → exec (tf.args.call c cur) k = (.ok r, k') →
      Handles c cur tf k (k'.setEax cur r)
  | sleeps : tf.trapno = trapSyscall → Sleeps c cur tf.args k k' → Handles c cur tf k k'
  | destroyed : tf.trapno ≠ trapSyscall → Destroyed c cur k k' → Handles c cur tf k k'
  | fault : tf.trapno = trapPgflt →
      exec (userMemCheck (k.envs cur).pgdir esp len (pteW ||| pteP ||| pteU)) k.pmap = (.ok 0, k.pmap) →
      exec (vstoreWords (k.envs cur).pgdir esp words) k.pmap = (.ok (), s) →
      Handles c cur tf k (k.faulted cur s esp)

/-- The state a trap reaches before it leaves the kernel again. -/
inductive Ready (c : Nat) (tf : Trapframe) (k : Kernel) : Kernel → Prop
  | woken : tf.cs &&& 3 ≠ 3 → Ready c tf k { k.awake c with ticks := t }
  | reaped : tf.cs &&& 3 = 3 → k.curenv c = some cur → (k.envs cur).status = .dying →
      exec (envFreeSpace (k.envs cur).pgdir) k.pmap = (.ok (), s) →
      Ready c tf k (((k.awake c).freed cur s).noCurenv c)
  | handled : tf.cs &&& 3 = 3 → k.curenv c = some cur → (k.envs cur).status ≠ .dying →
      Handles c cur tf (k.entered c cur tf) k' → Ready c tf k k'

/-- Leaving the kernel: into the current environment, into its page fault
handler, or through the scheduler. -/
inductive Exits (k : Kernel) (c : Nat) : Exit × Kernel → Prop
  | resume : k.curenv c = some e → (k.envs e).status = .running → Exits k c (.run e, k.dispatch c e)
  | handler : k.curenv c = some e → (k.envs e).tf.trapno = trapPgflt → Exits k c (.run e, k.dispatch c e)
  | sched : Yields k c p → Exits k c p

/-- How a trap can end: a panic, the monitor, or a return to user mode or the idle loop. -/
def Ends (c : Nat) (R : Kernel → Prop) (x : Exit) (k' : Kernel) : Prop :=
  (∃ p, x = .panic p) ∨ x = .monitor ∨ ∃ k1, R k1 ∧ Exits k1 c (x, k')

theorem Leaves.ends (h : Leaves c R x k') : Ends c R x k' :=
  h.imp id fun ⟨k1, h1, hy⟩ => .inr ⟨k1, h1, .sched hy⟩

theorem Ends.mono (h : Ends c R x k') (hr : ∀ k1, R k1 → R' k1) : Ends c R' x k' :=
  h.imp id (Or.imp id fun ⟨k1, h1, hy⟩ => ⟨k1, hr k1 h1, hy⟩)

theorem trapReturn_ends {R : Kernel → Prop} (h : R k) :
    Triple (trapReturn c) k (fun _ _ => False) (Ends c R) := by
  refine Triple.get_bind ?_
  have hy : Triple (schedYield c) k (fun _ _ => False) (Ends c R) :=
    (schedYield_leaves h).imp_error fun _ _ h => h.ends
  cases hc : k.curenv c with
  | none => exact hy
  | some cur =>
    dsimp only
    split
    · exact .of_error exec_envRun (.inr (.inr ⟨k, h, .resume hc ‹_›⟩))
    · exact hy

theorem timeTick_cases (k : Kernel) :
    Triple timeTick k (fun _ k' => ∃ t, k' = { k with ticks := t }) (fun x _ => ∃ p, x = .panic p) := by
  refine .bind (.modify (Q := fun _ k' => ∃ t, k' = { k with ticks := t }) ⟨_, rfl⟩) ?_
  rintro _ _ ⟨t, rfl⟩
  refine Triple.get_bind ?_
  dsimp only
  split
  · exact .throw ⟨_, rfl⟩
  · exact .pure ⟨t, rfl⟩

theorem pageFaultHandler_does (hc : k.curenv c = some cur) (hn : tf.trapno = trapPgflt)
    (htf : (k.envs cur).tf = tf) :
    Triple (pageFaultHandler c cur tf cr2) k (fun _ _ => False) (Ends c (Handles c cur tf k)) := by
  have hne : tf.trapno ≠ trapSyscall := by
    rw [hn]
    decide
  refine Triple.get_bind ?_
  dsimp only
  split
  · exact (envDestroy_self hc k.pmap.userMemCheckAddr).mono (fun _ _ h => h.elim) fun _ _ h =>
      (h.mono fun _ => .destroyed hne).ends
  · refine .bind ((userMemAssert_cases hc ..).imp_error fun _ _ h =>
      (h.mono fun _ => .destroyed hne).ends) ?_
    rintro _ _ ⟨rfl, hcheck⟩
    refine envPgdir_bind (.bind ((liftPmap_cases _ k).imp_error fun _ _ h => .inl h) ?_)
    rintro _ _ ⟨s, hs, rfl⟩
    refine .ok_bind (exec_modifyEnv ..) ?_
    have htrap : ∀ esp, ((k.faulted cur s esp).envs cur).tf.trapno = trapPgflt := by
      intro esp
      rw [Kernel.faulted, setEnv_self]
      exact htf ▸ hn
    exact .of_error exec_envRun (.inr (.inr ⟨_, .fault hn hcheck hs, .handler hc (htrap _)⟩))

theorem trapDispatch_user (hc : k.curenv c = some cur) (htf : (k.envs cur).tf = tf) :
    Triple (trapDispatch c (some cur) tf cr2) k (fun _ k' => Handles c cur tf k k')
      (Ends c (Handles c cur tf k)) := by
  have hirq : ∀ n, tf.trapno = n → n ≠ trapSyscall → tf.trapno ≠ trapSyscall := fun n hn hne => hn ▸ hne
  unfold trapDispatch
  split
  · exact .pure (.ticked (hirq _ ‹_› (by decide)))
  · split
    · rename_i htimer
      refine .bind ((timeTick_cases k).imp_error fun _ _ h => .inl h) ?_
      rintro _ _ ⟨t, rfl⟩
      exact (schedYield_leaves (.ticked (hirq _ htimer (by decide)))).mono (fun _ _ h => h.elim) fun _ _ h => h.ends
    · split
      · rename_i hkbd
        rcases hkbd with hkbd | hkbd
        · exact .pure (.ticked (hirq _ hkbd (by decide)))
        · exact .pure (.ticked (hirq _ hkbd (by decide)))
      · split
        · exact (pageFaultHandler_does hc ‹_› htf).imp (fun _ _ h => h.elim)
        · split
          · exact .throw (.inr (.inl rfl))
          · dsimp only
            split
            · rename_i hn
              refine .bind ((syscall_does hc tf.args).ran.imp_error fun _ _ h => ?_) ?_
              · exact (h.mono fun _ => .sleeps hn).ends
              · rintro r k' ⟨hk', hrun⟩
                exact .of_ok (exec_modifyEnv ..) (.syscall hn hk' hrun)
            · rename_i hn
              exact (envDestroy_self hc k.pmap.userMemCheckAddr).mono (fun _ _ h => h.elim) fun _ _ h =>
                (h.mono fun _ => .destroyed hn).ends

theorem trapDispatch_kernel (k : Kernel) :
    Triple (trapDispatch c none tf cr2) k (fun _ k' => ∃ t, k' = { k with ticks := t })
      (Ends c fun k' => ∃ t, k' = { k with ticks := t }) := by
  unfold trapDispatch
  split
  · exact .pure ⟨k.ticks, rfl⟩
  · split
    · refine .bind ((timeTick_cases k).imp_error fun _ _ h => .inl h) ?_
      rintro _ _ ⟨t, rfl⟩
      exact (schedYield_leaves ⟨t, rfl⟩).mono (fun _ _ h => h.elim) fun _ _ h => h.ends
    · split
      · exact .pure ⟨k.ticks, rfl⟩
      · split
        · exact .throw (.inl ⟨_, rfl⟩)
        · split
          · exact .throw (.inr (.inl rfl))
          · exact .throw (.inl ⟨_, rfl⟩)

theorem trap_ends (k : Kernel) (c : Nat) (tf : Trapframe) (cr2 : Word) :
    Triple (trap c tf cr2) k (fun _ _ => False) (Ends c (Ready c tf k)) := by
  refine .bind (.modify (Q := fun _ k' => k.awake c = k') rfl) ?_
  rintro _ _ rfl
  have hcur : (k.awake c).curenv c = k.curenv c := by
    unfold Kernel.awake
    rw [setCpu_curenv, if_pos rfl]
    rfl
  split
  · rename_i huser
    refine Triple.get_bind ?_
    rw [hcur]
    cases hc : k.curenv c with
    | none => exact .bind (Q := fun _ _ => False) (.throw (.inl ⟨_, rfl⟩)) fun _ _ h => h.elim
    | some cur =>
      rw [hc] at hcur
      refine Triple.get_bind ?_
      split
      · rename_i hd
        refine .bind ((envFree_cases _ _).imp_error fun _ _ h => .inl h) ?_
        rintro _ _ ⟨s, hs, rfl⟩
        refine .ok_bind (exec_setCurenv ..) ?_
        refine .bind ((schedYield_leaves (.reaped huser hc hd hs)).imp_error fun _ _ h => h.ends) ?_
        exact fun _ _ h => h.elim
      · rename_i hd
        refine .ok_bind (exec_modifyEnv ..) ?_
        have htf : ((k.entered c cur tf).envs cur).tf = tf := by rw [Kernel.entered, setEnv_self]
        refine .bind ((trapDispatch_user (k := k.entered c cur tf) hcur htf).imp_error fun _ _ h => h.mono fun _ => .handled huser hc hd) ?_
        exact fun _ _ h => trapReturn_ends (.handled huser hc hd h)
  · rename_i huser
    refine .bind ((trapDispatch_kernel _).imp_error fun _ _ h => h.mono fun _ ⟨t, h⟩ => h ▸ .woken huser) ?_
    rintro _ _ ⟨t, rfl⟩
    exact trapReturn_ends (.woken huser)

/-! ## Creating an environment from a binary -/

theorem forM_liftPmap_cases (f : α → PmapM Unit) (l : List α) (k : Kernel) :
    Triple (l.forM fun a => liftPmap (f a)) k
      (fun _ k' => ∃ s, exec (l.forM f) k.pmap = (.ok ⟨⟩, s) ∧ k' = k.withPmap s)
      (fun x _ => ∃ p, x = .panic p) := by
  induction l generalizing k with
  | nil => exact .pure ⟨k.pmap, rfl, rfl⟩
  | cons a l ih =>
    refine .bind (liftPmap_cases (f a) k) ?_
    rintro _ _ ⟨s, hs, rfl⟩
    refine (ih _).imp ?_
    rintro _ _ ⟨t, ht, rfl⟩
    exact ⟨t, (exec_bind_ok hs).trans ht, rfl⟩

def createdTf (entry : Word) (type : EnvType) : Trapframe :=
  { initialTf with eip := entry, eflags := if type = .fs then flIF ||| flIOPL3 else flIF }

def Kernel.created (k : Kernel) (e : EnvPtr) (s : Pmap) (pgdir : Nat) (entry : Word) (type : EnvType) : Kernel :=
  { (k.withPmap s).setEnv e
      { newEnv (k.envs e) e pgdir 0 with type := type, tf := createdTf entry type } with
    envFreeList := (k.envs e).link }

theorem envCreate_cases (k : Kernel) (binary : Elf) (type : EnvType) :
    Triple (envCreate binary type) k
      (fun _ k' => ∃ e s pgdir s1 s2, k.envFreeList = some e ∧ exec envSetupVm k.pmap = (.ok (some pgdir), s) ∧
        exec (binary.ph.forM fun ph => loadSegment pgdir ph) s = (.ok ⟨⟩, s1) ∧
        exec (regionAlloc pgdir (ustacktop - 4096) 4096) s1 = (.ok (), s2) ∧
        k' = k.created e s2 pgdir binary.entry type)
      (fun x _ => ∃ p, x = .panic p) := by
  refine .bind (envAlloc_cases k 0) ?_
  rintro r _ (⟨code, rfl, -⟩ | ⟨e, s, pgdir, rfl, hf, hs, rfl⟩)
  · exact .throw ⟨_, rfl⟩
  · have hpgdir : ((k.allocated e s pgdir 0).envs e).pgdir = pgdir := by
      simp [Kernel.allocated, newEnv]
    have hload : Triple (loadIcode e binary) (k.allocated e s pgdir 0)
        (fun _ k' => ∃ s1 s2, exec (binary.ph.forM fun ph => loadSegment pgdir ph) s = (.ok ⟨⟩, s1) ∧
          exec (regionAlloc pgdir (ustacktop - 4096) 4096) s1 = (.ok (), s2) ∧
          k' = k.created e s2 pgdir binary.entry .user)
        (fun x _ => ∃ p, x = .panic p) := by
      unfold loadIcode
      split
      · exact .throw ⟨_, rfl⟩
      · refine Triple.get_bind ?_
        rw [hpgdir]
        refine .bind (forM_liftPmap_cases ..) ?_
        rintro _ _ ⟨s1, hs1, rfl⟩
        refine .bind (.of_ok (exec_modifyEnv ..)
          (Q := fun _ k' => k' = k.created e s1 pgdir binary.entry .user) ?_) ?_
        · simp [Kernel.created, Kernel.allocated, Kernel.withPmap, Kernel.setEnv, newEnv, createdTf, initialTf]
        · rintro _ _ rfl
          refine (liftPmap_cases ..).imp ?_
          rintro _ _ ⟨s2, hs2, rfl⟩
          exact ⟨s1, s2, hs1, hs2, rfl⟩
    refine .bind hload ?_
    rintro _ _ ⟨s1, s2, hs1, hs2, rfl⟩
    refine .ok_bind (exec_modifyEnv ..) ?_
    split
    · rename_i ht
      refine .of_ok (exec_modifyEnv ..) ⟨e, s, pgdir, s1, s2, hf, hs, hs1, hs2, ?_⟩
      simp [Kernel.created, Kernel.withPmap, Kernel.setEnv, createdTf, ht]
    · rename_i ht
      refine .pure ⟨e, s, pgdir, s1, s2, hf, hs, hs1, hs2, ?_⟩
      simp [Kernel.created, Kernel.withPmap, Kernel.setEnv, createdTf, ht]

/-! ## The other CPUs -/

theorem awake_curenv : (k.awake c).curenv c' = k.curenv c' := by
  unfold Kernel.awake
  rw [setCpu_curenv]
  split
  · rename_i h
    rw [h]
    rfl
  · rfl

theorem setCpu_curenv_of_ne (h : c' ≠ c) : (k.setCpu c cpu).curenv c' = k.curenv c' := by
  rw [setCpu_curenv, if_neg h]

theorem Sys.cpus (h : Sys cur a k k') : k'.cpus = k.cpus := by
  cases h <;> rfl

theorem Destroyed.curenv_of_ne (h : Destroyed c cur k k') (hne : c' ≠ c) : k'.curenv c' = k.curenv c' := by
  obtain ⟨w, s, -, rfl⟩ := h
  exact setCpu_curenv_of_ne hne

theorem Sleeps.curenv_of_ne (h : Sleeps c cur a k k') (hne : c' ≠ c) : k'.curenv c' = k.curenv c' := by
  cases h with
  | yield _ => rfl
  | recv _ _ => rfl
  | destroyed _ _ h => exact h.curenv_of_ne hne

theorem Handles.curenv_of_ne (h : Handles c cur tf k k') (hne : c' ≠ c) : k'.curenv c' = k.curenv c' := by
  cases h with
  | ticked _ => rfl
  | syscall _ h _ =>
    have hc := h.cpus
    exact congrArg (fun f => (f c').env) hc
  | sleeps _ h => exact h.curenv_of_ne hne
  | destroyed _ h => exact h.curenv_of_ne hne
  | fault _ _ _ => rfl

theorem Ready.curenv_of_ne (h : Ready c tf k k') (hne : c' ≠ c) : k'.curenv c' = k.curenv c' := by
  cases h with
  | woken _ => exact awake_curenv (c := c)
  | reaped _ _ _ _ => exact (setCpu_curenv_of_ne hne).trans (awake_curenv (c := c))
  | handled _ _ _ h => exact (h.curenv_of_ne hne).trans (awake_curenv (c := c))

@[simp] theorem preempt_cpus : (k.preempt c).cpus = k.cpus := by
  unfold Kernel.preempt
  split
  · split <;> rfl
  · rfl

theorem dispatch_curenv : (k.dispatch c e).curenv c' = if c' = c then some e else k.curenv c' := by
  unfold Kernel.dispatch
  split
  · rename_i hc
    rw [setEnv_curenv]
    split
    · rename_i h
      rw [h, hc]
    · rfl
  · simp only [Kernel.switch, setEnv_curenv, setCpu_curenv]
    simp only [Kernel.curenv, preempt_cpus]

theorem Yields.curenv_of_ne (h : Yields k c p) (hne : c' ≠ c) : p.2.curenv c' = k.curenv c' := by
  cases h with
  | next _ _ => exact dispatch_curenv.trans (if_neg hne)
  | again _ _ => exact dispatch_curenv.trans (if_neg hne)
  | halt _ => exact setCpu_curenv_of_ne hne
  | monitor _ => rfl
  | wild _ => rfl

theorem Exits.curenv_of_ne (h : Exits k c p) (hne : c' ≠ c) : p.2.curenv c' = k.curenv c' := by
  cases h with
  | resume _ _ => exact dispatch_curenv.trans (if_neg hne)
  | handler _ _ => exact dispatch_curenv.trans (if_neg hne)
  | sched h => exact h.curenv_of_ne hne

end Jos
