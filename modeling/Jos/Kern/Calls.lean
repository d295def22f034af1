import Jos.Kern.Progress

/-!
# Kernel entries that go back to their caller

The runs the hardware can make step by step: a system call that returns, a
call that yields, and a CPU that enters the scheduler, each with the state it
leaves.
-/

namespace Jos

open Lib

variable {k : Kernel}

/-! ## System calls -/

theorem exec_int {m : KernelM Int} (h : exec m k = (.ok r, k')) :
    exec (do return BitVec.ofInt 32 (← m) : KernelM Word) k = (.ok (BitVec.ofInt 32 r), k') :=
  exec_bind_ok h

section
variable {a : Args}

theorem exec_pageAlloc_call (hno : a.no = 4) (he : k.resolve cur a.a1 true = some e) (hva : ¬ badVa a.a2)
    (hperm : ¬ badPerm a.a3) (h : exec (pageAllocAt (k.envs e).pgdir a.a2 a.a3) k.pmap = (.ok r, s)) :
    exec (a.call c cur) k = (.ok (BitVec.ofInt 32 r), k.withPmap s) := by
  unfold Args.call syscall
  rw [hno]
  refine exec_int (m := sysPageAlloc cur a.a1 a.a2 a.a3) ?_
  unfold sysPageAlloc
  rw [if_neg hva, if_neg hperm, exec_bind_ok exec_envid2env]
  simp only [he]
  rw [exec_bind_ok (exec_envPgdir e)]
  exact exec_liftPmap_ok h

theorem exec_pageMap_call (hno : a.no = 5) (he : k.resolve cur a.a1 true = some e)
    (he' : k.resolve cur a.a3 true = some e') (hva : ¬ badVa a.a2) (hva' : ¬ badVa a.a4) (hperm : ¬ badPerm a.a5)
    (h : exec (pageMapAt (k.envs e).pgdir a.a2 (k.envs e').pgdir a.a4 a.a5) k.pmap = (.ok r, s)) :
    exec (a.call c cur) k = (.ok (BitVec.ofInt 32 r), k.withPmap s) := by
  unfold Args.call syscall
  rw [hno]
  refine exec_int (m := sysPageMap cur a.a1 a.a2 a.a3 a.a4 a.a5) ?_
  unfold sysPageMap
  rw [if_neg (not_or.mpr ⟨hva, hva'⟩), if_neg hperm, exec_bind_ok exec_envid2env]
  simp only [he]
  rw [exec_bind_ok exec_envid2env]
  simp only [he']
  rw [exec_bind_ok (exec_envPgdir e), exec_bind_ok (exec_envPgdir e')]
  exact exec_liftPmap_ok h

theorem exec_pageUnmap_call (hno : a.no = 6) (he : k.resolve cur a.a1 true = some e) (hva : ¬ badVa a.a2)
    (h : exec (pageRemove (k.envs e).pgdir a.a2) k.pmap = (.ok (), s)) :
    exec (a.call c cur) k = (.ok 0, k.withPmap s) := by
  unfold Args.call syscall
  rw [hno]
  refine exec_int (m := sysPageUnmap cur a.a1 a.a2) (r := 0) ?_
  unfold sysPageUnmap
  rw [if_neg hva, exec_bind_ok exec_envid2env]
  simp only [he]
  rw [exec_bind_ok (exec_envPgdir e), exec_bind_ok (exec_liftPmap_ok h)]
  rfl

theorem exec_exofork_call (hno : a.no = 7) (hf : k.envFreeList = some e)
    (hvm : exec envSetupVm k.pmap = (.ok (some pgdir), s)) :
    exec (a.call c cur) k = (.ok ((k.forked cur e s pgdir).envs e).id, k.forked cur e s pgdir) := by
  unfold Args.call syscall
  rw [hno]
  change exec (sysExofork cur) k = _
  unfold sysExofork
  rw [exec_bind_ok (exec_get k), exec_bind_ok (exec_envAlloc hf hvm _)]
  dsimp only
  rw [exec_bind_ok (exec_get _), exec_bind_ok (exec_modifyEnv ..), exec_bind_ok (exec_get _)]
  rfl

theorem exec_setStatus_call (hno : a.no = 8) (he : k.resolve cur a.a1 true = some e) (hst : statusOf a.a2 = some st) :
    exec (a.call c cur) k = (.ok 0, k.setEnv e { k.envs e with status := st }) := by
  unfold Args.call syscall
  rw [hno]
  refine exec_int (m := sysEnvSetStatus cur a.a1 a.a2) (r := 0) ?_
  unfold sysEnvSetStatus
  simp only [hst]
  rw [exec_bind_ok exec_envid2env]
  simp only [he]
  rfl

theorem exec_destroy_call (hno : a.no = 3) (he : k.resolve cur a.a1 true = some e)
    (h : exec (envDestroy c e) k = (.ok (), k')) : exec (a.call c cur) k = (.ok 0, k') := by
  unfold Args.call syscall
  rw [hno]
  refine exec_int (m := sysEnvDestroy c cur a.a1) (r := 0) ?_
  unfold sysEnvDestroy
  rw [exec_bind_ok exec_envid2env]
  simp only [he]
  exact exec_bind_ok h

theorem exec_setTrapframe_call (hno : a.no = 9) (he : k.resolve cur a.a1 true = some e) (htf : a.a2 ≠ 0)
    (h : exec (vloadTrapframe (k.envs cur).pgdir a.a2) k.pmap = (.ok tf, k.pmap)) :
    exec (a.call c cur) k = (.ok 0, k.setEnv e { k.envs e with tf := tf }) := by
  unfold Args.call syscall
  rw [hno]
  refine exec_int (m := sysEnvSetTrapframe cur a.a1 a.a2) (r := 0) ?_
  unfold sysEnvSetTrapframe
  rw [exec_bind_ok exec_envid2env]
  simp only [he, if_neg htf]
  rw [exec_bind_ok (exec_envPgdir cur), exec_bind_ok (exec_liftPmap_ok h)]
  rfl

end

theorem exec_envDestroy_running (hr : (k.envs e).status = .running) (hc : k.curenv c ≠ some e) :
    exec (envDestroy c e) k = (.ok (), k.dying e) := by
  unfold envDestroy
  rw [exec_bind_ok (exec_get k), if_pos ⟨hr, hc⟩]
  rfl

theorem exec_envDestroy_other (hr : (k.envs e).status ≠ .running) (hc : k.curenv c ≠ some e)
    (h : exec (envFreeSpace (k.envs e).pgdir) k.pmap = (.ok (), s)) :
    exec (envDestroy c e) k = (.ok (), k.freed e s) := by
  unfold envDestroy
  rw [exec_bind_ok (exec_get k), if_neg fun h => hr h.1]
  have hfree : exec (envFree e) k = (.ok (), k.freed e s) := by
    unfold envFree
    rw [exec_bind_ok (exec_get k)]
    dsimp only
    rw [exec_bind_ok (exec_liftPmap_ok h)]
    rfl
  rw [exec_bind_ok hfree, if_neg hc]
  rfl

/-! ## Traps -/

def callFrame (a : Args) : Trapframe :=
  { initialTf with
    trapno := trapSyscall
    regs := { PushRegs.zero with eax := a.no, edx := a.a1, ecx := a.a2, ebx := a.a3, edi := a.a4, esi := a.a5 } }

/-- `k` with `cur` back in user mode on CPU `c`, with the result `r`. -/
def Kernel.resumed (k : Kernel) (c : Nat) (cur : EnvPtr) (r : Word) : Kernel :=
  k.setEnv cur { k.envs cur with
    tf := { (k.envs cur).tf with regs := { (k.envs cur).tf.regs with eax := r } }, cpunum := c }

theorem resumed_dirs : (k.resumed c cur r).dirs = k.dirs := dirs_setEnv_same Iff.rfl rfl

theorem dispatch_self (hc : k.curenv c = some cur) :
    k.dispatch c cur = k.setEnv cur { k.envs cur with cpunum := c } := by
  rw [Kernel.dispatch, if_pos hc]

theorem entered_curenv : (k.entered c cur tf).curenv c' = k.curenv c' := awake_curenv (c := c)

theorem callFrame_user (a : Args) : (callFrame a).cs &&& 3 = 3 := by
  change (gdUT ||| 3#16) &&& 3 = 3
  decide

section
variable {a : Args} (hc : k.curenv c = some cur) (hr : (k.envs cur).status ≠ .dying)
include hc hr

/-- A system call is made with the registers saved, and followed by a return to user mode. -/
theorem exec_trap_entered : exec (trap c (callFrame a) cr2) k = exec (do
      let r ← a.call c cur
      modifyEnv cur fun env => { env with tf := { env.tf with regs := { env.tf.regs with eax := r } } }
      trapReturn c) (k.entered c cur (callFrame a)) := by
  have hcur : (k.setCpu c { k.cpus c with status := .started }).curenv c = some cur := awake_curenv.trans hc
  have hst : ((k.setCpu c { k.cpus c with status := .started }).envs cur).status ≠ .dying := hr
  have hdisp : trapDispatch c (some cur) (callFrame a) cr2 = (do
      let r ← a.call c cur
      modifyEnv cur fun env => { env with tf := { env.tf with regs := { env.tf.regs with eax := r } } }) := rfl
  unfold trap
  rw [exec_bind_ok (exec_modify _ k)]
  dsimp only
  rw [if_pos (callFrame_user a), exec_bind_ok (exec_get _)]
  rw [hcur]
  dsimp only
  rw [exec_bind_ok (exec_get _), if_neg hst, exec_bind_ok (exec_modifyEnv ..)]
  change exec _ (k.entered c cur (callFrame a)) = _
  rw [exec_bind, hdisp, exec_bind, exec_bind]
  rcases exec (a.call c cur) (k.entered c cur (callFrame a)) with ⟨r | r, t⟩ <;> rfl

theorem Step.call (h : exec (a.call c cur) (k.entered c cur (callFrame a)) = (.ok r, k1)) (hc1 : k1.curenv c = some cur)
    (hr1 : (k1.envs cur).status = .running) :
    Step k (.trap c (callFrame a) cr2) (k1.resumed c cur r) := by
  have hlast : ((k1.setEax cur r).envs cur).status = .running := by simpa [Kernel.setEax] using hr1
  have hcur : (k1.setEax cur r).curenv c = some cur := hc1
  have hstate : (k1.setEax cur r).dispatch c cur = k1.resumed c cur r := by
    rw [dispatch_self hcur]
    simp [Kernel.setEax, Kernel.resumed, Kernel.setEnv]
  refine .trap (.inl ⟨callFrame_user a, cur, hc⟩) (x := .run cur) ?_ .run
  rw [exec_trap_entered hc hr, exec_bind_ok h, exec_bind_ok (exec_modifyEnv ..), trapReturn, exec_bind_ok (exec_get _)]
  rw [setEnv_curenv, hc1]
  dsimp only
  refine (congrArg (fun m => exec m (k1.setEax cur r)) (if_pos hlast)).trans ?_
  rw [exec_envRun, hstate]

end

/-- The environments differ in nothing but their registers and the CPU they ran on last. -/
structure SameEnvs (k k' : Kernel) : Prop where
  status : (k'.envs e).status = (k.envs e).status
  pgdir : (k'.envs e).pgdir = (k.envs e).pgdir
  link : (k'.envs e).link = (k.envs e).link
  id : (k'.envs e).id = (k.envs e).id
  parentId : (k'.envs e).parentId = (k.envs e).parentId
  recving : (k'.envs e).ipcRecving = (k.envs e).ipcRecving
  free : k'.envFreeList = k.envFreeList
  curenv : k'.curenv c = k.curenv c
  cpu : k.curenv c = none → (k'.cpus c).status = (k.cpus c).status

theorem SameEnvs.refl (k : Kernel) : SameEnvs k k := ⟨rfl, rfl, rfl, rfl, rfl, rfl, rfl, rfl, fun _ => rfl⟩

theorem SameEnvs.trans (h : SameEnvs k k') (h' : SameEnvs k' k'') : SameEnvs k k'' where
  status := h'.status.trans h.status
  pgdir := h'.pgdir.trans h.pgdir
  link := h'.link.trans h.link
  id := h'.id.trans h.id
  parentId := h'.parentId.trans h.parentId
  recving := h'.recving.trans h.recving
  free := h'.free.trans h.free
  curenv := h'.curenv.trans h.curenv
  cpu hc := (h'.cpu (h.curenv.trans hc)).trans (h.cpu hc)

theorem SameEnvs.dirs (h : SameEnvs k k') : k'.dirs = k.dirs := by
  funext e
  unfold Kernel.dirs
  rw [h.status, h.pgdir]

theorem SameEnvs.kernelOk (h : SameEnvs k k') (hok : KernelOk P k) (hm : ∃ l, MemOk P k.dirs [] ∅ l k'.pmap) :
    KernelOk P k' where
  mem := by
    rw [h.dirs]
    exact hm
  pgdir {e} he := by
    rw [h.pgdir]
    exact hok.pgdir (by rwa [Kernel.Live, h.status] at he)
  slots := by
    obtain ⟨l, hl, hmem⟩ := hok.slots
    refine ⟨l, ?_, fun e => ?_⟩
    · rw [h.free]
      exact hl.frame fun e _ => h.link
    · rw [hmem, Kernel.Live, Kernel.Live, h.status]

theorem Step.memory {a : Args} (hc : k.curenv c = some cur) (hr : (k.envs cur).status = .running)
    (h : exec (a.call c cur) (k.entered c cur (callFrame a)) = (.ok r, (k.entered c cur (callFrame a)).withPmap s)) :
    ∃ k', Step k (.trap c (callFrame a) cr2) k' ∧ k'.pmap = s ∧ SameEnvs k k' := by
  have hlast : (((k.entered c cur (callFrame a)).withPmap s).envs cur).status = .running := by
    simpa [Kernel.entered, Kernel.withPmap] using hr
  have hcur : (k.entered c cur (callFrame a)).curenv c = some cur := entered_curenv.trans hc
  have henv : ∀ {α} (f : Env → α), (∀ env tf n, f { env with tf := tf, cpunum := n } = f env) → ∀ e,
      f ((((k.entered c cur (callFrame a)).withPmap s).resumed c cur r).envs e) = f (k.envs e) := fun f hf e => by
    by_cases he : e = cur
    · subst he
      simp only [Kernel.resumed, Kernel.entered, Kernel.withPmap, setEnv_self]
      exact hf ..
    · simp [Kernel.resumed, Kernel.entered, Kernel.withPmap, setEnv_of_ne he, Kernel.awake]
  refine ⟨_, Step.call hc (by rw [hr]; decide) h hcur hlast, rfl, ?_⟩
  exact
    { status := henv Env.status (fun _ _ _ => rfl) _
      pgdir := henv Env.pgdir (fun _ _ _ => rfl) _
      link := henv Env.link (fun _ _ _ => rfl) _
      id := henv Env.id (fun _ _ _ => rfl) _
      parentId := henv Env.parentId (fun _ _ _ => rfl) _
      recving := henv Env.ipcRecving (fun _ _ _ => rfl) _
      free := rfl
      curenv := awake_curenv (c := c)
      cpu := fun {c'} hn => by
        have hne : c' ≠ c := by
          rintro rfl
          simp [hc] at hn
        simp [Kernel.resumed, Kernel.entered, Kernel.withPmap, Kernel.setEnv, Kernel.awake, Kernel.setCpu, hne] }

/-! ## The scheduler -/

theorem schedScan_here (h : k.runnableAt idle = true) : k.schedScan (n + 1) idle = some idle := by
  rw [Kernel.schedScan, if_pos h]

theorem schedScan_next (h : k.runnableAt idle = false) (hi : idle < nenv) :
    k.schedScan (n + 1) idle = k.schedScan n (idle + 1) := by
  rw [Kernel.schedScan, if_neg (by simp [h]), if_neg (Nat.not_le.mpr hi)]

theorem yield_next (h : k.schedScan 1024 (k.firstSlot c) = some e.1) : k.yield c = (.run e, k.dispatch c e) := by
  unfold Kernel.yield
  rw [h]
  simp

theorem Step.enter (hu : (k.cpus c).status = .unused) (hc : k.curenv c = none)
    (h : (k.awake c).schedScan 1024 0 = some e.1) : Step k (.start c) ((k.awake c).dispatch c e) := by
  have hfirst : (k.awake c).firstSlot c = 0 := by
    rw [Kernel.firstSlot, awake_curenv, hc]
  refine .start hu hc (x := .run e) ?_ .run
  rw [exec_schedYield, yield_next (by rw [hfirst]; exact h)]

theorem Step.yields {a : Args} (hno : a.no = 11) (hc : k.curenv c = some cur) (hr : (k.envs cur).status ≠ .dying)
    (h : (k.entered c cur (callFrame a)).schedScan 1024 (cur.1 + 1) = some e.1) :
    Step k (.trap c (callFrame a) cr2) ((k.entered c cur (callFrame a)).dispatch c e) := by
  have hfirst : (k.entered c cur (callFrame a)).firstSlot c = cur.1 + 1 := by
    rw [Kernel.firstSlot, entered_curenv, hc]
  have hcall : exec (a.call c cur) (k.entered c cur (callFrame a)) =
      (.error (.run e), (k.entered c cur (callFrame a)).dispatch c e) := by
    unfold Args.call syscall
    rw [hno]
    change exec (do schedYield c; return 0 : KernelM Word) _ = _
    have hy := exec_schedYield (c := c) (k := k.entered c cur (callFrame a))
    rw [yield_next (by rw [hfirst]; exact h)] at hy
    exact exec_bind_error hy
  exact .trap (.inl ⟨callFrame_user a, cur, hc⟩) ((exec_trap_entered hc hr).trans (exec_bind_error hcall)) .run

theorem Step.recv (hc : k.curenv c = some cur) (hr : (k.envs cur).status ≠ .dying)
    (hva : ¬ (dstva < utop ∧ dstva % 4096 ≠ 0))
    (h : ((k.entered c cur (callFrame ⟨13, dstva, 0, 0, 0, 0⟩)).blocked cur dstva).schedScan 1024 (cur.1 + 1) =
      some e.1) :
    Step k (.trap c (callFrame ⟨13, dstva, 0, 0, 0, 0⟩) cr2)
      (((k.entered c cur (callFrame ⟨13, dstva, 0, 0, 0, 0⟩)).blocked cur dstva).dispatch c e) := by
  generalize hk1 : k.entered c cur (callFrame ⟨13, dstva, 0, 0, 0, 0⟩) = k1 at h ⊢
  have hcur : k1.curenv c = some cur := by
    rw [← hk1]
    exact entered_curenv.trans hc
  have hfirst : (k1.blocked cur dstva).firstSlot c = cur.1 + 1 := by
    rw [Kernel.firstSlot, Kernel.blocked, setEnv_curenv, hcur]
  have hcall : exec (Args.call ⟨13, dstva, 0, 0, 0, 0⟩ c cur) k1 =
      (.error (.run e), (k1.blocked cur dstva).dispatch c e) := by
    have hrecv : exec (sysIpcRecv c cur dstva) k1 = (.error (.run e), (k1.blocked cur dstva).dispatch c e) := by
      have hy := exec_schedYield (c := c) (k := k1.blocked cur dstva)
      rw [yield_next (by rw [hfirst]; exact h)] at hy
      unfold sysIpcRecv
      rw [if_neg hva, exec_bind_ok (exec_modifyEnv ..)]
      exact exec_bind_error hy
    exact exec_bind_error hrecv
  rw [← hk1] at hcall ⊢
  exact .trap (.inl ⟨callFrame_user _, cur, hc⟩) ((exec_trap_entered hc hr).trans (exec_bind_error hcall)) .run

end Jos
