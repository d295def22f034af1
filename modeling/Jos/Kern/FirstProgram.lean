import Jos.Kern.Calls
import Jos.Kern.Startup

/-!
# The first program

A machine that has started and has five pages to spare can create an
environment and run it.
-/

namespace Jos

open Lib

theorem one_lt_nenv : 1 < nenv := by decide

def slot0 : EnvPtr := ⟨0, nenv_pos⟩
def slot1 : EnvPtr := ⟨1, one_lt_nenv⟩

/-- The environment in the first slot runs on the first CPU, and there is no other. -/
structure Alone (P : Platform) (k : Kernel) (type : EnvType) (n text stack : Nat) : Prop where
  machine : MachineOk P k
  bounded : k.Bounded
  only : k.OnlyCpu0
  spare : k.pmap.Spare n
  loaded : Loaded P k.dirs slot0 k.pmap text stack
  curenv : k.curenv 0 = some slot0
  unused : c ≠ 0 → (k.cpus c).status = .unused
  status : (k.envs slot0).status = .running
  id : (k.envs slot0).id = 4096#32
  parent : (k.envs slot0).parentId = 0#32
  type_eq : (k.envs slot0).type = type
  others : e ≠ slot0 → (k.envs e).status = .free
  next : k.envFreeList = some slot1
  next_id : (k.envs slot1).id = 0#32
  fresh : e ≠ slot0 → (k.envs e).id = 0#32 ∧ (k.envs e).ipcRecving = false
  link : e ≠ slot0 → (h : e.1 + 1 < nenv) → (k.envs e).link = some ⟨e.1 + 1, h⟩

theorem dispatch_idle {k : Kernel} (h : k.curenv c = none) :
    k.dispatch c e = (k.setCpu c { k.cpus c with env := some e }).setEnv e
      { k.envs e with status := .running, runs := (k.envs e).runs + 1, cpunum := c } := by
  simp [Kernel.dispatch, Kernel.switch, Kernel.preempt, h, Kernel.setEnv]

def Event.IsTrap : Event → Prop
  | .trap _ _ _ => True
  | _ => False

/-- The runs of one CPU in which no environment makes a trap. -/
def StartRuns : Kernel → Kernel → Prop := Runs fun k ev _ => k.Bounded ∧ ev.Single ∧ ¬ ev.IsTrap

theorem StartRuns.mono {ok : Kernel → Event → Kernel → Prop} (hr : StartRuns k0 k)
    (h : ∀ k ev k', k.Bounded → ev.Single → ¬ ev.IsTrap → ok k ev k') : Runs ok k0 k :=
  Relation.ReflTransGen.mono (fun _ _ ⟨ev, hs, hb, hev, ht⟩ => ⟨ev, hs, h _ ev _ hb hev ht⟩) _ _ hr

theorem envInited_first (k : Kernel) : k.envInited.envFreeList = some slot0 := rfl

theorem Boots.alone {mach : Machine} (h : Boots mach k0) (hs : k0.pmap.Spare (n + 5)) (text : Nat → BitVec 8)
    (type : EnvType) :
    ∃ (P : Platform) (k : Kernel) (a b : Nat), P.layout = mach.layout ∧ StartRuns k0 k ∧ Alone P k type n a b := by
  obtain ⟨P, l, hP, hl, hpool, hok, honly, hb⟩ := h.machineOk
  obtain ⟨b0, rfl⟩ := h.envInited
  obtain ⟨s, q, a, b, hexec, hspare, hload⟩ :=
    envCreate_progress hok.kernel hb (envInited_first _) hs text type
  have hs1 : Step b0.kernel.envInited (.create (program text) type) _ := .create hexec
  have hev : (Event.create (program text) type).Single := fun c hc => by simp [Event.cpu] at hc
  have hok1 := hok.step hb hs1 (hok.undisturbed hb honly hev hs1)
  have honly1 := hs1.onlyCpu0 hev honly
  generalize hk1 : b0.kernel.envInited.created slot0 s (q * pgsize) 0x800000#32 type = k1 at hs1 hok1 honly1
  have hstatus : (k1.envs slot0).status = .runnable := by
    rw [← hk1]
    simp [Kernel.created, newEnv]
  have hid : (k1.envs slot0).id = 4096#32 := by
    rw [← hk1]
    simp only [Kernel.created, newEnv, setEnv_self]
    exact (by decide : nextEnvId 0 slot0 = 4096#32)
  have hparent : (k1.envs slot0).parentId = 0#32 := by
    rw [← hk1]
    simp [Kernel.created, newEnv]
  have htype : (k1.envs slot0).type = type := by
    rw [← hk1]
    simp [Kernel.created]
  have hother : ∀ e, e ≠ slot0 → k1.envs e = b0.kernel.envInited.envs e := fun e he => by
    rw [← hk1]
    exact setEnv_of_ne he
  have hpmap : k1.pmap = s := by
    rw [← hk1]
    rfl
  have hcpus : ∀ c, k1.cpus c = ⟨.unused, none⟩ := fun c => by
    rw [← hk1]
    rfl
  have hnext : k1.envFreeList = some slot1 := by
    rw [← hk1]
    rfl
  have hdirs1 : k1.dirs = Function.update b0.kernel.envInited.dirs slot0 (some q) := by
    rw [← hk1]
    exact dirs_setEnv (k := b0.kernel.envInited.withPmap s) (by simp [newEnv]) rfl
  have hb1 : k1.Bounded := by
    unfold Kernel.Bounded
    rw [hdirs1, hpmap]
    exact hload.steady.bounded
  have hidle : (k1.awake 0).curenv 0 = none := awake_curenv.trans (congrArg CpuInfo.env (hcpus 0))
  have hrunnable : (k1.awake 0).runnableAt 0 = true := by
    refine (runnableAt_lt (by decide)).mpr ?_
    exact hstatus
  have hs2 : Step k1 (.start 0) _ := .enter (e := slot0) (congrArg CpuInfo.status (hcpus 0))
    (congrArg CpuInfo.env (hcpus 0)) (schedScan_here hrunnable)
  have hev2 : (Event.start 0).Single := fun c hc => (Option.some.inj hc).symm
  have hok2 := hok1.step hb1 hs2 (hok1.undisturbed hb1 honly1 hev2 hs2)
  have honly2 := hs2.onlyCpu0 hev2 honly1
  have hrun : StartRuns b0.kernel.envInited ((k1.awake 0).dispatch 0 slot0) :=
    (Relation.ReflTransGen.single ⟨_, hs1, hb, hev, fun ht => ht⟩).tail ⟨_, hs2, hb1, hev2, fun ht => ht⟩
  rw [dispatch_idle hidle] at hok2 honly2 hrun
  have hdirs2 : (((k1.awake 0).setCpu 0 { (k1.awake 0).cpus 0 with env := some slot0 }).setEnv slot0
      { (k1.awake 0).envs slot0 with
        status := .running, runs := ((k1.awake 0).envs slot0).runs + 1, cpunum := 0 }).dirs = k1.dirs := by
    refine dirs_setEnv_same ?_ rfl
    change EnvStatus.running = .free ↔ (k1.envs slot0).status = .free
    rw [hstatus]
    simp
  refine ⟨P, _, a, b, hP, hrun, hok2, ?_, honly2, ?_, ?_, ?_, ?_, ?_, ?_, ?_, ?_, ?_, ?_, ?_, ?_, ?_⟩
  · unfold Kernel.Bounded
    rw [hdirs2]
    exact hb1
  · change k1.pmap.Spare n
    rw [hpmap]
    exact hspare
  · rw [hdirs2, hdirs1]
    change Loaded P _ slot0 k1.pmap a b
    rw [hpmap]
    exact hload
  · simp [Kernel.curenv, Kernel.setCpu, Kernel.setEnv]
  · intro c hc
    simp [Kernel.setCpu, Kernel.setEnv, Kernel.awake, hc, hcpus]
  · simp
  · rw [setEnv_self]
    exact hid
  · rw [setEnv_self]
    exact hparent
  · rw [setEnv_self]
    exact htype
  · intro e he
    rw [setEnv_of_ne he]
    change (k1.envs e).status = _
    rw [hother e he]
    rfl
  · exact hnext
  · rw [setEnv_of_ne (by decide)]
    change (k1.envs slot1).id = _
    rw [hother slot1 (by decide)]
    rfl
  · intro e he
    rw [setEnv_of_ne he]
    change (k1.envs e).id = _ ∧ (k1.envs e).ipcRecving = _
    rw [hother e he]
    exact ⟨rfl, rfl⟩
  · intro e he h
    rw [setEnv_of_ne he]
    change (k1.envs e).link = _
    rw [hother e he]
    simp [Kernel.envInited, h]

/-- A machine with 64MB runs its first program with thousands of pages left. -/
theorem pc64_started (text : Nat → BitVec 8) (type : EnvType) :
    ∃ (k0 : Kernel) (P : Platform) (k : Kernel) (a b : Nat), Boots pc64 k0 ∧ P.layout = pc64.layout ∧
      StartRuns k0 k ∧ Alone P k type 14907 a b := by
  obtain ⟨k0, l, hboot, hl, hlen⟩ := pc64_boots
  obtain ⟨P, k, a, b, h⟩ := hboot.alone (n := 14907) ⟨l, hl, hlen⟩ text type
  exact ⟨k0, P, k, a, b, hboot, h⟩

theorem pc64_alone (text : Nat → BitVec 8) (type : EnvType) :
    ∃ (k0 : Kernel) (P : Platform) (k : Kernel) (a b : Nat), Boots pc64 k0 ∧ P.layout = pc64.layout ∧
      SingleRuns k0 k ∧ Alone P k type 14907 a b := by
  obtain ⟨k0, P, k, a, b, hboot, hP, hrun, h⟩ := pc64_started text type
  exact ⟨k0, P, k, a, b, hboot, hP, hrun.mono fun _ _ _ hb hev _ => ⟨hb, hev⟩, h⟩

theorem pc64_live : ∃ k0 P k a b, Boots pc64 k0 ∧ LiveRuns k0 k ∧ Alone P k .user 14907 a b := by
  obtain ⟨k0, P, k, a, b, hboot, -, hrun, h⟩ := pc64_alone (fun _ => 0#8) .user
  obtain ⟨_, -, -, -, -, hok, honly, -⟩ := hboot.machineOk
  exact ⟨k0, P, k, a, b, hboot, hok.liveRuns honly hrun, h⟩

end Jos
