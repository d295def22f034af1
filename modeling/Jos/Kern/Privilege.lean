import Jos.Kern.FirstProgram

/-!
# Saved registers and privilege

The registers `env_run` loads are those saved in `env_tf`. They keep user mode
at privilege level 3, with interrupts on and no I/O privilege, as long as what
is written there does: `sys_env_set_trapframe` copies a frame from the caller
as it is, and `sys_exofork` hands the caller's flags to a child of another type.
-/

namespace Jos

open Lib

/-- A frame `env_run` may load for an environment of the type `type`. -/
structure SafeFrame (type : EnvType) (tf : Trapframe) : Prop where
  cs : tf.cs &&& 3 = 3
  ss : tf.ss &&& 3 = 3
  ds : tf.ds &&& 3 = 3
  es : tf.es &&& 3 = 3
  interrupts : tf.eflags &&& flIF = flIF
  iopl : type ≠ .fs → tf.eflags &&& flIOPL3 = 0

/-- Some CPU may still load the registers of `e`. -/
def Kernel.Loadable (k : Kernel) (e : EnvPtr) : Prop := k.Live e ∨ ∃ c, k.curenv c = some e

def Kernel.Unprivileged (k : Kernel) : Prop := ∀ e, k.Loadable e → SafeFrame (k.envs e).type (k.envs e).tf

theorem safeFrame_created (entry : Word) (type : EnvType) : SafeFrame type (createdTf entry type) := by
  cases type <;> constructor <;> simp [createdTf, initialTf] <;> decide

theorem SafeFrame.moved (h : SafeFrame type tf) (regs : PushRegs) (esp eip : Word) :
    SafeFrame type { tf with regs := regs, esp := esp, eip := eip } :=
  ⟨h.cs, h.ss, h.ds, h.es, h.interrupts, h.iopl⟩

section
variable {k k' : Kernel}

theorem loadable_resolve (hcur : k.Loadable cur) (h : k.resolve cur envid checkperm = some e) : k.Loadable e := by
  obtain rfl | h := resolve_cases h
  · exact hcur
  · exact .inl h.1

theorem Kernel.Unprivileged.setEnv (h : k.Unprivileged) (henv : SafeFrame env.type env.tf) :
    (k.setEnv e env).Unprivileged := by
  intro x hx
  by_cases hxe : x = e
  · subst hxe
    rw [setEnv_self]
    exact henv
  · rw [setEnv_of_ne hxe]
    exact h x (hx.imp_left fun hl => by simpa [Kernel.Live, setEnv_of_ne hxe] using hl)

theorem Kernel.Unprivileged.fewer (h : k.Unprivileged) (hl : ∀ x, k'.Loadable x → k.Loadable x)
    (henv : ∀ x, (k'.envs x).type = (k.envs x).type ∧ (k'.envs x).tf = (k.envs x).tf) : k'.Unprivileged := by
  intro x hx
  rw [(henv x).1, (henv x).2]
  exact h x (hl x hx)

theorem loadable_awake (hx : (k.awake c).Loadable x) : k.Loadable x :=
  hx.imp id fun ⟨c', hc'⟩ => ⟨c', awake_curenv.symm.trans hc'⟩

theorem loadable_noCurenv (hx : (k.noCurenv c).Loadable x) : k.Loadable x := by
  refine hx.imp id fun ⟨c', hc'⟩ => ⟨c', ?_⟩
  rw [Kernel.noCurenv, setCpu_curenv] at hc'
  split at hc'
  · simp at hc'
  · exact hc'

theorem Exits.loadable (he : Exits k c p) (hx : p.2.Loadable x) : k.Loadable x := by
  refine hx.elim (fun hl => .inl (he.live.mp hl)) ?_
  rintro ⟨c', hc'⟩
  by_cases hcc : c' = c
  · subst hcc
    refine (he.current hc').elim (fun hc => .inr ⟨c', hc⟩) fun hr => .inl ?_
    rw [Kernel.Live, hr]
    decide
  · exact .inr ⟨c', (he.curenv_of_ne hcc).symm.trans hc'⟩

theorem Kernel.Unprivileged.exits (h : k.Unprivileged) (he : Exits k c p) : p.2.Unprivileged := by
  refine h.fewer (fun x => he.loadable) fun x => ?_
  obtain ⟨st, r, n, henv⟩ := he.env x
  rw [henv]
  exact ⟨rfl, rfl⟩

/-! ## One kernel entry -/

/-- What a system call must not do: load a frame that is not safe for its
environment, or fork with I/O privilege in the saved flags. -/
def Args.Tame (a : Args) (cur : EnvPtr) (k : Kernel) : Prop :=
  (a.no = 9 → ∀ e tf, k.resolve cur a.a1 true = some e →
    exec (vloadTrapframe (k.envs cur).pgdir a.a2) k.pmap = (.ok tf, k.pmap) → SafeFrame (k.envs e).type tf) ∧
  (a.no = 7 → (k.envs cur).tf.eflags &&& flIOPL3 = 0)

section
variable (h : k.Unprivileged)
include h

theorem Kernel.Unprivileged.forked (htf : SafeFrame .user (k.envs cur).tf) : (k.forked cur e s pgdir).Unprivileged := by
  have halloc : (k.allocated e s pgdir (k.envs cur).id).Unprivileged :=
    Kernel.Unprivileged.setEnv (k := k.withPmap s) h (safeFrame_created 0 .user)
  have hcur : SafeFrame .user ((k.allocated e s pgdir (k.envs cur).id).envs cur).tf := by
    simp only [Kernel.allocated, setEnv_apply]
    split
    · exact safeFrame_created 0 .user
    · exact htf
  refine halloc.setEnv ?_
  simp only [Kernel.allocated, setEnv_self, newEnv] at hcur ⊢
  exact hcur.moved ..

theorem Kernel.Unprivileged.sys (hcur : k.Loadable cur) (ht : a.Tame cur k)
    (hs : Sys cur a k k') : k'.Unprivileged := by
  cases hs with
  | nothing => exact h
  | envDying _ he _ _ => exact h.setEnv (h _ (loadable_resolve hcur he))
  | envFreed _ he _ _ _ =>
    exact Kernel.Unprivileged.setEnv (k := k.withPmap _) h (h _ (loadable_resolve hcur he))
  | pageAlloc _ _ _ _ _ => exact h
  | pageMap _ _ _ _ _ _ _ => exact h
  | pageUnmap _ _ _ _ => exact h
  | exofork hno _ _ =>
    have hsafe := h cur hcur
    exact h.forked ⟨hsafe.cs, hsafe.ss, hsafe.ds, hsafe.es, hsafe.interrupts, fun _ => ht.2 hno⟩
  | setStatus _ he _ => exact h.setEnv (h _ (loadable_resolve hcur he))
  | setTrapframe hno he hs => exact h.setEnv (ht.1 hno _ _ he hs)
  | setUpcall _ he => exact h.setEnv (h _ (loadable_resolve hcur he))
  | send _ he _ _ => exact h.setEnv ((h _ (loadable_resolve hcur he)).moved ..)
  | sendPage _ he _ _ _ _ _ =>
    exact Kernel.Unprivileged.setEnv (k := k.withPmap _) h ((h _ (loadable_resolve hcur he)).moved ..)
  | transmit _ => exact h

theorem Kernel.Unprivileged.freed (hcur : k.Loadable e) : (k.freed e s).Unprivileged :=
  Kernel.Unprivileged.setEnv (k := k.withPmap s) h (h _ hcur)

theorem Kernel.Unprivileged.noCurenv : (k.noCurenv c).Unprivileged :=
  h.fewer (fun _ => loadable_noCurenv) fun _ => ⟨rfl, rfl⟩

theorem Kernel.Unprivileged.destroyed (hcur : k.Loadable cur) (hd : Destroyed c cur k k') : k'.Unprivileged := by
  obtain ⟨w, s, -, rfl⟩ := hd
  exact (h.freed hcur).noCurenv

theorem Kernel.Unprivileged.handles (hc : k.curenv c = some cur)
    (ht : tf.trapno = trapSyscall → tf.args.Tame cur k) (hs : Handles c cur tf k k') : k'.Unprivileged := by
  have hcur : k.Loadable cur := .inr ⟨c, hc⟩
  cases hs with
  | ticked _ => exact h
  | @syscall k1 _ hno hs _ =>
    have h1 := h.sys hcur (ht hno) hs
    have hcur1 : k1.Loadable cur := .inr ⟨c, by unfold Kernel.curenv; rw [hs.cpus]; exact hc⟩
    exact h1.setEnv ((h1 _ hcur1).moved ..)
  | sleeps _ hs =>
    cases hs with
    | yield _ => exact h
    | recv _ _ => exact h.setEnv (h _ hcur)
    | destroyed _ _ hd => exact h.destroyed hcur hd
  | destroyed _ hd => exact h.destroyed hcur hd
  | fault _ _ _ => exact Kernel.Unprivileged.setEnv (k := k.withPmap _) h ((h _ hcur).moved ..)

end

/-- The hardware saves only frames that user mode may have, and a system call is tame. -/
def Event.Tame (k : Kernel) : Event → Prop
  | .trap c tf _ => tf.cs &&& 3 = 3 → ∀ cur, k.curenv c = some cur → SafeFrame (k.envs cur).type tf ∧
      (tf.trapno = trapSyscall → tf.args.Tame cur (k.entered c cur tf))
  | _ => True

theorem Kernel.Unprivileged.ready (h : k.Unprivileged) (ht : (Event.trap c tf cr2).Tame k) (hr : Ready c tf k k') :
    k'.Unprivileged := by
  have hawake : (k.awake c).Unprivileged := h.fewer (fun _ => loadable_awake) fun _ => ⟨rfl, rfl⟩
  cases hr with
  | woken _ => exact hawake
  | reaped _ hc _ _ => exact (hawake.freed (.inr ⟨c, awake_curenv.trans hc⟩)).noCurenv
  | handled hu hc _ hh =>
    obtain ⟨hsafe, hcall⟩ := ht hu _ hc
    exact Kernel.Unprivileged.handles (hawake.setEnv hsafe) (entered_curenv.trans hc) hcall hh

theorem Kernel.Unprivileged.step (h : k.Unprivileged) (hs : Step k ev k') (ht : ev.Tame k) : k'.Unprivileged := by
  cases hs.does with
  | @start c _ _ _ he _ =>
    have hawake : (k.awake c).Unprivileged := h.fewer (fun _ => loadable_awake) fun _ => ⟨rfl, rfl⟩
    exact hawake.exits he
  | trap hr he _ => exact (h.ready ht hr).exits he
  | @create _ type _ s _ _ _ => exact Kernel.Unprivileged.setEnv (k := k.withPmap s) h (safeFrame_created _ type)
  | store _ _ _ | stack _ | card => exact h

end

theorem Boots.unprivileged {mach : Machine} (h : Boots mach k) : k.Unprivileged := by
  obtain ⟨b, rfl⟩ := h.envInited
  rintro e (hl | ⟨c, hc⟩)
  · exact absurd rfl hl
  · simp [Kernel.curenv, Kernel.envInited, Boot.kernel] at hc

/-- In every run, on any number of CPUs, that loads only safe frames and forks
only without I/O privilege, the saved registers of every live environment are
safe to load. -/
theorem saved_frames_unprivileged {mach : Machine} (hboot : Boots mach k0)
    (hrun : Runs (fun k ev _ => ev.Tame k) k0 k) (hl : k.Live e) : SafeFrame (k.envs e).type (k.envs e).tf :=
  hrun.invariant hboot.unprivileged (fun _ _ _ h hs ht => h.step hs ht) e (.inl hl)

/-- The first program of a machine with 64MB. -/
theorem saved_frames_unprivileged_pc64 : ∃ k0 k : Kernel, Boots pc64 k0 ∧
    Runs (fun k ev _ => ev.Tame k) k0 k ∧ k.Live slot0 ∧ SafeFrame (k.envs slot0).type (k.envs slot0).tf := by
  obtain ⟨k0, l, hboot, hl, hlen⟩ := pc64_boots
  obtain ⟨P, -, -, -, -, hok, -, hb⟩ := hboot.machineOk
  have hboot' := hboot
  obtain ⟨b0, rfl⟩ := hboot.envInited
  obtain ⟨s, q, a, b, hexec, -, -⟩ :=
    envCreate_progress (n := 0) hok.kernel hb (envInited_first _) ⟨l, hl, by omega⟩ (fun _ => 0#8) .fs
  have hrun : Runs (fun k ev _ => ev.Tame k) b0.kernel.envInited _ :=
    Relation.ReflTransGen.single ⟨_, Step.create hexec, trivial⟩
  have hlive : (b0.kernel.envInited.created slot0 s (q * pgsize) 0x800000#32 .fs).Live slot0 := by
    simp [Kernel.Live, Kernel.created, newEnv]
  exact ⟨_, _, hboot', hrun, hlive, saved_frames_unprivileged hboot' hrun hlive⟩

/-! ## A frame from the window on the page tables -/

def zeroFrame : Trapframe where
  regs := .zero
  es := 0
  ds := 0
  trapno := 0
  err := 0
  eip := 0
  cs := 0
  eflags := 0
  esp := 0
  ss := 0

section
variable {s : Pmap} {pgdir : Nat}

theorem exec_vload8 (ht : translate s.mem pgdir va = some (p, f)) :
    exec (vload8 pgdir va) s = (.ok (s.mem (physical p va)), s) := by
  simp [vload8, exec_bind, ht]

theorem exec_vload32_zero (h : ∀ j, j < 4 → exec (vload8 pgdir (va + BitVec.ofNat 32 j)) s = (.ok 0#8, s)) :
    exec (vload32 pgdir va) s = (.ok 0#32, s) := by
  have h0 := h 0 (by decide)
  rw [show va + BitVec.ofNat 32 0 = va by simp] at h0
  unfold vload32
  have h1 : exec (vload8 pgdir (va + 1)) s = (.ok 0#8, s) := h 1 (by decide)
  have h2 : exec (vload8 pgdir (va + 2)) s = (.ok 0#8, s) := h 2 (by decide)
  have h3 : exec (vload8 pgdir (va + 3)) s = (.ok 0#8, s) := h 3 (by decide)
  rw [exec_bind_ok h0, exec_bind_ok h1, exec_bind_ok h2, exec_bind_ok h3]
  rfl

theorem exec_vloadTrapframe_zero
    (h : ∀ j, j < 68 → exec (vload8 pgdir (va + BitVec.ofNat 32 j)) s = (.ok 0#8, s)) :
    exec (vloadTrapframe pgdir va) s = (.ok zeroFrame, s) := by
  have hword : ∀ n, n < 17 → exec (vload32 pgdir (va + BitVec.ofNat 32 (4 * n))) s = (.ok 0#32, s) := by
    intro n hn
    refine exec_vload32_zero fun j hj => ?_
    rw [BitVec.add_assoc, ← BitVec.ofNat_add]
    exact h _ (by omega)
  unfold vloadTrapframe
  dsimp only
  rw [exec_bind_ok (hword 0 (by decide)), exec_bind_ok (hword 1 (by decide)), exec_bind_ok (hword 2 (by decide)),
    exec_bind_ok (hword 3 (by decide)), exec_bind_ok (hword 4 (by decide)), exec_bind_ok (hword 5 (by decide)),
    exec_bind_ok (hword 6 (by decide)), exec_bind_ok (hword 7 (by decide)), exec_bind_ok (hword 8 (by decide)),
    exec_bind_ok (hword 9 (by decide)), exec_bind_ok (hword 10 (by decide)), exec_bind_ok (hword 11 (by decide)),
    exec_bind_ok (hword 12 (by decide)), exec_bind_ok (hword 13 (by decide)), exec_bind_ok (hword 14 (by decide)),
    exec_bind_ok (hword 15 (by decide)), exec_bind_ok (hword 16 (by decide))]
  rfl

end

/-- The address of directory entry 100 in the window on the page tables. -/
def unusedEntries : Word := 0xEF7BD190#32

/-- The program reads zeros there, and `sys_env_set_trapframe` loads them. -/
theorem Alone.zeroFrame (h : Alone P k type n text stack) :
    exec (vloadTrapframe (k.envs slot0).pgdir unusedEntries) k.pmap = (.ok zeroFrame, k.pmap) := by
  have hl := live_of_running h.status
  obtain ⟨q, hq, hp⟩ := h.machine.kernel.dir hl
  obtain ⟨l, hm⟩ := h.machine.kernel.mem
  rw [hp]
  refine exec_vloadTrapframe_zero fun j hj => ?_
  have hn : (unusedEntries + BitVec.ofNat 32 j).toNat = 0xEF7BD190 + j := by
    rw [BitVec.toNat_add, BitVec.toNat_ofNat, show unusedEntries.toNat = 0xEF7BD190 from rfl]
    omega
  have hd : pdx (unusedEntries + BitVec.ofNat 32 j) = pdx uvpt := by
    rw [pdx_uvpt, pdx_eq, hn]
    omega
  have ht : ptx (unusedEntries + BitVec.ofNat 32 j) = pdx uvpt := by
    rw [pdx_uvpt, ptx_eq, hn]
    omega
  have hpte : pteOf k.dirs k.pmap.mem slot0 (pdx uvpt) (pdx uvpt) = pdeOf k.dirs k.pmap.mem slot0 (pdx uvpt) := by
    rw [pteOf_some (hm.self_table hq), pdeOf_some hq]
  have htr : ∃ f, translate k.pmap.mem (q * pgsize) (unusedEntries + BitVec.ofNat 32 j) = some (q, f) := by
    refine ⟨_, (translate_eq_some hq).mpr ⟨q, ?_, ?_, rfl⟩⟩
    · rw [hd]
      exact hm.self_table hq
    · rw [hd, ht, hpte]
      exact hm.self_table hq
  obtain ⟨f, htr⟩ := htr
  rw [exec_vload8 htr]
  have hphys : physical q (unusedEntries + BitVec.ofNat 32 j) = q * pgsize + (400 + j) := by
    rw [physical, pgoff_eq, hn]
    omega
  have hentry : k.pmap.mem.read32 (q * pgsize + 4 * ((400 + j) / 4)) = 0#32 := by
    rw [← pdeOf_some hq]
    exact h.loaded.pde (show (400 + j) / 4 < 955 by omega) (by omega) (by omega)
  rw [hphys, Mem.byte_of_read32_zero hentry]

/-- The first program calls `sys_env_set_trapframe` on itself with the address
of unused entries of its page directory, and is resumed with the frame found
there: code segment 0 at privilege level 0, interrupts off. -/
theorem set_trapframe_unsafe : ∃ k0 k k' : Kernel, Boots pc64 k0 ∧ SingleRuns k0 k ∧
    Step k (.trap 0 (callFrame ⟨9, 0, unusedEntries, 0, 0, 0⟩) 0) k' ∧
    SafeFrame .user (callFrame ⟨9, 0, unusedEntries, 0, 0, 0⟩) ∧ k'.Live slot0 ∧
    ((k'.envs slot0).tf.cs = 0 ∧ (k'.envs slot0).tf.eflags = 0) ∧
    ¬ SafeFrame (k'.envs slot0).type (k'.envs slot0).tf := by
  obtain ⟨k0, P, k, a, b, hboot, -, hrun, h⟩ := pc64_alone (fun _ => 0#8) .user
  obtain ⟨A, hA⟩ : ∃ A : Args, A = ⟨9, 0, unusedEntries, 0, 0, 0⟩ := ⟨_, rfl⟩
  have hload : exec (vloadTrapframe ((k.entered 0 slot0 (callFrame A)).envs slot0).pgdir unusedEntries)
      (k.entered 0 slot0 (callFrame A)).pmap = (.ok zeroFrame, (k.entered 0 slot0 (callFrame A)).pmap) := by
    simp only [Kernel.entered, setEnv_self, setEnv_pmap]
    exact h.zeroFrame
  have hres : (k.entered 0 slot0 (callFrame A)).resolve slot0 0 true = some slot0 := by
    simp [Kernel.resolve]
  have hcall := exec_setTrapframe_call (a := A) (c := 0) (by rw [hA]) (by rw [hA]; exact hres)
    (by rw [hA]; decide) (by rw [hA]; rw [hA] at hload; exact hload)
  have hcur : (k.entered 0 slot0 (callFrame A)).curenv 0 = some slot0 := entered_curenv.trans h.curenv
  have hstep : Step k (.trap 0 (callFrame A) 0) _ := .call h.curenv (by rw [h.status]; decide) hcall hcur
    (by simpa [Kernel.entered] using h.status)
  rw [hA] at hstep
  refine ⟨k0, k, _, hboot, hrun, hstep, ?_, ?_, ?_, ?_⟩
  · constructor <;> simp [callFrame, initialTf] <;> decide
  · simp [Kernel.Live, Kernel.resumed, Kernel.entered, h.status]
  · simp [Kernel.resumed, zeroFrame]
  · intro hs
    have hcs := hs.cs
    simp [Kernel.resumed, zeroFrame] at hcs

end Jos
