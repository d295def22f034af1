import Jos.Kern.RefWrap

/-!
# What a system call leaves alone

A system call changes the caller, its children and pages that were free. Every
other environment keeps its record, its page tables and what is in its pages,
unless it waits for a message and gets one. The free pages are the weak point:
a page that is mapped and on the free list all the same, as after a reference
count has wrapped, is cleared under the environment that maps it.
-/

namespace Jos

open Lib

section
variable {ι : Type} [Fintype ι] {P : Platform} {dirs : ι → Option Nat} {s : Pmap}

/-- Below `UTOP` the hardware sees the table entries. -/
theorem MemOk.translate_eq (h : MemOk P dirs pend held l s) (hq : dirs i = some q) (ho : Own (pdx va)) :
    translate s.mem (q * pgsize) va = (entryPage (pteOf dirs s.mem i (pdx va) (ptx va))).map
      fun p => (p, pteOf dirs s.mem i (pdx va) (ptx va) &&& 0xFFF#32) := by
  cases hp : entryPage (pteOf dirs s.mem i (pdx va) (ptx va)) with
  | some p => exact h.translate_own hq ho hp
  | none =>
    cases ht : translate s.mem (q * pgsize) va with
    | none => rfl
    | some x =>
      obtain ⟨_, _, hx, _⟩ := (translate_eq_some hq).mp ht
      simp [hp] at hx

end

/-! ## One system call -/

variable {k : Kernel} {P : Platform}

/-- The record of `b` is the same but for what the scheduler keeps there, and so is its memory. -/
structure Aside (b : EnvPtr) (k k' : Kernel) : Prop where
  record : ∃ status runs cpunum, k'.envs b = { k.envs b with status, runs, cpunum }
  live : k'.Live b
  mem : KeepsSpace k.dirs b k.pmap.mem k'.pmap.mem

theorem Aside.refl (hl : k.Live b) : Aside b k k := ⟨⟨_, _, _, rfl⟩, hl, .refl _⟩

theorem Aside.of_envs (hl : k.Live b) (he : k'.envs b = k.envs b)
    (hm : KeepsSpace k.dirs b k.pmap.mem k'.pmap.mem) : Aside b k k' :=
  ⟨⟨_, _, _, he⟩, by rwa [Kernel.Live, he], hm⟩

theorem Aside.setEnv (hl : k.Live b) (hne : b ≠ e) (env : Env) : Aside b k (k.setEnv e env) :=
  .of_envs hl (setEnv_of_ne hne) (.refl _)

theorem ne_of_family (hne : b ≠ cur) (hchild : (k.envs b).parentId ≠ (k.envs cur).id)
    (he : k.resolve cur envid true = some e) : b ≠ e := by
  rintro rfl
  obtain rfl | ⟨-, -, hparent⟩ := resolve_cases he
  · exact hne rfl
  · exact hchild (hparent rfl)

section
variable (h : KernelOk P k) (hb : k.Bounded) (hcur : k.Live cur) (hl : k.Live b) (hne : b ≠ cur)
include h hb hcur hl hne

theorem Sys.aside (hchild : (k.envs b).parentId ≠ (k.envs cur).id) (hs : Sys cur a k k') (hno : a.no ≠ 12) :
    Aside b k k' := by
  obtain ⟨l, hok⟩ := h.mem
  cases hs with
  | nothing => exact .refl hl
  | envDying _ he _ _ => exact .setEnv hl (ne_of_family hne hchild he) _
  | envFreed _ he _ _ hs =>
    have hbe := ne_of_family hne hchild he
    exact .of_envs hl (setEnv_of_ne hbe) ((h.freeSpace hb (live_resolve hcur he) hs).2.keeps hbe)
  | pageAlloc _ he hva hperm hs =>
    exact .of_envs hl rfl ((h.pageAlloc hb (live_resolve hcur he) hva hperm hs).2.1.keeps
      (ne_of_family hne hchild he))
  | pageMap _ hsrc hdst hva hva' hperm hs =>
    obtain rfl | ⟨p, hshared⟩ := h.pageMap hb (live_resolve hcur hsrc) (live_resolve hcur hdst) hva hva' hperm hs
    · exact .refl hl
    · exact .of_envs hl rfl (hshared.inserted.touches.keeps (ne_of_family hne hchild hdst))
  | pageUnmap _ he hva hs =>
    exact .of_envs hl rfl (((h.pageUnmap hb (live_resolve hcur he) hva hs).touches hok).keeps
      (ne_of_family hne hchild he))
  | @exofork e _ _ _ hf hs =>
    obtain ⟨q, rfl, hnew⟩ := h.setupVm hb hf hs
    have hbe : b ≠ e := fun hx => h.slots.head_free hf (hx ▸ hl)
    refine .of_envs hl ?_ ((hnew.touches hok).keeps hbe)
    simp [Kernel.forked, Kernel.allocated, setEnv_of_ne hbe, Kernel.withPmap]
  | setStatus _ he _ | setTrapframe _ he _ | setUpcall _ he => exact .setEnv hl (ne_of_family hne hchild he) _
  | send hn _ _ _ | sendPage hn _ _ _ _ _ _ => exact absurd hn hno
  | transmit _ => exact .of_envs hl rfl (.refl _)

end

/-- `b` waited for a message and got that of `cur`. Its tables changed at most at
the address it asked for the page at, and nothing changed in the pages it had. -/
structure Received (cur b : EnvPtr) (a : Args) (k k' : Kernel) : Prop where
  target : k.resolve cur a.a1 false = some b
  recving : (k.envs b).ipcRecving = true
  record : ∃ perm status runs cpunum, k'.envs b = { k.envs b with
    ipcPerm := perm, ipcRecving := false, ipcValue := a.a2, ipcFrom := (k.envs cur).id
    tf := { (k.envs b).tf with regs := { (k.envs b).tf.regs with eax := 0 } }
    status, runs, cpunum }
  live : k'.Live b
  pde : d < 1024 → ¬ ((k.envs b).ipcDstva < utop ∧ d = pdx (k.envs b).ipcDstva) →
    pdeOf k.dirs k'.pmap.mem b d = pdeOf k.dirs k.pmap.mem b d
  pte : Own d → t < 1024 →
    ¬ ((k.envs b).ipcDstva < utop ∧ d = pdx (k.envs b).ipcDstva ∧ t = ptx (k.envs b).ipcDstva) →
    pteOf k.dirs k'.pmap.mem b d t = pteOf k.dirs k.pmap.mem b d t
  page : Own d → t < 1024 → entryPage (pteOf k.dirs k.pmap.mem b d t) = some (x / pgsize) →
    k'.pmap.mem x = k.pmap.mem x

section
variable (h : KernelOk P k) (hb : k.Bounded) (hcur : k.Live cur) (hl : k.Live b) (hne : b ≠ cur)
include h hb hcur hl hne

omit hne in
/-- A message reaches the environment it is for and no other. -/
theorem Sends.aside (hs : Sends cur a k r k') : Aside b k k' ∨ (r = 0 ∧ Received cur b a k k') := by
  cases hs with
  | refused _ _ => exact .inl (.refl hl)
  | @value e he hrecv _ =>
    by_cases hbe : b = e
    · subst hbe
      refine .inr ⟨rfl, he, hrecv, ⟨0, .runnable, _, _, setEnv_self ..⟩,
        by simp [Kernel.Live, Kernel.delivered], fun _ _ => rfl, fun _ _ _ => rfl, fun _ _ _ => rfl⟩
    · exact .inl (.setEnv hl hbe _)
  | @page e s he hrecv hdst hva hperm hs =>
    obtain ⟨p, hshared⟩ := h.sentPage hb hcur (live_resolve hcur he) hva hdst hperm hs
    have hins := hshared.inserted
    by_cases hbe : b = e
    · subst hbe
      refine .inr ⟨rfl, he, hrecv, ⟨a.a4, .runnable, _, _, setEnv_self ..⟩,
        by simp [Kernel.Live, Kernel.delivered], fun hd hn => ?_, fun ho hk hn => ?_, hins.touches.page⟩
      · exact hins.pde b _ hd fun hx => hn ⟨hdst, hx.2⟩
      · exact (hins.pte b _ _ ho hk).trans (if_neg fun hx => hn ⟨hdst, hx.2⟩)
    · exact .inl (.of_envs hl (setEnv_of_ne hbe) (hins.touches.keeps hbe))

theorem Destroyed.aside (hd : Destroyed c cur k k') : Aside b k k' := by
  obtain ⟨w, s, hs, rfl⟩ := hd
  exact .of_envs hl (setEnv_of_ne hne) ((h.freeSpace hb hcur hs).2.keeps hne)

theorem Sleeps.aside (hs : Sleeps c cur a k k') : Aside b k k' := by
  cases hs with
  | yield _ => exact .refl hl
  | recv _ _ => exact .setEnv hl hne _
  | destroyed _ _ hd => exact hd.aside h hb hcur hl hne

end

/-! ## From the trap to the return -/

theorem entered_of_ne (hne : b ≠ cur) : (k.entered c cur tf).envs b = k.envs b := setEnv_of_ne hne

theorem Aside.of_entered (h : Aside b (k.entered c cur tf) k') (hne : b ≠ cur) : Aside b k k' := by
  obtain ⟨hrecord, hlive, hmem⟩ := h
  rw [entered_of_ne hne] at hrecord
  rw [entered_dirs] at hmem
  exact ⟨hrecord, hlive, hmem⟩

theorem Aside.setOther (h : Aside b k k') (hne : b ≠ e) (env : Env) : Aside b k (k'.setEnv e env) := by
  have hb : (k'.setEnv e env).envs b = k'.envs b := setEnv_of_ne hne
  refine ⟨?_, ?_, h.mem⟩
  · rw [hb]
    exact h.record
  · rw [Kernel.Live, hb]
    exact h.live

theorem Aside.exits (h : Aside b k k1) (he : Exits k1 c (x, k')) (hcur : k1.Current c) : Aside b k k' := by
  obtain ⟨_, _, _, hrecord⟩ := h.record
  obtain ⟨status, runs, cpunum, henv⟩ := he.env b
  refine ⟨⟨status, runs, cpunum, by rw [henv, hrecord]⟩, he.live.mpr h.live, ?_⟩
  rw [(he.mem hcur).2]
  exact h.mem

theorem Received.of_entered (h : Received cur b a (k.entered c cur tf) k') (hne : b ≠ cur) :
    Received cur b a k k' := by
  have hid : ((k.entered c cur tf).envs cur).id = (k.envs cur).id := setEnv_field (k := k.awake c) Env.id (by rfl)
  obtain ⟨htarget, hrecv, hrecord, hlive, hpde, hpte, hpage⟩ := h
  rw [entered_resolve] at htarget
  rw [entered_of_ne hne] at hrecv
  rw [entered_of_ne hne, hid] at hrecord
  rw [entered_of_ne hne, entered_dirs] at hpde hpte
  rw [entered_dirs] at hpage
  exact ⟨htarget, hrecv, hrecord, hlive, hpde, hpte, hpage⟩

theorem Received.setOther (h : Received cur b a k k') (hne : b ≠ e) (env : Env) :
    Received cur b a k (k'.setEnv e env) := by
  have hb : (k'.setEnv e env).envs b = k'.envs b := setEnv_of_ne hne
  refine ⟨h.target, h.recving, ?_, ?_, h.pde, h.pte, h.page⟩
  · rw [hb]
    exact h.record
  · rw [Kernel.Live, hb]
    exact h.live

theorem Received.exits (h : Received cur b a k k1) (he : Exits k1 c (x, k')) (hcur : k1.Current c) :
    Received cur b a k k' := by
  obtain ⟨perm, _, _, _, hrecord⟩ := h.record
  obtain ⟨status, runs, cpunum, henv⟩ := he.env b
  have hpmap := (he.mem hcur).2
  refine ⟨h.target, h.recving, ⟨perm, status, runs, cpunum, by rw [henv, hrecord]⟩, he.live.mpr h.live, ?_, ?_, ?_⟩
  · rw [hpmap]
    exact h.pde
  · rw [hpmap]
    exact h.pte
  · rw [hpmap]
    exact h.page

/-- One system call of `cur`, from the trap to the return. -/
theorem KernelOk.bystander (h : KernelOk P k) (hb : k.Bounded) (hlive : k.Current c) (hc : k.curenv c = some cur)
    (hs : Step k (.trap c tf cr2) k') (hcall : tf.trapno = trapSyscall) (hl : k.Live b) (hne : b ≠ cur)
    (hchild : (k.envs b).parentId ≠ (k.envs cur).id) :
    Aside b k k' ∨ (tf.args.no = 12 ∧ (k'.envs cur).tf.regs.eax = 0 ∧ Received cur b tf.args k k') := by
  obtain - | ⟨hr, he, -⟩ := hs.does
  have hcur := hlive _ hc
  have hcur1 := (h.ready hb hlive hr).2
  cases hr with
  | woken _ =>
    refine .inl (Aside.exits ?_ he hcur1)
    exact .of_envs hl rfl (.refl _)
  | @reaped x s _ hx _ hs =>
    obtain rfl := Option.some.inj (hc.symm.trans hx)
    refine .inl (Aside.exits ?_ he hcur1)
    exact .of_envs hl (setEnv_of_ne hne) ((h.freeSpace hb hcur hs).2.keeps hne)
  | @handled x _ _ hx _ hh =>
    obtain rfl := Option.some.inj (hc.symm.trans hx)
    have hok : KernelOk P (k.entered c cur tf) := h.entered hcur
    have hb' : (k.entered c cur tf).Bounded := entered_bounded hb
    have hcur' : (k.entered c cur tf).Live cur := entered_live.mpr hcur
    have hl' : (k.entered c cur tf).Live b := entered_live.mpr hl
    have hchild' : ((k.entered c cur tf).envs b).parentId ≠ ((k.entered c cur tf).envs cur).id := by
      rw [entered_of_ne hne, show ((k.entered c cur tf).envs cur).id = (k.envs cur).id from
        setEnv_field (k := k.awake c) Env.id (by rfl)]
      exact hchild
    cases hh with
    | ticked _ =>
      refine .inl (Aside.exits ?_ he hcur1)
      exact .of_entered (.of_envs hl' rfl (.refl _)) hne
    | @syscall k2 r _ hsys hrun =>
      have haside : Aside b (k.entered c cur tf) k2 → Aside b k k' := fun h2 =>
        ((h2.setOther hne _).of_entered hne).exits he hcur1
      by_cases hno : tf.args.no = 12
      · obtain ⟨code, rfl, hsend⟩ := sends_of_call hno hrun
        obtain h2 | ⟨rfl, h2⟩ := hsend.aside hok hb' hcur' hl'
        · exact .inl (haside h2)
        · refine .inr ⟨hno, ?_, ((h2.setOther hne _).of_entered hne).exits he hcur1⟩
          obtain ⟨_, _, _, henv⟩ := he.env cur
          rw [henv]
          simp [Kernel.setEax]
      · exact .inl (haside (hsys.aside hok hb' hcur' hl' hne hchild' hno))
    | sleeps _ hs => exact .inl (((hs.aside hok hb' hcur' hl' hne).of_entered hne).exits he hcur1)
    | destroyed _ hd => exact .inl (((hd.aside hok hb' hcur' hl' hne).of_entered hne).exits he hcur1)
    | fault hn =>
      rw [hcall] at hn
      exact absurd hn (by decide)

/-! ## Every other environment -/

/-- Nothing of `b` has changed but what the scheduler keeps in its record: neither
the rest of the record, nor its page tables, nor what is in its pages. -/
structure LeftAlone (b : EnvPtr) (k k' : Kernel) : Prop where
  record : ∃ status runs cpunum, k'.envs b = { k.envs b with status, runs, cpunum }
  live : k'.Live b
  pde : d < 1024 → k'.pde b d = k.pde b d
  pte : Own d → t < 1024 → k'.pte b d t = k.pte b d t
  page : Own d → t < 1024 → entryPage (k.pte b d t) = some (x / pgsize) → k'.pmap.mem x = k.pmap.mem x

/-- `b` waited for a message and `cur` sent it one: its IPC fields, its status and the
result of its call changed, and if it asked for a page the mapping at that address. -/
structure GotMessage (cur b : EnvPtr) (a : Args) (k k' : Kernel) : Prop where
  call : a.no = 12
  returned : (k'.envs cur).tf.regs.eax = 0
  target : k.resolve cur a.a1 false = some b
  recving : (k.envs b).ipcRecving = true
  record : ∃ perm status runs cpunum, k'.envs b = { k.envs b with
    ipcPerm := perm, ipcRecving := false, ipcValue := a.a2, ipcFrom := (k.envs cur).id
    tf := { (k.envs b).tf with regs := { (k.envs b).tf.regs with eax := 0 } }
    status, runs, cpunum }
  live : k'.Live b
  pde : d < 1024 → ¬ ((k.envs b).ipcDstva < utop ∧ d = pdx (k.envs b).ipcDstva) → k'.pde b d = k.pde b d
  pte : Own d → t < 1024 →
    ¬ ((k.envs b).ipcDstva < utop ∧ d = pdx (k.envs b).ipcDstva ∧ t = ptx (k.envs b).ipcDstva) →
    k'.pte b d t = k.pte b d t
  view : va < utop → ¬ ((k.envs b).ipcDstva < utop ∧ pgnum va = pgnum (k.envs b).ipcDstva) →
    translate k'.pmap.mem (k'.envs b).pgdir va = translate k.pmap.mem (k.envs b).pgdir va
  page : Own d → t < 1024 → entryPage (k.pte b d t) = some (x / pgsize) → k'.pmap.mem x = k.pmap.mem x

theorem Aside.leftAlone (h : Aside b k k') (hok : KernelOk P k) (hl : k.Live b) : LeftAlone b k k' := by
  obtain ⟨q, hq, hp⟩ := hok.dir hl
  have hp' : (k'.envs b).pgdir = q * pgsize := by
    obtain ⟨_, _, _, hrecord⟩ := h.record
    rw [hrecord, hp]
  refine ⟨h.record, h.live, fun hd => ?_, fun ho hk => ?_, fun ho hk hx => ?_⟩
  · rw [pde_of_dirs hq hp', pde_of_dirs hq hp, h.mem.pde hd]
  · rw [pte_of_dirs hq hp', pte_of_dirs hq hp, h.mem.pte ho hk]
  · rw [pte_of_dirs hq hp] at hx
    exact h.mem.page ho hk hx

theorem pgnum_of_indices {va va' : Word} (hd : pdx va = pdx va') (ht : ptx va = ptx va') : pgnum va = pgnum va' := by
  rw [pdx_eq, pdx_eq] at hd
  rw [ptx_eq, ptx_eq] at ht
  rw [pgnum_eq, pgnum_eq]
  omega

theorem Received.gotMessage (h : Received cur b a k k') (hok : KernelOk P k) (hok' : KernelOk P k')
    (hl : k.Live b) (hno : a.no = 12) (heax : (k'.envs cur).tf.regs.eax = 0) : GotMessage cur b a k k' := by
  obtain ⟨q, hq, hp⟩ := hok.dir hl
  have hp' : (k'.envs b).pgdir = q * pgsize := by
    obtain ⟨_, _, _, _, hrecord⟩ := h.record
    rw [hrecord, hp]
  refine ⟨hno, heax, h.target, h.recving, h.record, h.live, fun hd hn => ?_, fun ho hk hn => ?_,
    fun {va} hva hn => ?_, fun ho hk hx => ?_⟩
  · rw [pde_of_dirs hq hp', pde_of_dirs hq hp, h.pde hd hn]
  · rw [pte_of_dirs hq hp', pte_of_dirs hq hp, h.pte ho hk hn]
  · obtain ⟨l, hmem⟩ := hok.mem
    obtain ⟨l', hmem'⟩ := hok'.mem
    obtain ⟨q', hq', hpq⟩ := hok'.dir h.live
    have hqq : q' = q := Nat.mul_right_cancel (by decide) (hpq.symm.trans hp')
    rw [hqq] at hq'
    have hpte := h.pte (own_pdx hva) (ptx_lt va) fun hx => hn ⟨hx.1, pgnum_of_indices hx.2.1 hx.2.2⟩
    rw [hp, hp', hmem.translate_eq hq (own_pdx hva), hmem'.translate_eq hq' (own_pdx hva),
      ← pte_of_dirs hq' hp', pte_of_dirs hq hp', hpte]
  · rw [pte_of_dirs hq hp] at hx
    exact h.page ho hk hx

/-- On one CPU and with counts that have not wrapped, a system call leaves every
environment alone but the caller, its children and the receiver of its message. -/
theorem syscalls_confined (hboot : Boots mach k0) (hrun : SingleRuns k0 k) (hb : k.Bounded)
    (hc : k.curenv 0 = some cur) (hs : Step k (.trap 0 tf cr2) k') (hcall : tf.trapno = trapSyscall)
    (hl : k.Live b) (hne : b ≠ cur) (hchild : (k.envs b).parentId ≠ (k.envs cur).id) :
    LeftAlone b k k' ∨ GotMessage cur b tf.args k k' := by
  obtain ⟨P, -, -, -, -, hok0, hcpu, -⟩ := hboot.machineOk
  obtain ⟨hok, -⟩ := hok0.singleRuns hcpu hrun
  have hok' := (hok.kernel.step hb hs fun _ _ => hok.current).1
  obtain haside | ⟨hno, heax, hgot⟩ := hok.kernel.bystander hb hok.current hc hs hcall hl hne hchild
  · exact .inl (haside.leftAlone hok.kernel hl)
  · exact .inr (hgot.gotMessage hok.kernel hok' hl hno heax)

/-! ## A child and its parent -/

def View.childRuns (k : Kernel) : View := ((View.withChild k).setStatus slot0 .runnable).run 0 slot1

theorem pc64_child : ∃ (k0 : Kernel) (P : Platform) (k k' : Kernel), Boots pc64 k0 ∧ SingleRuns k0 k' ∧
    (k.envs slot0).parentId = 0#32 ∧ Shows P 14906 (View.childRuns k) k' := by
  obtain ⟨k0, P, k, a, b, hboot, -, hrun, h⟩ := pc64_alone (fun _ => 0#8) .user
  obtain ⟨k1, hs1, h1, -⟩ := h.shows.fork (c := 0) rfl rfl rfl (by decide)
  obtain ⟨k2, hs2, h2, -⟩ := h1.setStatus (c := 0) rfl rfl (fork_child_slot1 k) statusOf_two
  obtain ⟨k3, hs3, h3⟩ := Shows.yield (v := View.withChild k) h2 (c := 0) rfl rfl
    (withChild_finds k (Nat.le_refl 1))
  have hsingle : ∀ {tf cr2}, (Event.trap 0 tf cr2).Single := fun c hc => (Option.some.inj hc).symm
  exact ⟨k0, P, k, k3, hboot, ((hrun.tail ⟨_, hs1, h.bounded, hsingle⟩).tail ⟨_, hs2, h1.bounded, hsingle⟩).tail
    ⟨_, hs3, h2.bounded, hsingle⟩, h.parent, h3⟩

theorem childRuns_parent (k : Kernel) (h : (k.envs slot0).parentId = 0#32) :
    (View.childRuns k).parentId slot0 ≠ (View.childRuns k).id slot1 := by
  have hid : (View.childRuns k).id slot1 = 4097#32 := withChild_id k
  have hparent : (View.childRuns k).parentId slot0 = (k.envs slot0).parentId := by
    simp [View.childRuns, View.run, View.setStatus, View.withChild, View.fork, View.first,
      show slot0 ≠ slot1 by decide]
  rw [hid, hparent, h]
  decide

theorem syscalls_confined_pc64 : ∃ k0 k k' : Kernel, Boots pc64 k0 ∧ SingleRuns k0 k ∧ k.curenv 0 = some slot1 ∧
    Step k (.trap 0 (callFrame ⟨7, 0, 0, 0, 0, 0⟩) 0) k' ∧ k.Live slot0 ∧
    (LeftAlone slot0 k k' ∨ GotMessage slot1 slot0 (callFrame ⟨7, 0, 0, 0, 0, 0⟩).args k k') := by
  obtain ⟨k0, P, k, k', hboot, hrun, hparent, h⟩ := pc64_child
  have hc : k'.curenv 0 = some slot1 := h.looks.curenv
  obtain ⟨k1, hs1, -, -⟩ := h.fork (c := 0) rfl (by simp [View.childRuns, View.run]) rfl
    (show slot2 ≠ slot1 by decide)
  have hl : k'.Live slot0 := h.looks.live (by simp [View.childRuns, View.run, show slot0 ≠ slot1 by decide])
  refine ⟨k0, k', k1, hboot, hrun, hc, hs1, hl, syscalls_confined hboot hrun h.bounded hc hs1 rfl hl (by decide) ?_⟩
  rw [h.looks.parentId, h.looks.id]
  exact childRuns_parent k hparent

/-! ## A free page that is mapped -/

theorem Mapping.store (h : Mapping P k p n) (hn : 0 < n) (hmax : n ≤ 67584) (b : BitVec 8) :
    ∃ k', Step k (.store 0 (wva 0) b) k' ∧ SameEnvs k k' ∧ Mapping P k' p n ∧ k'.pmap.mem (p * pgsize) = b := by
  have hl := live_of_running h.status
  obtain ⟨q, hq, hpg⟩ := h.ok.dir hl
  obtain ⟨l, hok⟩ := h.ok.mem
  obtain ⟨hd0, ht0⟩ := wva_indices (i := 0) (by decide)
  obtain ⟨ho, hk⟩ := wva_own (i := 0) (by decide)
  have hp : entryPage (pteOf k.dirs k.pmap.mem slot0 (64 + 0 / 1024) (0 % 1024)) = some p := by
    rw [h.entry hn]
    exact entryPage_wva h.lt
  have htr : translate k.pmap.mem (k.envs slot0).pgdir (wva 0) = some (p, pteUWP) := by
    rw [hpg, hok.translate_own hq (by rw [hd0]; exact ho) (by rw [hd0, ht0]; exact hp), hd0, ht0, h.entry hn,
      and_or_mask, and_or_mask, mask_page2pa]
    rfl
  have hphys : physical p (wva 0) = p * pgsize := by
    rw [physical, show pgoff (wva 0) = 0 by decide, Nat.add_zero]
  obtain ⟨hok', hsame⟩ := hok.storeMapped ho hk hp (physical_page p (wva 0)) b
  have henvs : SameEnvs k (k.withPmap { k.pmap with mem := Function.update k.pmap.mem (physical p (wva 0)) b }) :=
    ⟨rfl, rfl, rfl, rfl, rfl, rfl, rfl, rfl, fun _ => rfl⟩
  refine ⟨_, .store h.curenv htr (by rw [userCanWrite, htr]; rfl), henvs, ?_, ?_⟩
  · refine ⟨h.ok.withPmap ⟨l, hok'⟩, h.curenv, h.status, h.spare, fun {i} hi => ?_, fun {i} hi hlt => ?_, ?_, h.lt⟩
    · obtain ⟨hoi, hki⟩ := wva_own (i := i) (by omega)
      exact (hsame.pte hoi hki).trans (h.entry hi)
    · obtain ⟨hoi, hki⟩ := wva_own hlt
      exact (hsame.pte hoi hki).trans (h.empty hi hlt)
    · exact (hsame.refs_eq p).trans h.refs
  · rw [← hphys]
    exact Function.update_self ..

/-- The runs of a machine with one CPU, whatever becomes of the counts. -/
def OneCpuRuns : Kernel → Kernel → Prop := Runs fun _ ev _ => ev.Single

theorem SingleRuns.oneCpu (h : SingleRuns k k') : OneCpuRuns k k' :=
  Relation.ReflTransGen.mono (fun _ _ ⟨ev, hs, hok⟩ => ⟨ev, hs, hok.2⟩) k k' h

theorem PageRuns.oneCpu (h : PageRuns k k') (hc : k.OnlyCpu0) : OneCpuRuns k k' ∧ k'.OnlyCpu0 := by
  induction h with
  | refl => exact ⟨.refl, hc⟩
  | tail _ hstep ih =>
    obtain ⟨ev, hs, hev⟩ := hstep
    have hsingle := hs.single_of_pageCall ih.2 hev
    exact ⟨ih.1.tail ⟨ev, hs, hsingle⟩, hs.onlyCpu0 hsingle ih.2⟩

theorem entryPage_of_translate (h : translate k.pmap.mem (k.envs e).pgdir va = some (p, f)) :
    entryPage (k.pte e (pdx va) (ptx va)) = some p := by
  cases hpt : entryPage (k.pde e (pdx va)) with
  | none =>
    unfold Kernel.pde at hpt
    simp [translate, hpt] at h
  | some pt =>
    have hpte : k.pte e (pdx va) (ptx va) = k.pmap.mem.read32 (pt * pgsize + 4 * ptx va) := by
      simp [Kernel.pte, hpt]
    rw [hpte]
    unfold Kernel.pde at hpt
    cases hp : entryPage (k.pmap.mem.read32 (pt * pgsize + 4 * ptx va)) with
    | none => simp [translate, hpt, hp] at h
    | some p' =>
      simp only [translate, hpt, hp, Option.some.injEq, Prod.mk.injEq] at h
      rw [h.1]

/-- The first program makes a child, wraps the count of one of its pages, unmaps
it once and gives way. The child calls `sys_exofork`, which takes the page for a
page directory and clears it, while the first program has it mapped. -/
theorem exofork_clears_mapped_page : ∃ (k0 k k' : Kernel) (p : Nat), Boots pc64 k0 ∧ OneCpuRuns k0 k ∧
    k.curenv 0 = some slot1 ∧ Step k (.trap 0 (callFrame ⟨7, 0, 0, 0, 0, 0⟩) 0) k' ∧
    (k.Live slot0 ∧ (k.envs slot0).parentId ≠ (k.envs slot1).id) ∧
    translate k.pmap.mem (k.envs slot0).pgdir (wva 1) = some (p, pteUWP) ∧
    (k.pmap.mem (p * pgsize) = 1#8 ∧ k'.pmap.mem (p * pgsize) = 0#8) ∧
    ¬ (LeftAlone slot0 k k' ∨ GotMessage slot1 slot0 (callFrame ⟨7, 0, 0, 0, 0, 0⟩).args k k') := by
  obtain ⟨k0, P, k, a, b, hboot, -, hrun, h⟩ := pc64_alone (fun _ => 0#8) .user
  -- The child, ready to run.
  obtain ⟨k1, hs1, h1, hkeep1⟩ := h.shows.fork (c := 0) rfl rfl rfl (by decide)
  obtain ⟨k2, hs2, h2, hkeep2⟩ := h1.setStatus (c := 0) rfl rfl (fork_child_slot1 k) statusOf_two
  have hl := live_of_running h.status
  have hl1 : k1.Live slot0 := h1.looks.live (by simp [View.fork, View.first, show slot0 ≠ slot1 by decide])
  -- The page that loses count.
  obtain ⟨k3, p, hs3, hsame3, h3, -⟩ := Shows.mapping (n := 14805) (v := View.withChild k) h2 rfl rfl
    fun d t ho hk hd hd' => by
      rw [hkeep2.pte hl1 ho hk, hkeep1.pte hl ho hk, h.loaded.pte ho hk, if_neg (by omega), if_neg (by omega)]
  obtain ⟨k4, hrun4, hsame4, h4, -⟩ := h3.run (n := 65536) (by decide)
  obtain ⟨k5, hs5, hsame5, h5, hone⟩ := h4.store (by decide) (by decide) 1#8
  obtain ⟨k6, hs6, hsame6, hfree, htr, hlayout, hkept⟩ := h5.unmap
  -- The child's turn.
  have hlooks := Looks.sameEnvs (v := View.withChild k) h2.looks (((hsame3.trans hsame4).trans hsame5).trans hsame6)
  obtain ⟨k7, hs7, h7, hpgdir, hpmap⟩ := hlooks.yield (c := 0) rfl rfl (withChild_finds k (Nat.le_refl 1))
  have hrun7 : ((View.withChild k).setStatus slot0 .runnable |>.run 0 slot1).curenv 0 = some slot1 := rfl
  have hent := h7.entered hrun7 (callFrame ⟨7, 0, 0, 0, 0, 0⟩)
  have hhead : k7.envFreeList = some slot2 := by
    obtain ⟨r, hr⟩ := h7.free
    rw [hr.head_eq]
    rfl
  obtain ⟨l, hok⟩ := h5.ok.mem
  have hpool := (h5.ppRef (by decide)).2
  have hkern : k7.pmap.layout.kernPgdir = P.kq * pgsize := by
    rw [hpmap, hlayout, hok.layout_eq]
    exact P.kernPgdir_eq
  have hvm := exec_envSetupVm (s := k7.pmap) (p := p) (by rw [hpmap]; exact hfree)
    (by rw [hpmap, hlayout]; exact hok.pool_lt hpool) (Nat.pos_iff_ne_zero.mp (P.pool_pos hpool)) hkern
    fun heq => P.kq_kept (heq ▸ hpool)
  have hcall : exec (Args.call ⟨7, 0, 0, 0, 0, 0⟩ 0 slot1) (k7.entered 0 slot1 (callFrame ⟨7, 0, 0, 0, 0, 0⟩)) = _ :=
    exec_exofork_call rfl hhead hvm
  obtain ⟨hs8, -⟩ := h7.call hrun7 (by simp [View.run]) hcall (hent.fork rfl) rfl
    (by simp [View.fork, View.run, show slot1 ≠ slot2 by decide])
  have hone7 : k7.pmap.mem (p * pgsize) = 1#8 := by
    rw [hpmap, hkept _ (Nat.mul_div_cancel p (by decide))]
    exact hone
  have htr7 : translate k7.pmap.mem (k7.envs slot0).pgdir (wva 1) = some (p, pteUWP) := by
    rw [hpmap, hpgdir]
    exact htr
  have hl7 : k7.Live slot0 := h7.live (by simp [View.run, show slot0 ≠ slot1 by decide])
  have hclear : dirWords (k7.pmap.take p).mem (P.kq * pgsize) p (p * pgsize) = 0#8 := by
    have hword : (dirWords (k7.pmap.take p).mem (P.kq * pgsize) p).read32 (p * pgsize + 4 * (0 / 4)) = 0#32 :=
      dirWords_own (by decide)
    rw [← Nat.add_zero (p * pgsize)]
    exact Mem.byte_of_read32_zero hword
  have hsingle : ∀ {tf cr2}, (Event.trap 0 tf cr2).Single := fun c hc => (Option.some.inj hc).symm
  have honly3 : k3.OnlyCpu0 := fun c hc =>
    (hsame3.curenv (c := c)).trans ((h2.looks.curenv (c := c)).trans (if_neg hc))
  have hstore : (Event.store 0 (wva 0) 1#8).Single := fun c hc => (Option.some.inj hc).symm
  have hrun3 : OneCpuRuns k0 k3 :=
    ((hrun.oneCpu.tail ⟨_, hs1, hsingle⟩).tail ⟨_, hs2, hsingle⟩).tail ⟨_, hs3, hsingle⟩
  have hrun5 : OneCpuRuns k0 k5 :=
    (Relation.ReflTransGen.trans hrun3 (hrun4.oneCpu honly3).1).tail ⟨_, hs5, hstore⟩
  refine ⟨k0, k7, _, p, hboot, (hrun5.tail ⟨_, hs6, hsingle⟩).tail ⟨_, hs7, hsingle⟩, h7.curenv, hs8, ⟨hl7, ?_⟩, htr7,
    ⟨hone7, hclear⟩, ?_⟩
  · rw [h7.parentId, h7.id]
    exact childRuns_parent k h.parent
  · rintro (hleft | hgot)
    · have hd : Own (pdx (wva 1)) := by decide
      have hsame := hleft.page (x := p * pgsize) hd (ptx_lt (wva 1))
        (by rw [Nat.mul_div_cancel p (by decide)]; exact entryPage_of_translate htr7)
      rw [hone7] at hsame
      exact absurd (hsame.symm.trans hclear) (by decide)
    · exact absurd hgot.call (by decide)

end Jos
