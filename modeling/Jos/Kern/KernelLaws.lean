import Jos.Kern.SyscallLaws
import Jos.Kern.System

/-!
# The invariant of the kernel

Memory is as `MemOk` says for the directories of the live environments, and
`env_free_list` lists the slots that are free. Every step of the machine keeps
it, as long as no environment is freed while another CPU runs it.
-/

namespace Jos

open Lib
open Function (update update_of_ne update_self)

variable {k : Kernel} {P : Platform}

def Kernel.Live (k : Kernel) (e : EnvPtr) : Prop := (k.envs e).status ≠ .free

theorem live_of_running {k : Kernel} (h : (k.envs e).status = .running) : k.Live e := by simp [Kernel.Live, h]

def Kernel.dirs (k : Kernel) (e : EnvPtr) : Option Nat :=
  if (k.envs e).status = .free then none else some ((k.envs e).pgdir / pgsize)

/-- `env_free_list` lists the slots that are free. -/
def Kernel.SlotsOk (k : Kernel) : Prop :=
  ∃ l, Chain (fun e => (k.envs e).link) k.envFreeList l ∧ ∀ e, e ∈ l ↔ ¬ k.Live e

structure KernelOk (P : Platform) (k : Kernel) : Prop where
  mem : ∃ l, MemOk P k.dirs [] ∅ l k.pmap
  pgdir : k.Live e → ∃ q, (k.envs e).pgdir = q * pgsize
  slots : k.SlotsOk

/-- No page has more than 65535 references. -/
def Kernel.Bounded (k : Kernel) : Prop := Jos.Bounded k.dirs k.pmap.mem

def Kernel.Current (k : Kernel) (c : Nat) : Prop := ∀ e, k.curenv c = some e → k.Live e

theorem KernelOk.steady (h : KernelOk P k) (hb : k.Bounded) : Steady P k.dirs k.pmap := ⟨h.mem, hb⟩

theorem KernelOk.dir (h : KernelOk P k) (hl : k.Live e) :
    ∃ q, k.dirs e = some q ∧ (k.envs e).pgdir = q * pgsize := by
  obtain ⟨q, hq⟩ := h.pgdir hl
  refine ⟨q, ?_, hq⟩
  unfold Kernel.dirs
  rw [if_neg hl, hq, Nat.mul_div_cancel _ (by decide)]

theorem dirs_free (h : ¬ k.Live e) : k.dirs e = none := if_pos (not_not.mp h)

/-! ## Changes of one part of the state -/

theorem dirs_setEnv (hs : env.status ≠ .free) (hp : env.pgdir = q * pgsize) :
    (k.setEnv e env).dirs = update k.dirs e (some q) := by
  funext x
  by_cases hx : x = e
  · subst hx
    simp [Kernel.dirs, hs, hp, pgsize]
  · simp [Kernel.dirs, setEnv_of_ne hx, update_of_ne hx]

theorem dirs_setEnv_free (hs : env.status = .free) :
    (k.setEnv e env).dirs = update k.dirs e none := by
  funext x
  by_cases hx : x = e
  · subst hx
    simp [Kernel.dirs, hs]
  · simp [Kernel.dirs, setEnv_of_ne hx, update_of_ne hx]

theorem dirs_setEnv_same (hs : env.status = .free ↔ (k.envs e).status = .free)
    (hp : env.pgdir = (k.envs e).pgdir) : (k.setEnv e env).dirs = k.dirs := by
  funext x
  by_cases hx : x = e
  · subst hx
    simp [Kernel.dirs, hs, hp]
  · simp [Kernel.dirs, setEnv_of_ne hx]

theorem live_setEnv (hs : env.status = .free ↔ (k.envs e).status = .free) :
    (k.setEnv e env).Live x ↔ k.Live x := by
  unfold Kernel.Live
  rw [setEnv_apply]
  split
  · rename_i hx
    rw [hx, not_iff_not]
    exact hs
  · rfl

theorem Kernel.SlotsOk.setEnv (h : k.SlotsOk) (hs : env.status = .free ↔ (k.envs e).status = .free)
    (hk : env.link = (k.envs e).link) : (k.setEnv e env).SlotsOk := by
  obtain ⟨l, hl, hmem⟩ := h
  refine ⟨l, hl.frame fun x _ => ?_, fun x => by rw [live_setEnv hs]; exact hmem x⟩
  rw [setEnv_apply]
  split
  · rename_i hx
    rw [hk, hx]
  · rfl

theorem Kernel.SlotsOk.setLive (h : k.SlotsOk) (hl : k.Live e) (hs : env.status ≠ .free)
    (hk : env.link = (k.envs e).link) : (k.setEnv e env).SlotsOk :=
  h.setEnv (iff_of_false hs hl) hk

theorem freed_link (k : Kernel) (e : EnvPtr) (s : Pmap) : (fun x => ((k.freed e s).envs x).link) =
    update (fun x => (k.envs x).link) e k.envFreeList := by
  funext x
  by_cases hx : x = e
  · subst hx
    simp [Kernel.freed]
  · simp [Kernel.freed, setEnv_of_ne hx, update_of_ne hx, Kernel.withPmap]

theorem Kernel.SlotsOk.freed (h : k.SlotsOk) (hl : k.Live e) (s : Pmap) : (k.freed e s).SlotsOk := by
  obtain ⟨l, hc, hmem⟩ := h
  refine ⟨e :: l, ?_, fun x => ?_⟩
  · rw [freed_link]
    exact hc.push fun he => (hmem e).mp he hl
  · by_cases hx : x = e
    · subst hx
      simp [Kernel.Live, Kernel.freed]
    · simp [Kernel.Live, Kernel.freed, setEnv_of_ne hx, hx, hmem x, Kernel.withPmap]

theorem Kernel.SlotsOk.fill (h : k.SlotsOk) (hf : k.envFreeList = some e) (hs : env.status ≠ .free) (s : Pmap) :
    Kernel.SlotsOk { (k.withPmap s).setEnv e env with envFreeList := (k.envs e).link } := by
  obtain ⟨l, hc, hmem⟩ := h
  rw [hf] at hc
  obtain ⟨l', rfl, hc'⟩ := Chain.some_iff.mp hc
  have hnot : e ∉ l' := (List.nodup_cons.mp hc.nodup).1
  have hne : ∀ x ∈ l', x ≠ e := by
    rintro x hx rfl
    exact hnot hx
  refine ⟨l', hc'.frame fun x hx => ?_, fun x => ?_⟩
  · simp [setEnv_of_ne (hne x hx), Kernel.withPmap]
  · by_cases hx : x = e
    · subst hx
      simp [Kernel.Live, hs, hnot]
    · have := hmem x
      simp only [List.mem_cons, hx, false_or] at this
      simpa [Kernel.Live, setEnv_of_ne hx, Kernel.withPmap] using this

theorem Kernel.SlotsOk.head_free (h : k.SlotsOk) (hf : k.envFreeList = some e) : ¬ k.Live e := by
  obtain ⟨l, hc, hmem⟩ := h
  rw [hf] at hc
  obtain ⟨l', rfl, -⟩ := Chain.some_iff.mp hc
  exact (hmem e).mp (by simp)

section
variable (h : KernelOk P k)
include h

theorem KernelOk.setEnv (hs : env.status = .free ↔ (k.envs e).status = .free)
    (hp : env.pgdir = (k.envs e).pgdir) (hk : env.link = (k.envs e).link) : KernelOk P (k.setEnv e env) where
  mem := by
    rw [dirs_setEnv_same hs hp]
    exact h.mem
  pgdir {x} hx := by
    obtain ⟨q, hq⟩ := h.pgdir ((live_setEnv hs).mp hx)
    refine ⟨q, ?_⟩
    rw [setEnv_apply]
    split
    · rename_i hx
      rw [hp, ← hx, hq]
    · exact hq
  slots := h.slots.setEnv hs hk

theorem KernelOk.setLive (hl : k.Live e) (hs : env.status ≠ .free)
    (hp : env.pgdir = (k.envs e).pgdir) (hk : env.link = (k.envs e).link) : KernelOk P (k.setEnv e env) :=
  h.setEnv (iff_of_false hs hl) hp hk

theorem KernelOk.withPmap (hm : ∃ l, MemOk P k.dirs [] ∅ l s) : KernelOk P (k.withPmap s) :=
  ⟨hm, h.pgdir, h.slots⟩

theorem KernelOk.setCpu (c : Nat) (cpu : CpuInfo) : KernelOk P (k.setCpu c cpu) :=
  ⟨h.mem, h.pgdir, h.slots⟩

theorem KernelOk.freed (hl : k.Live e)
    (hm : ∃ l, MemOk P (update k.dirs e none) [] ∅ l s) : KernelOk P (k.freed e s) where
  mem := by
    have hd : (k.freed e s).dirs = update k.dirs e none :=
      dirs_setEnv_free (k := k.withPmap s) rfl
    rw [hd]
    exact hm
  pgdir {x} hx := by
    by_cases hxe : x = e
    · subst hxe
      exact absurd (by simp [Kernel.freed]) hx
    · have hsame : (k.freed e s).envs x = k.envs x := setEnv_of_ne (k := k.withPmap s) hxe
      unfold Kernel.Live at hx
      rw [hsame] at hx ⊢
      exact h.pgdir hx
  slots := h.slots.freed hl s

theorem KernelOk.fill (hf : k.envFreeList = some e) (hs : env.status ≠ .free)
    (hp : env.pgdir = q * pgsize) (hm : ∃ l, MemOk P (update k.dirs e (some q)) [] ∅ l s) :
    KernelOk P { (k.withPmap s).setEnv e env with envFreeList := (k.envs e).link } where
  mem := by
    have hd := dirs_setEnv (k := k.withPmap s) (e := e) hs hp
    change ∃ l, MemOk P ((k.withPmap s).setEnv e env).dirs [] ∅ l s
    rw [hd]
    exact hm
  pgdir {x} hx := by
    by_cases hxe : x = e
    · subst hxe
      exact ⟨q, by simpa using hp⟩
    · have hsame : ((k.withPmap s).setEnv e env).envs x = k.envs x := setEnv_of_ne hxe
      obtain ⟨q', hq'⟩ := h.pgdir (e := x) (by simpa [Kernel.Live, hsame] using hx)
      exact ⟨q', by simpa [hsame] using hq'⟩
  slots := h.slots.fill hf hs s

end

theorem Bounded.of_steady {s : Pmap} (h : Steady P dirs s) (hd : k.dirs = dirs) (hp : k.pmap = s) : k.Bounded := by
  unfold Kernel.Bounded
  rw [hd, hp]
  exact h.bounded

theorem freed_dirs (k : Kernel) (e : EnvPtr) (s : Pmap) : (k.freed e s).dirs = update k.dirs e none :=
  dirs_setEnv_free (k := k.withPmap s) rfl

theorem entered_dirs : (k.entered c cur tf).dirs = k.dirs := dirs_setEnv_same (k := k.awake c) Iff.rfl rfl

theorem entered_pgdir : ((k.entered c cur tf).envs x).pgdir = (k.envs x).pgdir :=
  setEnv_field (k := k.awake c) Env.pgdir rfl

theorem entered_resolve : (k.entered c cur tf).resolve cur' envid checkperm = k.resolve cur' envid checkperm := by
  have hstatus : ∀ e, ((k.entered c cur tf).envs e).status = (k.envs e).status := fun e =>
    setEnv_field (k := k.awake c) Env.status (by rfl)
  have hid : ∀ e, ((k.entered c cur tf).envs e).id = (k.envs e).id := fun e =>
    setEnv_field (k := k.awake c) Env.id (by rfl)
  have hparent : ∀ e, ((k.entered c cur tf).envs e).parentId = (k.envs e).parentId := fun e =>
    setEnv_field (k := k.awake c) Env.parentId (by rfl)
  unfold Kernel.resolve
  simp only [hstatus, hid, hparent]

theorem forked_dirs : (k.forked cur e s (q * pgsize)).dirs = update k.dirs e (some q) := by
  have halloc : (k.allocated e s (q * pgsize) (k.envs cur).id).dirs = update k.dirs e (some q) :=
    dirs_setEnv (k := k.withPmap s) (by simp [newEnv]) rfl
  rw [← halloc]
  exact dirs_setEnv_same (by simp [Kernel.allocated, newEnv]) rfl

/-! ## Memory operations on live environments -/

theorem Steady.checkAddr {ι : Type} [Fintype ι] {dirs : ι → Option Nat} (h : Steady P dirs s) (w : Word) :
    Steady P dirs { s with userMemCheckAddr := w } := by
  obtain ⟨l, hok⟩ := h.ok
  exact ⟨⟨l, hok.layout_eq, hok.uninit_ne, hok.counted, hok.sep, hok.owned, hok.pend_owned, hok.quiet, hok.flags,
    hok.user, hok.shared, hok.frozen⟩, h.bounded⟩

theorem KernelOk.freeSpace (h : KernelOk P k) (hb : k.Bounded) (hl : k.Live e)
    (hs : exec (envFreeSpace (k.envs e).pgdir) { k.pmap with userMemCheckAddr := w } = (.ok (), s)) :
    Steady P (update k.dirs e none) s ∧ Touches k.dirs e k.pmap.mem s.mem := by
  obtain ⟨q, hq, hp⟩ := h.dir hl
  rw [hp] at hs
  obtain ⟨hst, -, htouch⟩ := (envFreeSpace_ok ((h.steady hb).checkAddr w) hq).ok hs
  exact ⟨hst, htouch⟩

theorem KernelOk.setupVm (h : KernelOk P k) (hb : k.Bounded) (hf : k.envFreeList = some e)
    (hs : exec envSetupVm k.pmap = (.ok (some x), s)) :
    ∃ q, x = q * pgsize ∧ NewSpace P k.dirs e q k.pmap s := by
  obtain ⟨hq, -⟩ | ⟨q, hq, hnew⟩ := (envSetupVm_ok (h.steady hb) (dirs_free (h.slots.head_free hf))).ok hs
  · simp at hq
  · exact ⟨q, Option.some.inj hq, hnew⟩

section
variable (h : KernelOk P k) (hb : k.Bounded)
include h hb

theorem KernelOk.pageAllocAt (hl : k.Live e) (hva : ¬ badVa va) (hperm : ¬ badPerm perm) :
    Triple (pageAllocAt (k.envs e).pgdir va perm) k.pmap (AllocDone P k.dirs e va perm k.pmap) (fun _ _ => False) := by
  obtain ⟨q, hq, hp⟩ := h.dir hl
  rw [hp]
  exact pageAllocAt_ok (h.steady hb) hq (lt_utop_of_not_badVa hva) (userPerm_of_not_badPerm hperm)

theorem KernelOk.pageMapAt (hsrc : k.Live src) (hdst : k.Live dst) (hva : ¬ badVa srcva) (hva' : ¬ badVa dstva)
    (hperm : ¬ badPerm perm) :
    Triple (pageMapAt (k.envs src).pgdir srcva (k.envs dst).pgdir dstva perm) k.pmap
      (MapDone P k.dirs src srcva dst dstva perm k.pmap) (fun _ _ => False) := by
  obtain ⟨q, hq, hp⟩ := h.dir hsrc
  obtain ⟨q', hq', hp'⟩ := h.dir hdst
  rw [hp, hp']
  exact pageMapAt_ok (h.steady hb) hq hq' (lt_utop_of_not_badVa hva) (lt_utop_of_not_badVa hva')
    (userPerm_of_not_badPerm hperm)

theorem KernelOk.pageRemove (hl : k.Live e) (hva : ¬ badVa va) :
    Triple (pageRemove (k.envs e).pgdir va) k.pmap (fun _ s => Removed P k.dirs ∅ e va k.pmap s) (fun _ _ => False) := by
  obtain ⟨q, hq, hp⟩ := h.dir hl
  obtain ⟨l, hok⟩ := h.mem
  rw [hp]
  exact pageRemove_ok hok hb hq (lt_utop_of_not_badVa hva)

theorem KernelOk.ipcPageAt (hsrc : k.Live src) (hdst : k.Live dst) (hva : srcva < utop) (hva' : dstva < utop)
    (hperm : ¬ badPerm perm) :
    Triple (ipcPageAt (k.envs src).pgdir srcva (k.envs dst).pgdir dstva perm) k.pmap
      (SendDone P k.dirs src srcva dst dstva perm k.pmap) (fun _ _ => False) := by
  obtain ⟨q, hq, hp⟩ := h.dir hsrc
  obtain ⟨q', hq', hp'⟩ := h.dir hdst
  rw [hp, hp']
  exact ipcPageAt_ok (h.steady hb) hq hq' hva hva' (userPerm_of_not_badPerm hperm)

theorem KernelOk.pageAlloc (hl : k.Live e) (hva : ¬ badVa va) (hperm : ¬ badPerm perm)
    (hs : exec (Jos.pageAllocAt (k.envs e).pgdir va perm) k.pmap = (.ok r, s)) :
    Steady P k.dirs s ∧ Touches k.dirs e k.pmap.mem s.mem ∧
      (SameTables k.dirs k.pmap.mem s.mem ∨ ∃ pp, Supplied k.dirs e va pp perm k.pmap s) := by
  obtain ⟨hst, htouch, ⟨-, hsame, -⟩ | ⟨-, pp, hsup, -⟩⟩ := (h.pageAllocAt hb hl hva hperm).ok hs
  · exact ⟨hst, htouch, .inl hsame⟩
  · exact ⟨hst, htouch, .inr ⟨pp, hsup⟩⟩

theorem KernelOk.pageMap (hsrc : k.Live src) (hdst : k.Live dst) (hva : ¬ badVa srcva) (hva' : ¬ badVa dstva)
    (hperm : ¬ badPerm perm)
    (hs : exec (Jos.pageMapAt (k.envs src).pgdir srcva (k.envs dst).pgdir dstva perm) k.pmap = (.ok r, s)) :
    s = k.pmap ∨ ∃ p, Shared P k.dirs src srcva dst dstva perm p k.pmap s :=
  ((h.pageMapAt hb hsrc hdst hva hva' hperm).ok hs).imp And.right And.right

theorem KernelOk.pageUnmap (hl : k.Live e) (hva : ¬ badVa va)
    (hs : exec (Jos.pageRemove (k.envs e).pgdir va) k.pmap = (.ok (), s)) : Removed P k.dirs ∅ e va k.pmap s :=
  (h.pageRemove hb hl hva).ok hs

theorem KernelOk.sentPage (hsrc : k.Live src) (hdst : k.Live dst) (hva : ¬ badVa srcva) (hva' : dstva < utop)
    (hperm : ¬ badPerm perm)
    (hs : exec (Jos.ipcPageAt (k.envs src).pgdir srcva (k.envs dst).pgdir dstva perm) k.pmap = (.ok none, s)) :
    ∃ p, Shared P k.dirs src srcva dst dstva perm p k.pmap s := by
  obtain ⟨-, -, hsh⟩ | ⟨hne, -⟩ := (h.ipcPageAt hb hsrc hdst (lt_utop_of_not_badVa hva) hva' hperm).ok hs
  · exact hsh
  · exact absurd rfl hne

end

/-! ## System calls -/

theorem live_resolve (hcur : k.Live cur) (h : k.resolve cur envid checkperm = some e) : k.Live e := by
  obtain rfl | h := resolve_cases h
  · exact hcur
  · exact h.1

theorem statusOf_ne_free (h : statusOf w = some st) : st ≠ .free := by
  unfold statusOf at h
  split at h
  · exact Option.some.inj h ▸ by decide
  · split at h
    · exact Option.some.inj h ▸ by decide
    · simp at h

theorem Sys.live_cur (h : Sys cur a k k') (hcur : k.Live cur) : k'.Live cur := by
  cases h with
  | envDying _ _ hne _ => simpa [Kernel.Live, Kernel.dying, setEnv_of_ne (Ne.symm hne)] using hcur
  | envFreed _ _ hne _ _ =>
    simpa [Kernel.Live, Kernel.freed, setEnv_of_ne (Ne.symm hne), Kernel.withPmap] using hcur
  | exofork =>
    unfold Kernel.Live Kernel.forked Kernel.allocated
    simp only [setEnv_apply]
    split
    · simp
    · exact hcur
  | setStatus _ _ hst =>
    unfold Kernel.Live
    rw [setEnv_apply]
    split
    · exact statusOf_ne_free hst
    · exact hcur
  | send _ _ _ _ | sendPage _ _ _ _ _ _ _ =>
    unfold Kernel.Live Kernel.delivered
    rw [setEnv_apply]
    split
    · simp
    · exact hcur
  | setTrapframe _ _ _ | setUpcall _ _ =>
    unfold Kernel.Live
    rw [setEnv_apply]
    split
    · rename_i h
      exact h ▸ hcur
    · exact hcur
  | _ => exact hcur

theorem KernelOk.delivered (h : KernelOk P k) (hl : k.Live e) : KernelOk P (k.delivered cur e value perm) :=
  h.setLive hl (by simp) rfl rfl

theorem KernelOk.sys (h : KernelOk P k) (hb : k.Bounded) (hcur : k.Live cur) (hs : Sys cur a k k') :
    KernelOk P k' := by
  cases hs with
  | nothing => exact h
  | envDying _ he _ _ => exact h.setLive (live_resolve hcur he) (by simp) rfl rfl
  | envFreed _ he _ _ hs =>
    have hl := live_resolve hcur he
    exact h.freed hl (h.freeSpace hb hl hs).1.ok
  | pageAlloc _ he hva hperm hs => exact h.withPmap (h.pageAlloc hb (live_resolve hcur he) hva hperm hs).1.ok
  | pageMap _ hsrc hdst hva hva' hperm hs =>
    obtain rfl | ⟨p, hshared⟩ :=
      h.pageMap hb (live_resolve hcur hsrc) (live_resolve hcur hdst) hva hva' hperm hs
    · exact h
    · exact h.withPmap (hshared.inserted.remapped hb).1
  | pageUnmap _ he hva hs => exact h.withPmap (h.pageUnmap hb (live_resolve hcur he) hva hs).ok
  | exofork _ hf hs =>
    obtain ⟨q, rfl, hnew⟩ := h.setupVm hb hf hs
    have hfill : KernelOk P (k.allocated _ _ _ (k.envs cur).id) := h.fill hf (by simp [newEnv]) rfl hnew.steady.ok
    exact hfill.setEnv (by simp [Kernel.allocated, newEnv]) rfl rfl
  | setStatus _ he hst => exact h.setLive (live_resolve hcur he) (statusOf_ne_free hst) rfl rfl
  | setTrapframe _ he _ => exact h.setLive (live_resolve hcur he) (live_resolve hcur he) rfl rfl
  | setUpcall _ he => exact h.setLive (live_resolve hcur he) (live_resolve hcur he) rfl rfl
  | send _ he _ _ => exact h.delivered (live_resolve hcur he)
  | sendPage _ he _ hdst hva hperm hs =>
    have hl := live_resolve hcur he
    obtain ⟨p, hshared⟩ := h.sentPage hb hcur hl hva hdst hperm hs
    exact (h.withPmap (hshared.inserted.remapped hb).1).delivered hl
  | transmit _ => exact ⟨h.mem, h.pgdir, h.slots⟩

/-! ## Traps -/

theorem KernelOk.destroyed (h : KernelOk P k) (hb : k.Bounded) (hcur : k.Live cur)
    (hd : Destroyed c cur k k') : KernelOk P k' ∧ k'.curenv c = none := by
  obtain ⟨w, s, hs, rfl⟩ := hd
  refine ⟨(h.freed hcur (h.freeSpace hb hcur hs).1.ok).setCpu _ _, ?_⟩
  simp [Kernel.noCurenv, setCpu_curenv]

theorem current_none (h : k.curenv c = none) : k.Current c := fun e he => by simp [h] at he

theorem current_some (h : k.curenv c = some cur) (hl : k.Live cur) : k.Current c := fun _ he =>
  Option.some.inj (h.symm.trans he) ▸ hl

theorem KernelOk.sleeps (h : KernelOk P k) (hb : k.Bounded) (hc : k.curenv c = some cur) (hcur : k.Live cur)
    (hs : Sleeps c cur a k k') : KernelOk P k' ∧ k'.Current c := by
  cases hs with
  | yield _ => exact ⟨h, current_some hc hcur⟩
  | recv _ _ => exact ⟨h.setLive hcur (by simp) rfl rfl, current_some hc (by simp [Kernel.Live, Kernel.blocked])⟩
  | destroyed _ _ hd =>
    obtain ⟨hok, hnone⟩ := h.destroyed hb hcur hd
    exact ⟨hok, current_none hnone⟩

theorem vstoreWords_ok {ι : Type} [Fintype ι] {dirs : ι → Option Nat} {i : ι} (h : MemOk P dirs pend held l s)
    (hq : dirs i = some q) (va : Word) (ws : List Word) :
    Triple (vstoreWords (q * pgsize) va ws) s
      (fun _ s' => MemOk P dirs pend held l s' ∧ SameTables dirs s.mem s'.mem) (fun _ _ => True) := by
  induction ws generalizing va s with
  | nil => exact .pure ⟨h, .refl _⟩
  | cons w ws ih =>
    refine .bind (vstore32_ok h hq va w) fun _ t ht => ?_
    exact (ih ht.1 (va + 4)).imp (fun _ _ hu => ⟨hu.1, ht.2.trans hu.2⟩)

theorem KernelOk.handles (h : KernelOk P k) (hb : k.Bounded) (hc : k.curenv c = some cur) (hcur : k.Live cur)
    (hs : Handles c cur tf k k') : KernelOk P k' ∧ k'.Current c := by
  cases hs with
  | ticked _ => exact ⟨⟨h.mem, h.pgdir, h.slots⟩, current_some hc hcur⟩
  | @syscall k1 _ _ hs _ =>
    have hl := hs.live_cur hcur
    have hc1 : k1.curenv c = some cur := by
      unfold Kernel.curenv
      rw [hs.cpus]
      exact hc
    refine ⟨(h.sys hb hcur hs).setLive hl hl rfl rfl, current_some hc1 ?_⟩
    simpa [Kernel.Live, Kernel.setEax] using hl
  | sleeps _ hs => exact h.sleeps hb hc hcur hs
  | destroyed _ hd =>
    obtain ⟨hok, hnone⟩ := h.destroyed hb hcur hd
    exact ⟨hok, current_none hnone⟩
  | fault _ _ hs =>
    obtain ⟨q, hq, hp⟩ := h.dir hcur
    rw [hp] at hs
    obtain ⟨l, hok⟩ := h.mem
    have hmem := ((vstoreWords_ok hok hq ..).ok hs).1
    refine ⟨(h.withPmap ⟨l, hmem⟩).setLive hcur hcur rfl rfl, current_some hc ?_⟩
    simpa [Kernel.Live, Kernel.faulted] using hcur

theorem entered_live : (k.entered c cur tf).Live x ↔ k.Live x := live_setEnv (k := k.awake c) Iff.rfl

theorem entered_bounded (hb : k.Bounded) : (k.entered c cur tf).Bounded := by
  unfold Kernel.Bounded
  rw [entered_dirs]
  exact hb

theorem KernelOk.entered (h : KernelOk P k) (hl : k.Live cur) : KernelOk P (k.entered c cur tf) :=
  (h.setCpu _ _).setLive hl hl rfl rfl

theorem KernelOk.ready (h : KernelOk P k) (hb : k.Bounded) (hcur : k.Current c) (hr : Ready c tf k k') :
    KernelOk P k' ∧ k'.Current c := by
  cases hr with
  | woken _ =>
    have hok : KernelOk P (k.awake c) := h.setCpu _ _
    refine ⟨⟨hok.mem, hok.pgdir, hok.slots⟩, fun e he => hcur e ?_⟩
    rw [← awake_curenv (c := c)]
    exact he
  | @reaped cur s _ hc _ hs =>
    have hl := hcur _ hc
    have hok : KernelOk P ((k.awake c).freed cur s) :=
      KernelOk.freed (h.setCpu _ _) hl (h.freeSpace hb hl hs).1.ok
    exact ⟨hok.setCpu _ _, current_none (by simp [Kernel.noCurenv, setCpu_curenv])⟩
  | @handled cur _ _ hc _ hh =>
    have hl := hcur _ hc
    exact (h.entered hl).handles (entered_bounded hb) (awake_curenv.trans hc) (entered_live.mpr hl) hh

/-! ## Leaving the kernel -/

theorem KernelOk.preempt (h : KernelOk P k) : KernelOk P (k.preempt c) := by
  unfold Kernel.preempt
  split
  · split
    · rename_i hr
      exact h.setEnv (by simp [hr]) rfl rfl
    · exact h
  · exact h

theorem preempt_live : (k.preempt c).Live x ↔ k.Live x := by
  unfold Kernel.preempt
  split
  · split
    · rename_i hr
      exact live_setEnv (by simp [hr])
    · rfl
  · rfl

theorem KernelOk.dispatch (h : KernelOk P k) (hl : k.Live e) :
    KernelOk P (k.dispatch c e) ∧ (k.dispatch c e).Current c := by
  unfold Kernel.dispatch
  split
  · rename_i hc
    exact ⟨h.setEnv Iff.rfl rfl rfl, current_some hc (by simpa [Kernel.Live] using hl)⟩
  · have hl' := (preempt_live (k := k) (c := c)).mpr hl
    have hok : KernelOk P (k.switch c e) :=
      KernelOk.setLive (h.preempt.setCpu c _) hl' (by simp) rfl rfl
    refine ⟨hok.setEnv Iff.rfl rfl rfl, ?_⟩
    refine current_some (?_ : _ = some e) (by simp [Kernel.Live, Kernel.switch])
    simp [Kernel.switch, setCpu_curenv]

theorem dispatch_mem (hl : k.Live e) : (k.dispatch c e).dirs = k.dirs ∧ (k.dispatch c e).pmap = k.pmap := by
  have hpre : (k.preempt c).dirs = k.dirs ∧ (k.preempt c).pmap = k.pmap := by
    unfold Kernel.preempt
    split
    · split
      · rename_i hr
        exact ⟨dirs_setEnv_same (by simp [hr]) rfl, rfl⟩
      · exact ⟨rfl, rfl⟩
    · exact ⟨rfl, rfl⟩
  unfold Kernel.dispatch
  split
  · exact ⟨dirs_setEnv_same Iff.rfl rfl, rfl⟩
  · have hl' : (k.preempt c).Live e := preempt_live.mpr hl
    have hsw : (k.switch c e).dirs = (k.preempt c).dirs := dirs_setEnv_same (iff_of_false (by simp) hl') rfl
    refine ⟨(dirs_setEnv_same ?_ ?_).trans (hsw.trans hpre.1), hpre.2⟩
    · exact Iff.rfl
    · rfl

theorem Yields.mem (hy : Yields k c p) : p.2.dirs = k.dirs ∧ p.2.pmap = k.pmap := by
  cases hy with
  | next hr _ => exact dispatch_mem (by simp [Kernel.Live, hr])
  | again _ hr => exact dispatch_mem (by simp [Kernel.Live, hr])
  | halt _ => exact ⟨rfl, rfl⟩
  | monitor _ => exact ⟨rfl, rfl⟩
  | wild _ => exact ⟨rfl, rfl⟩

theorem Exits.mem (he : Exits k c p) (hcur : k.Current c) : p.2.dirs = k.dirs ∧ p.2.pmap = k.pmap := by
  cases he with
  | resume hc _ => exact dispatch_mem (hcur _ hc)
  | handler hc _ => exact dispatch_mem (hcur _ hc)
  | sched hy => exact hy.mem

theorem dispatch_env (k : Kernel) (c : Nat) (e x : EnvPtr) :
    ∃ st r n, (k.dispatch c e).envs x = { k.envs x with status := st, runs := r, cpunum := n } := by
  have hpre : ∃ st, (k.preempt c).envs x = { k.envs x with status := st } := by
    unfold Kernel.preempt
    split
    · split
      · rw [setEnv_apply]
        split
        · rename_i hx
          exact ⟨.runnable, by rw [hx]⟩
        · exact ⟨(k.envs x).status, rfl⟩
      · exact ⟨(k.envs x).status, rfl⟩
    · exact ⟨(k.envs x).status, rfl⟩
  obtain ⟨st, hst⟩ := hpre
  unfold Kernel.dispatch
  split
  · rw [setEnv_apply]
    split
    · rename_i hx
      exact ⟨(k.envs x).status, (k.envs x).runs, c, by rw [hx]⟩
    · exact ⟨(k.envs x).status, (k.envs x).runs, (k.envs x).cpunum, rfl⟩
  · rw [setEnv_apply]
    split
    · rename_i hx
      subst hx
      exact ⟨.running, _, c, by simp only [Kernel.switch, setEnv_self, setCpu_envs, hst]; rfl⟩
    · rename_i hx
      refine ⟨st, (k.envs x).runs, (k.envs x).cpunum, ?_⟩
      simp only [Kernel.switch, setEnv_of_ne hx, setCpu_envs, hst]

theorem Yields.env (hy : Yields k c p) (x : EnvPtr) :
    ∃ st r n, p.2.envs x = { k.envs x with status := st, runs := r, cpunum := n } := by
  cases hy with
  | next _ _ => exact dispatch_env ..
  | again _ _ => exact dispatch_env ..
  | halt _ => exact ⟨_, _, _, rfl⟩
  | monitor _ => exact ⟨_, _, _, rfl⟩
  | wild _ => exact ⟨_, _, _, rfl⟩

theorem Exits.env (he : Exits k c p) (x : EnvPtr) :
    ∃ st r n, p.2.envs x = { k.envs x with status := st, runs := r, cpunum := n } := by
  cases he with
  | resume _ _ => exact dispatch_env ..
  | handler _ _ => exact dispatch_env ..
  | sched hy => exact hy.env x

theorem live_of_dirs {k k' : Kernel} (h : k'.dirs = k.dirs) : k'.Live x ↔ k.Live x := by
  have hx := congrFun h x
  unfold Kernel.dirs at hx
  unfold Kernel.Live
  by_cases h1 : (k'.envs x).status = .free
  · by_cases h2 : (k.envs x).status = .free
    · simp [h1, h2]
    · simp [h1, h2] at hx
  · by_cases h2 : (k.envs x).status = .free
    · simp [h1, h2] at hx
    · simp [h1, h2]

theorem dispatch_resume (hc : k.curenv c = some e) : (k.dispatch c e).dirs = k.dirs := by
  rw [Kernel.dispatch, if_pos hc]
  exact dirs_setEnv_same Iff.rfl rfl

theorem Exits.live (he : Exits k c p) : p.2.Live x ↔ k.Live x := by
  cases he with
  | resume hc _ => exact live_of_dirs (dispatch_resume hc)
  | handler hc _ => exact live_of_dirs (dispatch_resume hc)
  | sched hy => exact live_of_dirs hy.mem.1

theorem Exits.current (he : Exits k c p) (hx : p.2.curenv c = some x) :
    k.curenv c = some x ∨ (k.envs x).status = .runnable := by
  cases he with
  | resume hc _ | handler hc _ =>
    rw [dispatch_curenv, if_pos rfl] at hx
    exact .inl (hc.trans hx)
  | sched hy =>
    cases hy with
    | next hr _ =>
      rw [dispatch_curenv, if_pos rfl] at hx
      exact .inr (Option.some.inj hx ▸ hr)
    | again hc _ =>
      rw [dispatch_curenv, if_pos rfl] at hx
      exact .inl (hc.trans hx)
    | halt _ => simp [Kernel.idle, setCpu_curenv] at hx
    | monitor _ => exact .inl hx
    | wild _ => exact .inl hx

theorem KernelOk.yields (h : KernelOk P k) (hy : Yields k c p) (hcur : k.Current c) :
    KernelOk P p.2 ∧ p.2.Current c := by
  cases hy with
  | next hr _ => exact h.dispatch (by simp [Kernel.Live, hr])
  | again _ hr => exact h.dispatch (by simp [Kernel.Live, hr])
  | halt _ => exact ⟨h.setCpu _ _, current_none (by simp [Kernel.idle, setCpu_curenv])⟩
  | monitor _ => exact ⟨h, hcur⟩
  | wild _ => exact ⟨h, hcur⟩

theorem KernelOk.exits (h : KernelOk P k) (he : Exits k c p) (hcur : k.Current c) :
    KernelOk P p.2 ∧ p.2.Current c := by
  cases he with
  | resume hc _ => exact h.dispatch (hcur _ hc)
  | handler hc _ => exact h.dispatch (hcur _ hc)
  | sched hy => exact h.yields hy hcur

/-! ## Creating an environment, and user mode -/

theorem forM_loadSegment_ok {ι : Type} [Fintype ι] [DecidableEq ι] {dirs : ι → Option Nat} {i : ι}
    (h : Steady P dirs s) (hq : dirs i = some q) (l : List Proghdr) :
    Triple (l.forM fun ph => loadSegment (q * pgsize) ph) s (fun _ s' => Steady P dirs s') (fun _ _ => True) :=
  .forM (I := fun _ s' => Steady P dirs s') h fun ph _ _ ht => loadSegment_ok ht hq ph

theorem KernelOk.create (h : KernelOk P k) (hb : k.Bounded)
    (hs : exec (envCreate binary type) k = (.ok (), k')) :
    KernelOk P k' ∧ k'.cpus = k.cpus ∧ ∀ e, k.Live e → k'.Live e := by
  obtain ⟨e, s, pgdir, s1, s2, hf, hvm, hseg, hstack, rfl⟩ := (envCreate_cases k binary type).ok hs
  obtain ⟨hq, -⟩ | ⟨q, hq, hnew⟩ := (envSetupVm_ok (h.steady hb) (dirs_free (h.slots.head_free hf))).ok hvm
  · simp at hq
  · obtain rfl := Option.some.inj hq
    have hupd : update k.dirs e (some q) e = some q := update_self ..
    have h1 := (forM_loadSegment_ok hnew.steady hupd _).ok hseg
    have h2 := (regionAlloc_ok h1 hupd _ _).ok hstack
    refine ⟨h.fill hf (by simp [newEnv]) rfl h2.ok, rfl, fun x hx => ?_⟩
    have hne : x ≠ e := by
      rintro rfl
      exact h.slots.head_free hf hx
    simpa [Kernel.Live, Kernel.created, setEnv_of_ne hne, Kernel.withPmap] using hx

theorem KernelOk.store (h : KernelOk P k) (hl : k.Live e)
    (ht : translate k.pmap.mem (k.envs e).pgdir va = some (p, f))
    (hw : userCanWrite k.pmap.mem (k.envs e).pgdir va = true) (b : BitVec 8) :
    KernelOk P (k.withPmap { k.pmap with mem := update k.pmap.mem (physical p va) b }) := by
  obtain ⟨q, hq, hp⟩ := h.dir hl
  rw [hp] at ht hw
  obtain ⟨l, hok⟩ := h.mem
  obtain ⟨p', f', ht', ho, hpte⟩ := hok.userStore hq hw
  obtain ⟨rfl, rfl⟩ := Prod.mk.inj (Option.some.inj (ht.symm.trans ht'))
  exact h.withPmap ⟨l, (hok.storeMapped ho (ptx_lt va) hpte (physical_page p va) b).1⟩

/-- The environment another CPU runs is not freed by this step. -/
def Undisturbed (k : Kernel) (ev : Event) (k' : Kernel) : Prop :=
  ∀ c e, ev.cpu ≠ some c → k.curenv c = some e → k'.Live e

structure MachineOk (P : Platform) (k : Kernel) : Prop where
  kernel : KernelOk P k
  current : k.Current c

/-- The CPU of the event runs a live environment, if it runs one. -/
def Event.ByLive (k : Kernel) (ev : Event) : Prop := ∀ c, ev.cpu = some c → k.Current c

theorem KernelOk.step (h : KernelOk P k) (hb : k.Bounded) (hs : Step k ev k') (hl : ev.ByLive k) :
    KernelOk P k' ∧ ∀ c, ev.cpu = some c → k'.Current c := by
  cases hs.does with
  | @start c _ _ hnone he _ =>
    have hok := (KernelOk.setCpu h c _).exits he (current_none (awake_curenv.trans hnone))
    exact ⟨hok.1, fun c' hc => Option.some.inj hc ▸ hok.2⟩
  | @trap c _ _ _ _ _ hr he _ =>
    obtain ⟨hok, hcur⟩ := h.ready hb (hl c rfl) hr
    obtain ⟨hok', hcur'⟩ := hok.exits he hcur
    exact ⟨hok', fun c' hc => Option.some.inj hc ▸ hcur'⟩
  | create hexec _ => exact ⟨(h.create hb hexec).1, fun _ hc => by simp [Event.cpu] at hc⟩
  | @store c _ _ _ _ _ hc ht hw => exact ⟨h.store (hl c rfl _ hc) ht hw _, hl⟩
  | stack hv =>
    obtain ⟨l, hok⟩ := h.mem
    refine ⟨h.withPmap ⟨l, ?_⟩, fun _ hc => by simp [Event.cpu] at hc⟩
    exact ⟨hok.layout_eq, hv, hok.counted, hok.sep, hok.owned, hok.pend_owned, hok.quiet, hok.flags, hok.user,
      hok.shared, hok.frozen⟩
  | card => exact ⟨⟨h.mem, h.pgdir, h.slots⟩, fun _ hc => by simp [Event.cpu] at hc⟩

theorem MachineOk.step (h : MachineOk P k) (hb : k.Bounded) (hs : Step k ev k') (hu : Undisturbed k ev k') :
    MachineOk P k' := by
  obtain ⟨hok, hthis⟩ := h.kernel.step hb hs fun _ _ => h.current
  refine ⟨hok, fun {c} => ?_⟩
  by_cases hc : ev.cpu = some c
  · exact hthis c hc
  · exact fun e he => hu c e hc ((hs.curenv_of_ne hc).symm.trans he)

theorem MachineOk.runs (h : MachineOk P k0)
    (hr : Runs (fun k ev k' => k.Bounded ∧ Undisturbed k ev k') k0 k) : MachineOk P k :=
  hr.invariant h fun _ _ _ hk hs hok => hk.step hok.1 hs hok.2

/-! ## One CPU -/

def Event.Single (ev : Event) : Prop := ∀ c, ev.cpu = some c → c = 0

def Kernel.OnlyCpu0 (k : Kernel) : Prop := ∀ c, c ≠ 0 → k.curenv c = none

theorem MachineOk.undisturbed (h : MachineOk P k) (hb : k.Bounded) (hc : k.OnlyCpu0) (hev : ev.Single)
    (hs : Step k ev k') : Undisturbed k ev k' := by
  intro c e hne he
  have hl := h.current e he
  cases hs with
  | create hexec => exact (h.kernel.create hb hexec).2.2 e hl
  | stack _ => exact hl
  | card => exact hl
  | store _ _ _ => exact hl
  | @start c' _ _ _ _ _ _ | @trap c' _ _ _ _ _ _ _ =>
    obtain rfl := hev c' rfl
    rw [hc c fun h => hne (congrArg some h.symm)] at he
    simp at he

theorem Step.onlyCpu0 (hs : Step k ev k') (hev : ev.Single) (hc : k.OnlyCpu0) : k'.OnlyCpu0 := fun c hne =>
  (hs.curenv_of_ne fun h => hne (hev c h)).trans (hc c hne)

def SingleRuns : Kernel → Kernel → Prop := Runs fun k ev _ => k.Bounded ∧ ev.Single

theorem MachineOk.singleRuns (h : MachineOk P k0) (hc : k0.OnlyCpu0) (hr : SingleRuns k0 k) :
    MachineOk P k ∧ k.OnlyCpu0 :=
  Runs.invariant (I := fun k => MachineOk P k ∧ k.OnlyCpu0) hr ⟨h, hc⟩ fun _ _ _ hk hs hok =>
    ⟨hk.1.step hok.1 hs (hk.1.undisturbed hok.1 hk.2 hok.2 hs), hs.onlyCpu0 hok.2 hk.2⟩

def LiveRuns : Kernel → Kernel → Prop := Runs fun k ev _ => k.Bounded ∧ ev.ByLive k

theorem KernelOk.liveRuns (h : KernelOk P k0) (hr : LiveRuns k0 k) : KernelOk P k :=
  Runs.invariant hr h fun _ _ _ hk hs hok => (hk.step hok.1 hs hok.2).1

theorem MachineOk.liveRuns (h : MachineOk P k0) (hc : k0.OnlyCpu0) (hr : SingleRuns k0 k) : LiveRuns k0 k := by
  induction hr with
  | refl => exact .refl
  | tail hr hstep ih =>
    obtain ⟨ev, hs, hb, -⟩ := hstep
    exact ih.tail ⟨ev, hs, hb, fun _ _ => (h.singleRuns hc hr).1.current⟩

theorem MachineOk.runs_of_single (h : MachineOk P k0) (hc : k0.OnlyCpu0) (hr : SingleRuns k0 k) :
    Runs (fun k ev k' => k.Bounded ∧ Undisturbed k ev k') k0 k := by
  induction hr with
  | refl => exact .refl
  | tail hr hstep ih =>
    obtain ⟨ev, hs, hb, hev⟩ := hstep
    obtain ⟨hok, honly⟩ := h.singleRuns hc hr
    exact ih.tail ⟨ev, hs, hb, hok.undisturbed hb honly hev hs⟩

end Jos
