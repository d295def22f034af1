import Jos.Kern.Smp
import Jos.Kern.Bystander

/-!
# Environment ids (`env_alloc`, `envid2env`)

An id is a generation and a slot: `env_alloc` gives the slot it takes the next
generation, and after the last the first again. An id whose environment is gone
therefore names nothing until its slot has been through all of them.
-/

namespace Jos

open Lib

/-! ## Generations -/

def generations : Nat := 2 ^ 19 - 1

/-- The id of slot `e` in its generation `g`; `0` until it is first taken. -/
def envIdAt (g : Nat) (e : EnvPtr) : Word := if g = 0 then 0#32 else BitVec.ofNat 32 (4096 * g + e.1)

def nextGeneration (g : Nat) : Nat := g % generations + 1

theorem nextGeneration_le (g : Nat) : nextGeneration g ≤ generations :=
  Nat.mod_lt g (by decide)

theorem nextGeneration_iterate (hg : 1 ≤ g) (hle : g ≤ generations) (n : Nat) :
    nextGeneration^[n] g = (g - 1 + n) % generations + 1 := by
  induction n with
  | zero =>
    have hmod : (g - 1 + 0) % generations = g - 1 := Nat.mod_eq_of_lt (by omega)
    rw [Function.iterate_zero, id_eq, hmod]
    omega
  | succ n ih =>
    rw [Function.iterate_succ_apply', ih, nextGeneration, Nat.mod_add_mod, Nat.add_assoc]

/-- A generation comes back once all the others have been. -/
theorem nextGeneration_period (hg : 1 ≤ g) (hle : g ≤ generations) (h : nextGeneration^[n] g = g) :
    generations ∣ n := by
  rw [nextGeneration_iterate hg hle] at h
  have hlt : (g - 1) % generations = g - 1 := Nat.mod_eq_of_lt (by omega)
  have hmod : (g - 1 + n) % generations = (g - 1) % generations := by
    rw [hlt]
    omega
  have hsub := Nat.sub_mod_eq_zero_of_mod_eq hmod
  rw [Nat.add_sub_cancel_left] at hsub
  exact Nat.dvd_of_mod_eq_zero hsub

section
variable (hg : g ≤ generations)
include hg

theorem envIdAt_toNat (h0 : g ≠ 0) : (envIdAt g e).toNat = 4096 * g + e.1 := by
  have he : e.1 < 1024 := e.2
  have hle : g ≤ 524287 := hg
  rw [envIdAt, if_neg h0, BitVec.toNat_ofNat, Nat.mod_eq_of_lt (by omega)]

theorem envIdAt_inj (hg' : g' ≤ generations) (h0 : g ≠ 0) (h0' : g' ≠ 0) (h : envIdAt g e = envIdAt g' e) : g = g' := by
  have := congrArg BitVec.toNat h
  rw [envIdAt_toNat hg h0, envIdAt_toNat hg' h0'] at this
  omega

theorem envx_envIdAt (h0 : g ≠ 0) : envx (envIdAt g e) = e := by
  have he : e.1 < 1024 := e.2
  refine Fin.ext ?_
  show (envIdAt g e &&& 1023#32).toNat = e.1
  rw [BitVec.toNat_and, envIdAt_toNat hg h0]
  show (4096 * g + e.1) &&& (2 ^ 10 - 1) = e.1
  rw [Nat.and_two_pow_sub_one_eq_mod]
  omega

theorem envIdAt_pos (h0 : g ≠ 0) : 0 < (envIdAt g e).toInt := by
  have he : e.1 < 1024 := e.2
  have hle : g ≤ 524287 := hg
  have hn := envIdAt_toNat (e := e) hg h0
  rw [BitVec.toInt_eq_toNat_of_lt (by omega)]
  omega

end

theorem and_not_slot (w : Word) : (w &&& ~~~1023#32).toNat = w.toNat / 1024 * 1024 := by
  have hw := w.isLt
  have hmask : ∀ i, (1023#32).getLsbD i = decide (i < 10) := fun i => by
    rw [BitVec.getLsbD_ofNat, show 1023 = 2 ^ 10 - 1 from rfl, Nat.testBit_two_pow_sub_one]
    by_cases h : i < 10
    · simp [h]
      omega
    · simp [h]
  have hsplit : w &&& ~~~1023#32 = (w >>> 10) <<< 10 := by
    apply BitVec.eq_of_getLsbD_eq
    intro i hi
    simp only [BitVec.getLsbD_and, BitVec.getLsbD_not, hi, hmask, BitVec.getLsbD_shiftLeft, BitVec.getLsbD_ushiftRight]
    by_cases h10 : i < 10
    · simp [h10]
    · rw [show 10 + (i - 10) = i by omega]
      simp [h10]
  rw [hsplit, BitVec.toNat_shiftLeft, BitVec.toNat_ushiftRight, Nat.shiftLeft_eq, Nat.shiftRight_eq_div_pow]
  omega

theorem or_slot (hg : g ≤ generations) (h0 : g ≠ 0) (hw : w.toNat = 4096 * g) :
    w ||| BitVec.ofNat 32 e.1 = envIdAt g e := by
  have he : e.1 < 2 ^ 10 := e.2
  apply BitVec.eq_of_toNat_eq
  rw [envIdAt_toNat hg h0, BitVec.toNat_or, BitVec.toNat_ofNat, Nat.mod_eq_of_lt (by omega), hw,
    show 4096 * g = 2 ^ 10 * (4 * g) by omega]
  exact (Nat.two_pow_add_eq_or_of_lt he (4 * g)).symm

theorem nextEnvId_envIdAt (hg : g ≤ generations) : nextEnvId (envIdAt g e) e = envIdAt (nextGeneration g) e := by
  have he : e.1 < 1024 := e.2
  have hle : g ≤ 524287 := hg
  have hgen : ((envIdAt g e + 1#32 <<< envgenshift) &&& ~~~1023#32).toNat = 4096 * (g + 1) := by
    rw [and_not_slot, BitVec.toNat_add, show (1#32 <<< envgenshift).toNat = 4096 from rfl]
    by_cases h0 : g = 0
    · rw [h0, envIdAt, if_pos rfl]
      rfl
    · rw [envIdAt_toNat hg h0]
      omega
  unfold nextEnvId
  dsimp only
  by_cases hlast : g = generations
  · have hneg : ((envIdAt g e + 1#32 <<< envgenshift) &&& ~~~1023#32).toInt ≤ 0 := by
      rw [BitVec.toInt_eq_toNat_cond, hgen, hlast]
      decide
    rw [if_pos hneg]
    have hone : nextGeneration g = 1 := by rw [hlast]; rfl
    rw [hone]
    exact or_slot (by decide) (by decide) rfl
  · have hlt : g < generations := Nat.lt_of_le_of_ne hg hlast
    have hlt' : g < 524287 := hlt
    have hpos : ¬ ((envIdAt g e + 1#32 <<< envgenshift) &&& ~~~1023#32).toInt ≤ 0 := by
      rw [BitVec.toInt_eq_toNat_of_lt (by omega), hgen]
      omega
    rw [if_neg hpos]
    have hnext : nextGeneration g = g + 1 := by rw [nextGeneration, Nat.mod_eq_of_lt hlt]
    rw [hnext]
    exact or_slot hlt (by omega) hgen

/-! ## What a step does to an id -/

section
variable {k : Kernel}

/-- The id of `b` is as it was, unless `b` was free and has been taken. -/
structure Renames (b : EnvPtr) (k k' : Kernel) : Prop where
  kept : k.Live b ∨ ¬ k'.Live b → (k'.envs b).id = (k.envs b).id
  taken : ¬ k.Live b → k'.Live b → (k'.envs b).id = nextEnvId (k.envs b).id b

theorem Renames.of_envs (h : k'.envs b = k.envs b) : Renames b k k' := by
  refine ⟨fun _ => congrArg Env.id h, fun hn hl => absurd hl ?_⟩
  rw [Kernel.Live, h]
  exact hn

theorem Renames.live (hl : k.Live e) (henvs : ∀ x, k'.envs x = if x = e then env else k.envs x)
    (h : env.id = (k.envs e).id) : Renames b k k' := by
  by_cases hb : b = e
  · subst hb
    refine ⟨fun _ => ?_, fun hn => absurd hl hn⟩
    rw [henvs, if_pos rfl]
    exact h
  · exact .of_envs ((henvs b).trans (if_neg hb))

theorem Renames.setLive (hl : k.Live e) (h : env.id = (k.envs e).id) : Renames b k (k.setEnv e env) :=
  .live hl (fun _ => setEnv_apply) h

theorem Renames.taking (hl : ¬ k.Live e) (hs : env.status ≠ .free) (h : env.id = nextEnvId (k.envs e).id e)
    (henvs : ∀ x, k'.envs x = if x = e then env else k.envs x) : Renames b k k' := by
  by_cases hb : b = e
  · subst hb
    have henv : k'.envs b = env := (henvs b).trans (if_pos rfl)
    refine ⟨fun hor => ?_, fun _ _ => henv ▸ h⟩
    rcases hor with hl' | hn
    · exact absurd hl' hl
    · rw [Kernel.Live, henv] at hn
      exact absurd hs hn
  · exact .of_envs ((henvs b).trans (if_neg hb))

theorem Sys.renames (hs : Sys cur a k k') (hslots : k.SlotsOk) (hcur : k.Live cur) : Renames b k k' := by
  cases hs with
  | envDying _ he _ _ => exact .setLive (live_resolve hcur he) rfl
  | envFreed _ he _ _ _ => exact .live (live_resolve hcur he) (fun _ => setEnv_apply (k := k.withPmap _)) rfl
  | @exofork e s pgdir _ hf _ =>
    refine .taking (hslots.head_free hf) (by simp [Kernel.forked]) (?_ : Env.id ((k.forked cur e s pgdir).envs e) = _)
      fun x => ?_
    · simp [Kernel.forked, Kernel.allocated, newEnv]
    · split
      · rename_i hx
        rw [hx]
      · exact forked_of_ne ‹_›
  | setStatus _ he _ | setTrapframe _ he _ | setUpcall _ he | send _ he _ _ => exact .setLive (live_resolve hcur he) rfl
  | sendPage _ he _ _ _ _ _ => exact .live (live_resolve hcur he) (fun _ => setEnv_apply (k := k.withPmap _)) rfl
  | nothing | pageAlloc _ _ _ _ _ | pageMap _ _ _ _ _ _ _ | pageUnmap _ _ _ _ | transmit _ => exact .of_envs rfl

theorem Renames.congr (h : Renames b k1 k2) (hl : k1.Live b ↔ k.Live b) (hl' : k2.Live b ↔ k'.Live b)
    (hid : (k1.envs b).id = (k.envs b).id) (hid' : (k2.envs b).id = (k'.envs b).id) : Renames b k k' := by
  refine ⟨fun hor => ?_, fun hn hlive => ?_⟩
  · rw [← hid', ← hid]
    exact h.kept (hor.imp hl.mpr (mt hl'.mp))
  · rw [← hid', ← hid]
    exact h.taken (mt hl.mp hn) (hl'.mpr hlive)

theorem Destroyed.renames (hd : Destroyed c cur k k') (hcur : k.Live cur) : Renames b k k' := by
  obtain ⟨w, s, -, rfl⟩ := hd
  exact .live hcur (fun _ => setEnv_apply (k := k.withPmap s)) rfl

theorem Ready.renames (hr : Ready c tf k k1) (hslots : k.SlotsOk) (hcur : k.Current c) : Renames b k k1 := by
  cases hr with
  | woken _ => exact .of_envs rfl
  | @reaped cur s _ hc _ _ => exact .live (hcur _ hc) (fun _ => setEnv_apply (k := (k.awake c).withPmap s)) rfl
  | @handled cur _ _ hc _ hh =>
    have hl : (k.entered c cur tf).Live cur := entered_live.mpr (hcur _ hc)
    have hslots' : (k.entered c cur tf).SlotsOk := Kernel.SlotsOk.setEnv (k := k.awake c) hslots Iff.rfl rfl
    have hid : ((k.entered c cur tf).envs b).id = (k.envs b).id := setEnv_field (k := k.awake c) Env.id (by rfl)
    suffices h : Renames b (k.entered c cur tf) k1 from h.congr entered_live Iff.rfl hid rfl
    cases hh with
    | ticked _ => exact .of_envs rfl
    | @syscall k2 r _ hs _ =>
      have hlive : (k2.setEax cur r).Live b ↔ k2.Live b := live_setEnv Iff.rfl
      have heax : ((k2.setEax cur r).envs b).id = (k2.envs b).id := setEnv_field Env.id (by rfl)
      exact (hs.renames hslots' hl).congr Iff.rfl hlive.symm rfl heax.symm
    | sleeps _ hs =>
      cases hs with
      | yield _ => exact .of_envs rfl
      | recv _ _ => exact .setLive hl rfl
      | destroyed _ _ hd => exact hd.renames hl
    | destroyed _ hd => exact hd.renames hl
    | @fault _ _ _ s _ _ _ => exact .live hl (fun _ => setEnv_apply (k := (k.entered c cur tf).withPmap s)) rfl

theorem Exits.id (he : Exits k c (x, k')) : (k'.envs b).id = (k.envs b).id := by
  obtain ⟨_, _, _, henv⟩ := he.env b
  rw [henv]

theorem Step.renames (hs : Step k ev k') (h : k.Apart) : Renames b k k' := by
  cases hs.does with
  | start _ he _ =>
    have hk : Renames b k k := .of_envs rfl
    exact hk.congr Iff.rfl he.live.symm rfl he.id.symm
  | trap hr he _ =>
    exact (hr.renames h.slots fun e hc => (h.busy hc).1).congr Iff.rfl he.live.symm rfl he.id.symm
  | @create _ _ _ s _ _ hf =>
    exact .taking (h.slots.head_free hf) (by simp [newEnv]) rfl fun y => setEnv_apply (k := k.withPmap s)
  | store _ _ _ | stack _ | card => exact .of_envs rfl

/-! ## Runs on one CPU -/

/-- Every slot has an id of its own, and a live one is past generation `0`. -/
def Kernel.IdsOk (k : Kernel) : Prop :=
  ∀ e, ∃ g, g ≤ generations ∧ (k.envs e).id = envIdAt g e ∧ (k.Live e → g ≠ 0)

theorem Kernel.IdsOk.renames (h : k.IdsOk) (hr : ∀ b, Renames b k k') : k'.IdsOk := by
  intro e
  obtain ⟨g, hg, hid, hlive⟩ := h e
  by_cases htaken : ¬ k.Live e ∧ k'.Live e
  · refine ⟨nextGeneration g, nextGeneration_le g, ?_, fun _ => Nat.succ_ne_zero _⟩
    rw [(hr e).taken htaken.1 htaken.2, hid, nextEnvId_envIdAt hg]
  · have hkept : k.Live e ∨ ¬ k'.Live e := by
      by_cases hl : k.Live e
      · exact .inl hl
      · exact .inr fun hl' => htaken ⟨hl, hl'⟩
    refine ⟨g, hg, ((hr e).kept hkept).trans hid, fun hl' => ?_⟩
    exact hlive (hkept.resolve_right (not_not_intro hl'))

/-- The state of a machine with one CPU, as far as slots and ids go. -/
structure Kernel.OneCpu (k : Kernel) : Prop where
  apart : k.Apart
  only : k.OnlyCpu0
  ids : k.IdsOk

theorem Kernel.OneCpu.step (h : k.OneCpu) (hs : Step k ev k') (hev : ev.Single) : k'.OneCpu where
  apart := (h.apart.step hs (hev.considerate h.only)).1
  only := hs.onlyCpu0 hev h.only
  ids := h.ids.renames fun _ => hs.renames h.apart

theorem Boots.oneCpu {mach : Machine} (h : Boots mach k) : k.OneCpu := by
  obtain ⟨P, -, -, -, -, -, honly, -⟩ := h.machineOk
  refine ⟨h.apart, honly, fun e => ⟨0, Nat.zero_le _, ?_⟩⟩
  obtain ⟨b, rfl⟩ := h.envInited
  exact ⟨rfl, fun hl => absurd rfl hl⟩

theorem OneCpuRuns.oneCpu {mach : Machine} (hrun : OneCpuRuns k0 k) (hboot : Boots mach k0) : k.OneCpu :=
  Runs.invariant hrun hboot.oneCpu fun _ _ _ h hs hev => h.step hs hev

/-- The runs on one CPU in which slot `e` is taken `n` times. -/
inductive Reused (e : EnvPtr) (k : Kernel) : Nat → Kernel → Prop
  | start : Reused e k 0 k
  | taken : Reused e k n k1 → Step k1 ev k' → ev.Single → ¬ k1.Live e → k'.Live e → Reused e k (n + 1) k'
  | other : Reused e k n k1 → Step k1 ev k' → ev.Single → k1.Live e ∨ ¬ k'.Live e → Reused e k n k'

theorem Reused.oneCpu (h : Reused e k n k') (hk : k.OneCpu) : k'.OneCpu := by
  induction h with
  | start => exact hk
  | taken _ hs hev _ _ ih | other _ hs hev _ ih => exact ih.step hs hev

theorem iterate_nextGeneration_le (hg : g ≤ generations) (n : Nat) : nextGeneration^[n] g ≤ generations := by
  cases n with
  | zero => exact hg
  | succ n =>
    rw [Function.iterate_succ_apply']
    exact nextGeneration_le _

/-- The generation of a slot moves on whenever the slot is taken. -/
theorem Reused.id (h : Reused e k n k') (hk : k.OneCpu) (hg : g ≤ generations) (hid : (k.envs e).id = envIdAt g e) :
    (k'.envs e).id = envIdAt (nextGeneration^[n] g) e := by
  induction h with
  | start => exact hid
  | taken hr hs _ hn hl ih =>
    rw [(hs.renames (hr.oneCpu hk).apart).taken hn hl, ih, nextEnvId_envIdAt (iterate_nextGeneration_le hg _),
      Function.iterate_succ_apply']
  | other hr hs _ hor ih =>
    rw [(hs.renames (hr.oneCpu hk).apart).kept hor]
    exact ih

theorem Reused.free (h : Reused e k n k') (hn : n = 0) (hf : ¬ k.Live e) : ¬ k'.Live e := by
  induction h with
  | start => exact hf
  | taken _ _ _ _ _ _ => cases hn
  | other _ _ _ hor ih => exact hor.resolve_left (ih hn)

/-- The id of an environment that is gone names another only after all generations of its slot. -/
theorem Reused.stale (h : Reused e k n k') (hk : k.OneCpu) (hf : ¬ k.Live e) (h0 : (k.envs e).id ≠ 0)
    (hn : ¬ (0 < n ∧ generations ∣ n)) : k'.resolve cur (k.envs e).id checkperm = none := by
  obtain ⟨g, hg, hid, -⟩ := hk.ids e
  have hg0 : g ≠ 0 := by
    rintro rfl
    exact h0 hid
  rw [Kernel.resolve, if_neg h0, hid, envx_envIdAt hg hg0]
  refine if_pos ?_
  by_cases hzero : n = 0
  · exact .inl (not_not.mp (h.free hzero hf))
  · refine .inr fun heq => hn ⟨Nat.pos_of_ne_zero hzero, ?_⟩
    rw [h.id hk hg hid] at heq
    have hpos : nextGeneration^[n] g ≠ 0 := by
      rw [nextGeneration_iterate (Nat.pos_of_ne_zero hg0) hg]
      exact Nat.succ_ne_zero _
    exact nextGeneration_period (Nat.pos_of_ne_zero hg0) hg
      (envIdAt_inj (iterate_nextGeneration_le hg n) hg hpos hg0 heq)

end

/-- `env_free_list` lists the free slots; a live environment has a positive id
that names its slot; the id of an environment that has been freed is not found
until its slot has been taken a multiple of `2^19 - 1` times; an `env_alloc` that
fails changes nothing. -/
theorem env_ids_name_one {mach : Machine} (hboot : Boots mach k0) (hrun : OneCpuRuns k0 k) :
    (∃ l, Chain (fun e => (k.envs e).link) k.envFreeList l ∧ l.Nodup ∧
        ∀ e, e ∈ l ↔ (k.envs e).status = .free) ∧
      (∀ e, (k.envs e).status ≠ .free → 0 < (k.envs e).id.toInt ∧ envx (k.envs e).id = e) ∧
      (∀ e e', (k.envs e).status ≠ .free → (k.envs e').status ≠ .free → (k.envs e).id = (k.envs e').id →
        e = e') ∧
      (∀ e ev k1 n k2, (k.envs e).status ≠ .free → Step k ev k1 → ev.Single → (k1.envs e).status = .free →
        Reused e k1 n k2 → ¬ (0 < n ∧ 2 ^ 19 - 1 ∣ n) → ∀ cur checkperm,
          exec (envid2env cur (k.envs e).id checkperm) k2 = (.ok none, k2)) ∧
      ∀ parentId code k', exec (envAlloc parentId) k = (.ok (.inl code), k') → k' = k := by
  have h := hrun.oneCpu hboot
  have hlive : ∀ e, k.Live e → 0 < (k.envs e).id.toInt ∧ envx (k.envs e).id = e := fun e hl => by
    obtain ⟨g, hg, hid, h0⟩ := h.ids e
    rw [hid]
    exact ⟨envIdAt_pos hg (h0 hl), envx_envIdAt hg (h0 hl)⟩
  refine ⟨?_, hlive, fun e e' hl hl' hid => ?_, fun e ev k1 n k2 hl hs hev hf hr hn cur checkperm => ?_,
    fun parentId code k' hexec => ?_⟩
  · obtain ⟨l, hc, hmem⟩ := h.apart.slots
    exact ⟨l, hc, hc.nodup, fun e => (hmem e).trans not_not⟩
  · rw [← (hlive e hl).2, ← (hlive e' hl').2, hid]
  · have hsame : (k1.envs e).id = (k.envs e).id := (hs.renames h.apart).kept (.inl hl)
    have hpos := (hlive e hl).1
    have h0 : (k1.envs e).id ≠ 0 := by
      intro hz
      rw [← hsame, hz] at hpos
      exact absurd hpos (by decide)
    rw [exec_envid2env, ← hsame, hr.stale (h.step hs hev) (not_not_intro hf) h0 hn]
  · obtain ⟨_, -, rfl⟩ | ⟨e, s, pgdir, hr, -⟩ := (envAlloc_cases k parentId).ok hexec
    · rfl
    · cases hr

/-- The first program makes a child, destroys it and makes another in the same
slot: the id of the first child names nobody. -/
theorem env_ids_name_one_pc64 : ∃ k0 k k1 k2 : Kernel, Boots pc64 k0 ∧ OneCpuRuns k0 k ∧
    (k.envs slot1).id = 4097#32 ∧
    Step k (.trap 0 (callFrame ⟨3, 4097, 0, 0, 0, 0⟩) 0) k1 ∧ Reused slot1 k1 1 k2 ∧
    (k2.envs slot1).status = .notRunnable ∧ exec (envid2env slot0 4097 true) k2 = (.ok none, k2) := by
  obtain ⟨k0, P, k, k1, -, -, hboot, ⟨hstart, -, -⟩, ⟨hs1, -, h1⟩, -, -, -⟩ := pc64_forks
  have hsingle : ∀ tf, (Event.trap 0 tf 0).Single := fun tf c hc => (Option.some.inj hc).symm
  have hrun : OneCpuRuns k0 k1 := (hstart.mono fun _ _ _ _ hev _ => hev : OneCpuRuns k0 k).tail ⟨_, hs1, hsingle _⟩
  have hid : ((View.first k).fork slot0 slot1).id slot1 = 4097#32 := withChild_id k
  have hlive : (k1.envs slot1).status ≠ .free := by
    rw [h1.looks.status]
    exact (fork_child_slot1 k).2.1
  obtain ⟨k2, hs2, h2⟩ := h1.destroy_other (c := 0) rfl rfl (fork_child_slot1 k) (by simp [View.fork])
  obtain ⟨k3, hs3, h3, -⟩ := h2.fork (c := 0) rfl rfl rfl (by decide)
  rw [hid] at hs2
  have hfree : (k2.envs slot1).status = .free := by
    rw [h2.looks.status]
    simp [View.release]
  have hlive3 : (k3.envs slot1).status = .notRunnable := by
    rw [h3.looks.status]
    simp [View.fork]
  have hreused : Reused slot1 k2 1 k3 :=
    Reused.start.taken hs3 (hsingle _) (not_not_intro hfree) (by simp [Kernel.Live, hlive3])
  obtain ⟨-, -, -, hstale, -⟩ := env_ids_name_one hboot hrun
  have hnone := hstale slot1 _ k2 1 k3 hlive hs2 (hsingle _) hfree hreused (by decide) slot0 true
  have hid1 : (k1.envs slot1).id = 4097#32 := h1.looks.id.trans hid
  rw [hid1] at hnone
  exact ⟨k0, k1, k2, k3, hboot, hrun, hid1, hs2, hreused, hlive3, hnone⟩

end Jos
