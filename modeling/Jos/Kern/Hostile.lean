import Jos.Kern.UserMem
import Mathlib.Tactic.IntervalCases

/-!
# System calls the kernel does not survive

Most system calls check all they are given. `sys_env_set_trapframe` panics
instead of returning an error and follows its pointer unchecked, `sys_cputs`
loads one character past the range it has checked, `e1000_transmit` panics on a
long packet, and `sched_yield` looks one slot past the table of environments.
What the arguments must be like for a call to come to nothing worse than an
error, here, is exact.
-/

namespace Jos

open Lib

/-- The kernel panics, or runs memory that holds no environment. -/
def Exit.Down : Exit → Prop
  | .panic _ | .wild => True
  | .run _ | .halt | .monitor => False

/-- A computation that returns, or leaves the kernel as it should be left. -/
def Survives (m : KernelM α) (k : Kernel) : Prop := Triple m k (fun _ _ => True) fun x _ => ¬ x.Down

/-! ## Reading memory that may not be there -/

def byteAt (m : Mem) (pgdir : Nat) (va : Word) : Option (BitVec 8) :=
  (translate m pgdir va).map fun x => m (physical x.1 va)

def BytesMapped (m : Mem) (pgdir : Nat) (va : Word) (n : Nat) : Prop :=
  ∀ j < n, (byteAt m pgdir (va + BitVec.ofNat 32 j)).isSome = true

/-- `n` bytes from `va` on are mapped, or those up to a `NUL` are. -/
def CharsMapped (m : Mem) (pgdir : Nat) (va : Word) (n : Nat) : Prop :=
  ∀ j < n, (∀ i < j, byteAt m pgdir (va + BitVec.ofNat 32 i) ≠ some 0#8) →
    (byteAt m pgdir (va + BitVec.ofNat 32 j)).isSome = true

/-- `m` changes nothing, and returns exactly if `p` holds. -/
def Needs (p : Prop) (m : PmapM α) (s : Pmap) : Prop := Triple m s (fun _ s' => s = s' ∧ p) (fun _ _ => ¬ p)

section
variable {s : Pmap}

theorem Needs.pure (a : α) : Needs True (Pure.pure a) s := Triple.pure ⟨rfl, trivial⟩

theorem Needs.bind {m : PmapM α} {f : α → PmapM β} (h : Needs p m s) (hf : ∀ a, Needs p' (f a) s) :
    Needs (p ∧ p') (m >>= f) s := by
  refine Triple.bind (h.imp_error fun _ _ hn hp => hn hp.1) ?_
  rintro a _ ⟨rfl, hp⟩
  exact (hf a).mono (fun _ _ h => ⟨h.1, hp, h.2⟩) fun _ _ hn hp' => hn hp'.2

theorem Needs.congr {m : PmapM α} (h : Needs p m s) (hp : p ↔ p') : Needs p' m s :=
  h.mono (fun _ _ h => ⟨h.1, hp.mp h.2⟩) fun _ _ hn hp' => hn (hp.mpr hp')

theorem exec_vload8_byteAt (pgdir : Nat) (va : Word) : exec (vload8 pgdir va) s =
    match byteAt s.mem pgdir va with
    | none => (.error .kernelFault, s)
    | some b => (.ok b, s) := by
  unfold vload8 byteAt
  rw [exec_bind, exec_get]
  dsimp only
  cases translate s.mem pgdir va <;> rfl

theorem vload8_needs (pgdir : Nat) (va : Word) :
    Needs ((byteAt s.mem pgdir va).isSome = true) (vload8 pgdir va) s := by
  have hexec := exec_vload8_byteAt (s := s) pgdir va
  cases hb : byteAt s.mem pgdir va with
  | none =>
    rw [hb] at hexec
    exact .of_error hexec (by simp)
  | some b =>
    rw [hb] at hexec
    exact .of_ok hexec ⟨rfl, rfl⟩

theorem vload32_needs (pgdir : Nat) (va : Word) : Needs (BytesMapped s.mem pgdir va 4) (vload32 pgdir va) s := by
  refine Needs.congr (.bind (vload8_needs ..) fun _ => .bind (vload8_needs ..) fun _ =>
    .bind (vload8_needs ..) fun _ => .bind (vload8_needs ..) fun _ => .pure _) ?_
  constructor
  · rintro ⟨h0, h1, h2, h3, -⟩ j hj
    interval_cases j
    · simpa using h0
    · exact h1
    · exact h2
    · exact h3
  · intro h
    exact ⟨by simpa using h 0 (by decide), h 1 (by decide), h 2 (by decide), h 3 (by decide), trivial⟩

theorem Needs.word {f : Word → PmapM α} (hf : ∀ w, Needs q (f w) s) :
    Needs (BytesMapped s.mem pgdir va 4 ∧ q) (vload32 pgdir va >>= f) s :=
  .bind (vload32_needs ..) hf

theorem mapped_words (m : Mem) (pgdir : Nat) (va : Word) (n : Nat) :
    BytesMapped m pgdir va (4 * n) ↔ ∀ k < n, BytesMapped m pgdir (va + BitVec.ofNat 32 (4 * k)) 4 := by
  constructor
  · intro h k hk j hj
    rw [BitVec.add_assoc, ← BitVec.ofNat_add]
    exact h _ (by omega)
  · intro h j hj
    have hw := h (j / 4) (by omega) (j % 4) (Nat.mod_lt _ (by decide))
    rwa [BitVec.add_assoc, ← BitVec.ofNat_add, Nat.div_add_mod] at hw

theorem forall_lt_words (p : Nat → Prop) : (∀ k < 17, p k) ↔ p 0 ∧ p 1 ∧ p 2 ∧ p 3 ∧ p 4 ∧ p 5 ∧ p 6 ∧ p 7 ∧ p 8 ∧ p 9 ∧
    p 10 ∧ p 11 ∧ p 12 ∧ p 13 ∧ p 14 ∧ p 15 ∧ p 16 ∧ True := by
  constructor
  · intro h
    simp [h]
  · rintro ⟨h0, h1, h2, h3, h4, h5, h6, h7, h8, h9, h10, h11, h12, h13, h14, h15, h16, -⟩ k hk
    interval_cases k <;> assumption

theorem vloadTrapframe_needs (pgdir : Nat) (tf : Word) :
    Needs (BytesMapped s.mem pgdir tf 68) (vloadTrapframe pgdir tf) s := by
  refine Needs.congr (.word fun _ => .word fun _ => .word fun _ => .word fun _ => .word fun _ => .word fun _ =>
    .word fun _ => .word fun _ => .word fun _ => .word fun _ => .word fun _ => .word fun _ => .word fun _ =>
    .word fun _ => .word fun _ => .word fun _ => .word fun _ => .pure _) ?_
  rw [show 68 = 4 * 17 from rfl, mapped_words]
  exact (forall_lt_words fun k => BytesMapped s.mem pgdir (tf + BitVec.ofNat 32 (4 * k)) 4).symm

theorem forM_needs {f : Nat → PmapM PUnit} {p : Nat → Prop} (hf : ∀ j, Needs (p j) (f j) s) (l : List Nat) :
    Needs (∀ j ∈ l, p j) (l.forM f) s := by
  induction l with
  | nil => exact (Needs.pure _).congr (by simp)
  | cons j l ih => exact (Needs.bind (hf j) fun _ => ih).congr (by simp)

theorem readChars_needs (pgdir n : Nat) (va : Word) :
    Needs (CharsMapped s.mem pgdir va n) (readChars pgdir n va) s := by
  induction n generalizing va with
  | zero => exact (Needs.pure _).congr ⟨fun _ j hj => absurd hj (Nat.not_lt_zero j), fun _ => trivial⟩
  | succ n ih =>
    have hexec := exec_vload8_byteAt (s := s) pgdir va
    have hzero : va + BitVec.ofNat 32 0 = va := by simp
    have hsucc : ∀ j, va + 1 + BitVec.ofNat 32 j = va + BitVec.ofNat 32 (j + 1) := fun j => by
      rw [BitVec.add_assoc, Nat.add_comm j 1, BitVec.ofNat_add]
      rfl
    cases hb : byteAt s.mem pgdir va with
    | none =>
      rw [hb] at hexec
      refine .of_error (exec_bind_error hexec) fun h => ?_
      have := h 0 (Nat.succ_pos n) (fun i hi => absurd hi (Nat.not_lt_zero i))
      rw [hzero, hb] at this
      cases this
    | some b =>
      rw [hb] at hexec
      unfold readChars
      by_cases hnul : b = 0#8
      · refine Triple.of_ok ((exec_bind_ok hexec).trans (by rw [if_pos hnul]; rfl)) ⟨rfl, fun j hj hbefore => ?_⟩
        cases j with
        | zero => rw [hzero, hb]; rfl
        | succ j =>
          refine absurd ?_ (hbefore 0 (Nat.succ_pos j))
          rw [hzero, hb, hnul]
      · have hrest : Needs (CharsMapped s.mem pgdir va (n + 1)) (readChars pgdir n (va + 1)) s := by
          refine (ih (va + 1)).congr ⟨fun h j hj hbefore => ?_, fun h j hj hbefore => ?_⟩
          · cases j with
            | zero => rw [hzero, hb]; rfl
            | succ j =>
              rw [← hsucc]
              refine h j (Nat.lt_of_succ_lt_succ hj) fun i hi => ?_
              rw [hsucc]
              exact hbefore (i + 1) (Nat.succ_lt_succ hi)
          · rw [hsucc]
            refine h (j + 1) (Nat.succ_lt_succ hj) fun i hi => ?_
            cases i with
            | zero =>
              rw [hzero, hb]
              exact fun heq => hnul (Option.some.inj heq)
            | succ i =>
              rw [← hsucc]
              exact hbefore i (Nat.lt_of_succ_lt_succ hi)
        unfold Needs Triple at hrest ⊢
        rw [exec_bind_ok hexec, if_neg hnul]
        exact hrest

end

/-! ## The scheduler -/

section
variable {k : Kernel}

theorem survives_iff {m : KernelM α} : Survives m k ↔ ∀ x k', exec m k = (.error x, k') → ¬ x.Down := by
  constructor
  · intro h x k' hexec
    exact h.error hexec
  · intro h
    cases hexec : exec m k with
    | mk r k' =>
      cases r with
      | ok a => exact .of_ok hexec trivial
      | error x => exact .of_error hexec (h x k' hexec)

theorem not_survives {m : KernelM α} (h : exec m k = (.error x, k')) (hx : x.Down) : ¬ Survives m k :=
  fun hs => hs.error h hx

theorem Survives.pure (a : α) : Survives (Pure.pure a) k := Triple.pure trivial

theorem Survives.modifyEnv (e : EnvPtr) (f : Env → Env) : Survives (modifyEnv e f) k := .of_ok (exec_modifyEnv e f) trivial

theorem Survives.bind {m : KernelM α} {f : α → KernelM β} (h : Survives m k) (hf : ∀ a k', Survives (f a) k') :
    Survives (m >>= f) k :=
  Triple.bind h fun a k' _ => hf a k'

theorem Survives.liftPmap {m : PmapM α} {Q : α → Pmap → Prop} (h : Triple m k.pmap Q fun _ _ => False) :
    Survives (liftPmap m) k :=
  liftPmap_rule (h.imp fun _ _ _ => trivial)

/-- The slots from `idle` on hold nothing runnable, and memory behind the table looks as if it did. -/
theorem schedScan_past (hnone : ∀ i, idle ≤ i → i < nenv → k.runnableAt i = false) (hpast : k.runnableAt nenv = true)
    (hle : idle ≤ nenv) (hn : nenv - idle < n) : k.schedScan n idle = some nenv := by
  induction n generalizing idle with
  | zero => exact absurd hn (Nat.not_lt_zero _)
  | succ n ih =>
    by_cases hlast : idle = nenv
    · subst hlast
      exact schedScan_here hpast
    · have hlt : idle < nenv := Nat.lt_of_le_of_ne hle hlast
      rw [schedScan_next (hnone idle (Nat.le_refl _) hlt) hlt]
      exact ih (fun i hi => hnone i (by omega)) hlt (by omega)

theorem schedScan_inside (hr : k.runnableAt e = true) (hle : idle ≤ e) (he : e < nenv) (hn : e - idle < n)
    (h : k.schedScan n idle = some i) : i < nenv := by
  induction n generalizing idle with
  | zero => exact absurd hn (Nat.not_lt_zero _)
  | succ n ih =>
    have hlt : idle < nenv := Nat.lt_of_le_of_lt hle he
    cases hidle : k.runnableAt idle with
    | true =>
      rw [schedScan_here hidle] at h
      obtain rfl := Option.some.inj h
      exact hlt
    | false =>
      rw [schedScan_next hidle hlt] at h
      have hne : idle ≠ e := by
        rintro rfl
        rw [hr] at hidle
        cases hidle
      exact ih (by omega) (by omega) h

/-- An environment behind `cur` is runnable, if the word behind the table says so of itself. -/
def Kernel.ScanStops (k : Kernel) (cur : EnvPtr) : Prop :=
  k.runnableAt nenv = true → ∃ e, cur < e ∧ (k.envs e).status = .runnable

theorem yield_down (h : ∀ i, k.schedScan 1024 (k.firstSlot c) = some i → i < nenv) : ¬ (k.yield c).1.Down := by
  unfold Kernel.yield
  cases hs : k.schedScan 1024 (k.firstSlot c) with
  | some i =>
    dsimp only
    rw [dif_pos (h i hs)]
    exact fun hd => hd
  | none =>
    dsimp only
    split
    · split
      · exact fun hd => hd
      · split <;> exact fun hd => hd
    · split <;> exact fun hd => hd

theorem schedYield_survives (h : ¬ (k.yield c).1.Down) : Survives (schedYield c) k :=
  .of_error exec_schedYield h

theorem survives_bind_iff {m : KernelM α} {f : α → KernelM β} (hf : ∀ a k', Survives (f a) k') :
    Survives (m >>= f) k ↔ Survives m k := by
  refine ⟨fun h => ?_, fun h => h.bind hf⟩
  cases hexec : exec m k with
  | mk r k' =>
    cases r with
    | ok a => exact .of_ok hexec trivial
    | error x => exact .of_error hexec (h.error (exec_bind_error hexec))

theorem survives_int {m : KernelM Int} : Survives (do return BitVec.ofInt 32 (← m)) k ↔ Survives m k :=
  survives_bind_iff fun _ _ => .pure _

theorem schedYield_bind {f : Unit → KernelM α} : Survives (schedYield c >>= f) k ↔ Survives (schedYield c) k := by
  unfold Survives Triple
  rw [exec_bind_error exec_schedYield, exec_schedYield]

theorem schedYield_idle (hc : k.curenv c = none) : Survives (schedYield c) k := by
  refine schedYield_survives (yield_down fun i hs => ?_)
  have hfirst : k.firstSlot c = 0 := by simp [Kernel.firstSlot, hc]
  rw [hfirst] at hs
  obtain ⟨j, hj, rfl⟩ := schedScan_ring hs (Nat.zero_le _)
  have hlt : j < nenv + 1 := Nat.lt_succ_of_lt hj
  rw [Nat.zero_add, Nat.mod_eq_of_lt hlt]
  exact hj

theorem schedYield_iff (hc : k.curenv c = some cur) : Survives (schedYield c) k ↔ k.ScanStops cur := by
  have hfirst : k.firstSlot c = cur.1 + 1 := by simp [Kernel.firstSlot, hc]
  have hcur : cur.1 < nenv := cur.2
  have hnenv : nenv = 1024 := rfl
  constructor
  · intro h hpast
    by_contra hnone
    have hscan : k.schedScan 1024 (k.firstSlot c) = some nenv := by
      rw [hfirst]
      refine schedScan_past (fun i hi hlt => ?_) hpast hcur (by omega)
      refine Bool.eq_false_of_not_eq_true fun hr => hnone ⟨⟨i, hlt⟩, hi, (runnableAt_lt hlt).mp hr⟩
    have hyield : k.yield c = (.wild, k) := by
      rw [Kernel.yield, hscan]
      exact dif_neg (Nat.lt_irrefl _)
    have hexec : exec (schedYield c) k = (.error .wild, k) := by rw [exec_schedYield, hyield]
    exact not_survives hexec trivial h
  · intro h
    refine schedYield_survives (yield_down fun i hs => ?_)
    rw [hfirst] at hs
    obtain ⟨hle, hr⟩ := schedScan_le hs hcur
    by_cases hi : i = nenv
    · subst hi
      obtain ⟨e, hlt, hst⟩ := h hr
      exact schedScan_inside ((runnableAt_lt e.2).mpr hst) hlt e.2 (by omega) hs
    · exact Nat.lt_of_le_of_ne hle hi

/-! ## What the arguments must be like -/

def Kernel.Passes (k : Kernel) (cur : EnvPtr) (va len perm : Word) : Prop :=
  exec (userMemCheck (k.envs cur).pgdir va len (perm ||| pteU)) k.pmap = (.ok 0, k.pmap)

/-- The arguments the kernel survives. -/
structure Args.Safe (a : Args) (cur : EnvPtr) (k : Kernel) : Prop where
  /-- `sys_cputs`: what `vprintfmt` loads is mapped. -/
  cputs : a.no = 0 → k.Passes cur a.a1 a.a2 pteU → a.a1 ≠ 0 →
    CharsMapped k.pmap.mem (k.envs cur).pgdir a.a1 (charsRead a.a2)
  /-- `sys_env_set_trapframe`: the environment is there, and so is the frame. -/
  trapframe : a.no = 9 → (k.resolve cur a.a1 true).isSome = true ∧ a.a2 ≠ 0 ∧
    BytesMapped k.pmap.mem (k.envs cur).pgdir a.a2 68
  /-- `sys_yield` and `sys_ipc_recv`: the scan of `sched_yield` does not leave the table. -/
  yield : a.no = 11 ∨ (a.no = 13 ∧ ¬ (a.a1 < utop ∧ a.a1 % 4096 ≠ 0)) → k.ScanStops cur
  /-- `sys_e1000_transmit`: the packet is short, and mapped unless the ring is full. -/
  transmit : a.no = 15 → k.Passes cur a.a1 a.a2 pteW → a.a2 ≤ dataSize ∧
    (k.tx.done k.tx.tdt = true → BytesMapped k.pmap.mem (k.envs cur).pgdir a.a1 a.a2.toNat)

namespace Args.Safe

variable {a : Args}

theorem other (hn : a.no = n) (h : n ≠ 0 ∧ n ≠ 9 ∧ n ≠ 11 ∧ n ≠ 13 ∧ n ≠ 15) : a.Safe cur k := by
  subst hn
  exact ⟨fun h0 => absurd h0 h.1, fun h9 => absurd h9 h.2.1, fun h11 => h11.elim (absurd · h.2.2.1) (absurd ·.1 h.2.2.2.1),
    fun h15 => absurd h15 h.2.2.2.2⟩

theorem cputs_iff (hn : a.no = 0) : a.Safe cur k ↔ (k.Passes cur a.a1 a.a2 pteU → a.a1 ≠ 0 →
    CharsMapped k.pmap.mem (k.envs cur).pgdir a.a1 (charsRead a.a2)) := by
  refine ⟨fun h => h.cputs hn, fun h => ⟨fun _ => h, fun h' => ?_, fun h' => ?_, fun h' => ?_⟩⟩ <;>
    simp [hn] at h'

theorem trapframe_iff (hn : a.no = 9) : a.Safe cur k ↔ (k.resolve cur a.a1 true).isSome = true ∧ a.a2 ≠ 0 ∧
    BytesMapped k.pmap.mem (k.envs cur).pgdir a.a2 68 := by
  refine ⟨fun h => h.trapframe hn, fun h => ⟨fun h' => ?_, fun _ => h, fun h' => ?_, fun h' => ?_⟩⟩ <;>
    simp [hn] at h'

theorem yield_iff (hn : a.no = 11) : a.Safe cur k ↔ k.ScanStops cur := by
  refine ⟨fun h => h.yield (.inl hn), fun h => ⟨fun h' => ?_, fun h' => ?_, fun _ => h, fun h' => ?_⟩⟩ <;>
    simp [hn] at h'

theorem recv_iff (hn : a.no = 13) : a.Safe cur k ↔ (¬ (a.a1 < utop ∧ a.a1 % 4096 ≠ 0) → k.ScanStops cur) := by
  refine ⟨fun h hva => h.yield (.inr ⟨hn, hva⟩), fun h => ⟨fun h' => ?_, fun h' => ?_, fun h' => ?_, fun h' => ?_⟩⟩
  · simp [hn] at h'
  · simp [hn] at h'
  · exact h (h'.resolve_left (by simp [hn])).2
  · simp [hn] at h'

theorem transmit_iff (hn : a.no = 15) : a.Safe cur k ↔ (k.Passes cur a.a1 a.a2 pteW → a.a2 ≤ dataSize ∧
    (k.tx.done k.tx.tdt = true → BytesMapped k.pmap.mem (k.envs cur).pgdir a.a1 a.a2.toNat)) := by
  refine ⟨fun h => h.transmit hn, fun h => ⟨fun h' => ?_, fun h' => ?_, fun h' => ?_, fun _ => h⟩⟩ <;>
    simp [hn] at h'

end Args.Safe

/-- The tables of the kernel are in memory the machine has. -/
def Platform.TablesIn (P : Platform) : Prop :=
  ∀ d pt, ¬ Own d → d < 1024 → d ≠ pdx uvpt → entryPage (P.base.read32 (P.kq * pgsize + 4 * d)) = some pt →
    pt < P.layout.npages

/-! ## Calls that check their arguments -/

section
variable {P : Platform} (h : KernelOk P k) (hb : k.Bounded) (hcur : k.Live cur)

include h hb in
theorem envFree_returns (hl : k.Live e) (w : Word) :
    ∃ s, exec (envFree e) (k.withPmap { k.pmap with userMemCheckAddr := w }) = (.ok (), k.freed e s) := by
  obtain ⟨q, hq, hp⟩ := h.dir hl
  obtain ⟨_, s, hexec, -⟩ := (envFreeSpace_ok ((h.steady hb).checkAddr w) hq).returns
  generalize hk : k.withPmap { k.pmap with userMemCheckAddr := w } = k1
  have hfree : exec (envFreeSpace (k1.envs e).pgdir) k1.pmap = (.ok (), s) := by
    rw [← hk]
    exact hp ▸ hexec
  refine ⟨s, ?_⟩
  unfold envFree
  rw [exec_bind_ok (exec_get _), exec_bind_ok (exec_liftPmap_ok hfree), ← hk]
  rfl

include h hb in
theorem envDestroy_survives (hl : k.Live e) (w : Word) :
    Survives (envDestroy c e) (k.withPmap { k.pmap with userMemCheckAddr := w }) := by
  obtain ⟨s, hfree⟩ := envFree_returns h hb hl w
  refine Triple.get_bind (.ite (fun _ => Survives.modifyEnv ..) fun _ => ?_)
  refine .ok_bind hfree ?_
  refine .ite (fun _ => ?_) fun _ => .pure trivial
  refine .ok_bind (exec_setCurenv ..) ?_
  exact schedYield_idle (by simp [Kernel.noCurenv, setCpu_curenv])

include h hb hcur in
theorem sysEnvDestroy_survives : Survives (sysEnvDestroy c cur envid) k := by
  refine envid2env_bind ?_
  cases he : k.resolve cur envid true with
  | none => exact .pure trivial
  | some e =>
    exact Survives.bind (envDestroy_survives h hb (live_resolve hcur he) k.pmap.userMemCheckAddr) fun _ _ => .pure _

include h hb in
theorem sysExofork_survives : Survives (sysExofork cur) k := by
  refine Triple.get_bind ?_
  refine Survives.bind (?_ : Survives (envAlloc _) k) fun r k' => ?_
  · refine Triple.get_bind ?_
    cases hf : k.envFreeList with
    | none => exact .pure trivial
    | some e =>
      refine Survives.bind (Survives.liftPmap (envSetupVm_ok (h.steady hb) (dirs_free (h.slots.head_free hf)))) fun r k' => ?_
      cases r with
      | none => exact .pure _
      | some pgdir =>
        exact Survives.bind (.modifyEnv ..) fun _ _ => Survives.bind (Triple.modify trivial) fun _ _ => .pure _
  · cases r with
    | inl code => exact .pure _
    | inr e => exact Triple.get_bind (Survives.bind (.modifyEnv ..) fun _ _ => Triple.get_bind (.pure trivial))

theorem sysEnvSetStatus_survives : Survives (sysEnvSetStatus cur envid status) k :=
  sysEnvSetStatus_rule (fun _ _ => trivial) fun _ _ _ _ => trivial

theorem sysEnvSetPgfaultUpcall_survives : Survives (sysEnvSetPgfaultUpcall cur envid func) k :=
  sysEnvSetPgfaultUpcall_rule (fun _ _ => trivial) fun _ _ => trivial

include h hb hcur

theorem sysPageAlloc_survives : Survives (sysPageAlloc cur envid va perm) k :=
  sysPageAlloc_rule (fun _ _ => trivial) fun _ he hva hperm =>
    Survives.liftPmap (h.pageAllocAt hb (live_resolve hcur he) hva hperm)

theorem sysPageMap_survives : Survives (sysPageMap cur srcenvid srcva dstenvid dstva perm) k :=
  sysPageMap_rule (fun _ _ => trivial) fun _ _ hsrc hdst hva hva' hperm =>
    Survives.liftPmap (h.pageMapAt hb (live_resolve hcur hsrc) (live_resolve hcur hdst) hva hva' hperm)

theorem sysPageUnmap_survives : Survives (sysPageUnmap cur envid va) k :=
  sysPageUnmap_rule (fun _ _ => trivial) fun _ he hva =>
    Survives.liftPmap (h.pageRemove hb (live_resolve hcur he) hva)

theorem sysIpcTrySend_survives : Survives (sysIpcTrySend cur envid value srcva perm) k := by
  refine envid2env_bind ?_
  cases he : k.resolve cur envid false with
  | none => exact .pure trivial
  | some e =>
    have hdeliver : ∀ (k' : Kernel) (perm : Word), Survives (do
        let from_ := ((← get).envs cur).id
        modifyEnv e fun env => { env with
          ipcPerm := perm
          ipcRecving := false
          ipcValue := value
          ipcFrom := from_
          status := .runnable
          tf := { env.tf with regs := { env.tf.regs with eax := 0 } } }
        return (0 : Int)) k' := fun k' perm =>
      Triple.get_bind (Survives.bind (.modifyEnv ..) fun _ _ => .pure _)
    refine Triple.get_bind (.ite (fun _ => .pure trivial) fun _ => .ite (fun _ => .pure trivial) fun _ =>
      .ite (fun hpage => .ite (fun _ => .pure trivial) fun hperm => ?_) fun _ => hdeliver k 0)
    have hok := h.ipcPageAt hb hcur (live_resolve hcur he) hpage.2 hpage.1 hperm
    refine envPgdir_bind (envPgdir_bind (Survives.bind (.liftPmap hok) fun r k' => ?_))
    cases r with
    | none => exact hdeliver k' perm
    | some code => exact .pure _

end

/-! ## Calls that do not -/

theorem survives_bind_ok {m : KernelM α} {f : α → KernelM β} (h : exec m k = (.ok a, k')) :
    Survives (m >>= f) k ↔ Survives (f a) k' := by
  unfold Survives Triple
  rw [exec_bind_ok h]

theorem Needs.survives {m : PmapM α} {f : α → KernelM β} (h : Needs p m k.pmap) (hf : ∀ a, Survives (f a) k) :
    Survives (Jos.liftPmap m >>= f) k ↔ p := by
  cases hexec : exec m k.pmap with
  | mk r s =>
    cases r with
    | ok a =>
      obtain ⟨rfl, hp⟩ := h.ok hexec
      refine iff_of_true (Triple.bind (.of_ok (exec_liftPmap_ok hexec) (Q := fun _ k' => k = k') rfl) ?_) hp
      rintro a _ rfl
      exact hf a
    | error x =>
      refine iff_of_false (not_survives (exec_bind_error (exec_liftPmap_error hexec)) trivial) (h.error hexec)

section
variable {P : Platform} (h : KernelOk P k) (hb : k.Bounded) (ht : P.TablesIn) (hc : k.curenv c = some cur)
  (hcur : k.Live cur)

include h ht in
theorem KernelOk.tablesIn (hl : k.Live e) : TablesIn k.pmap (k.envs e).pgdir 0 4294967296 := by
  obtain ⟨q, hq, hp⟩ := h.dir hl
  obtain ⟨l, hmem⟩ := h.mem
  intro a pt _ _ hpt
  rw [hp, ← pdeOf_some hq] at hpt
  by_cases ho : Own (pdx (BitVec.ofNat 32 a))
  · exact hmem.pool_lt (hmem.table_pool ho hpt)
  · rw [hmem.shared hq ho (pdx_lt _), Platform.upper] at hpt
    split at hpt
    · have hqlt := hmem.pool_lt (hmem.dir_pool hq)
      rw [BitVec.or_assoc, BitVec.or_comm pteP, ← BitVec.or_assoc,
        entryPage_pack (Nat.lt_of_lt_of_le hqlt k.pmap.layout.npages_le) (by decide)] at hpt
      exact Option.some.inj hpt ▸ hqlt
    · rw [hmem.layout_eq]
      exact ht _ _ ho (pdx_lt _) ‹_› hpt

include h hb ht hc hcur

theorem userMemAssert_iff {f : Unit → KernelM α} :
    Survives (userMemAssert c cur va len perm >>= f) k ↔ (k.Passes cur va len perm → Survives (f ()) k) := by
  have htab : TablesIn k.pmap (k.envs cur).pgdir va.toNat (roundup (va + len) 4096).toNat := fun a pt _ h2 =>
    h.tablesIn ht hcur a pt (Nat.zero_le _) (Nat.lt_trans h2 (BitVec.isLt _))
  obtain ⟨r, s', hexec, hans⟩ :=
    ((userMemCheckLoop_answer k.pmap (k.envs cur).pgdir _ (perm ||| pteU) va).never fun _ _ hx => hx htab).returns
  rcases hans with ⟨rfl, rfl, -⟩ | ⟨rfl, a, -, -, -, -, rfl⟩
  · have hassert : exec (userMemAssert c cur va len perm) k = (.ok (), k) := by
      unfold userMemAssert
      rw [exec_bind_ok (exec_get k)]
      exact exec_bind_ok (exec_liftPmap_ok hexec)
    unfold Survives Triple
    rw [exec_bind_ok hassert]
    exact ⟨fun hs _ => hs, fun hs => hs hexec⟩
  · refine ⟨fun _ hpass => ?_, fun _ => ?_⟩
    · cases (Prod.mk.inj (hpass.symm.trans hexec)).1
    · refine Triple.bind (Q := fun _ _ => False) ?_ fun _ _ hfalse => hfalse.elim
      refine Triple.get_bind (.ok_bind (exec_liftPmap_ok hexec) ?_)
      exact ((envDestroy_self hc _).and (envDestroy_survives h hb hcur _)).mono (fun _ _ hq => hq.1) fun _ _ he => he.2

theorem sysCputs_iff : Survives (sysCputs c cur s len) k ↔ (k.Passes cur s len pteU → s ≠ 0 →
    CharsMapped k.pmap.mem (k.envs cur).pgdir s (charsRead len)) := by
  refine (userMemAssert_iff h hb ht hc hcur).trans (imp_congr_right fun _ => ?_)
  by_cases hs : s = 0
  · rw [if_neg (not_not_intro hs)]
    exact iff_of_true (.pure _) fun hne => absurd hs hne
  · rw [if_pos hs]
    refine (survives_bind_ok (exec_envPgdir cur)).trans ?_
    have hread := (readChars_needs (k.envs cur).pgdir (charsRead len) s).survives (k := k) (f := Pure.pure) Survives.pure
    rw [bind_pure] at hread
    exact hread.trans ⟨fun hm _ => hm, fun hm => hm hs⟩

omit h hb ht hc hcur in
theorem sysEnvSetTrapframe_iff : Survives (sysEnvSetTrapframe cur envid tf) k ↔
    (k.resolve cur envid true).isSome = true ∧ tf ≠ 0 ∧ BytesMapped k.pmap.mem (k.envs cur).pgdir tf 68 := by
  refine (survives_bind_ok exec_envid2env).trans ?_
  cases k.resolve cur envid true with
  | none => exact iff_of_false (not_survives (exec_throw _ k) trivial) (by simp)
  | some e =>
    dsimp only
    by_cases htf : tf = 0
    · rw [if_pos htf]
      exact iff_of_false (not_survives (exec_throw _ k) trivial) (by simp [htf])
    · rw [if_neg htf]
      refine (survives_bind_ok (exec_envPgdir cur)).trans ?_
      refine ((vloadTrapframe_needs (k.envs cur).pgdir tf).survives fun frame => ?_).trans ?_
      · exact Survives.bind (.modifyEnv ..) fun _ _ => .pure _
      · exact ⟨fun hm => ⟨rfl, htf, hm⟩, fun hm => hm.2.2⟩

theorem sysE1000Transmit_iff : Survives (sysE1000Transmit c cur addr length) k ↔ (k.Passes cur addr length pteW →
    length ≤ dataSize ∧ (k.tx.done k.tx.tdt = true → BytesMapped k.pmap.mem (k.envs cur).pgdir addr length.toNat)) := by
  refine (userMemAssert_iff h hb ht hc hcur).trans (imp_congr_right fun _ => ?_)
  refine (survives_bind_ok (exec_get k)).trans ?_
  by_cases hlen : length > dataSize
  · rw [if_pos hlen]
    exact iff_of_false (not_survives (exec_throw _ k) trivial) fun hle => absurd hlen (BitVec.not_lt.mpr hle.1)
  · rw [if_neg hlen]
    refine (survives_bind_ok (exec_get k)).trans ?_
    have hle : length ≤ dataSize := BitVec.not_lt.mp hlen
    cases hdone : k.tx.done k.tx.tdt with
    | false =>
      rw [if_pos rfl]
      exact iff_of_true (.pure _) ⟨hle, fun hd => absurd hd (by simp)⟩
    | true =>
      refine (survives_bind_ok (exec_envPgdir cur)).trans ?_
      have hload := forM_needs (s := k.pmap) (f := fun j => do
          let _ ← vload8 (k.envs cur).pgdir (addr + BitVec.ofNat 32 j))
        (p := fun j => (byteAt k.pmap.mem (k.envs cur).pgdir (addr + BitVec.ofNat 32 j)).isSome = true)
        (fun j => (Needs.bind (vload8_needs ..) fun _ => .pure _).congr (by simp)) (List.range length.toNat)
      refine (hload.survives fun _ => ?_).trans ?_
      · exact Survives.bind (Triple.modify trivial) fun _ _ => .pure _
      · simp [BytesMapped, hle]

omit h hb ht hcur in
theorem sysIpcRecv_iff : Survives (sysIpcRecv c cur dstva) k ↔ (¬ (dstva < utop ∧ dstva % 4096 ≠ 0) → k.ScanStops cur) := by
  unfold sysIpcRecv
  by_cases hva : dstva < utop ∧ dstva % 4096 ≠ 0
  · rw [if_pos hva]
    exact iff_of_true (.pure _) fun hn => absurd hva hn
  · rw [if_neg hva]
    refine (survives_bind_ok (exec_modifyEnv ..)).trans (schedYield_bind.trans ?_)
    refine (schedYield_iff (k := k.setEnv cur _) hc).trans ⟨fun hstops _ hpast => ?_, fun hstops hpast => ?_⟩
    · obtain ⟨e, hlt, hr⟩ := hstops hpast
      rw [setEnv_of_ne (Fin.ne_of_gt hlt)] at hr
      exact ⟨e, hlt, hr⟩
    · obtain ⟨e, hlt, hr⟩ := hstops hva hpast
      refine ⟨e, hlt, ?_⟩
      rw [setEnv_of_ne (Fin.ne_of_gt hlt)]
      exact hr

theorem call_survives_iff (a : Args) : Survives (a.call c cur) k ↔ a.Safe cur k := by
  have hno : ∀ n < 4294967296, a.no.toNat = n → a.no = BitVec.ofNat 32 n := fun n hn h => by
    rw [← h, ofNat_toNat]
  unfold Args.call syscall
  split
  case h_1 hn =>
    refine (survives_bind_iff fun _ _ => .pure _).trans ((sysCputs_iff h hb ht hc hcur).trans ?_)
    exact (Args.Safe.cputs_iff (hno 0 (by decide) hn)).symm
  case h_2 hn => exact iff_of_true (.pure _) (.other (hno 1 (by decide) hn) (by decide))
  case h_3 hn => exact iff_of_true (Triple.get_bind (.pure trivial)) (.other (hno 2 (by decide) hn) (by decide))
  case h_4 hn =>
    exact iff_of_true (survives_int.mpr (sysEnvDestroy_survives h hb hcur)) (.other (hno 3 (by decide) hn) (by decide))
  case h_5 hn =>
    exact iff_of_true (survives_int.mpr (sysPageAlloc_survives h hb hcur)) (.other (hno 4 (by decide) hn) (by decide))
  case h_6 hn =>
    exact iff_of_true (survives_int.mpr (sysPageMap_survives h hb hcur)) (.other (hno 5 (by decide) hn) (by decide))
  case h_7 hn =>
    exact iff_of_true (survives_int.mpr (sysPageUnmap_survives h hb hcur)) (.other (hno 6 (by decide) hn) (by decide))
  case h_8 hn => exact iff_of_true (sysExofork_survives h hb) (.other (hno 7 (by decide) hn) (by decide))
  case h_9 hn =>
    exact iff_of_true (survives_int.mpr sysEnvSetStatus_survives) (.other (hno 8 (by decide) hn) (by decide))
  case h_10 hn =>
    exact survives_int.trans ((sysEnvSetTrapframe_iff).trans (Args.Safe.trapframe_iff (hno 9 (by decide) hn)).symm)
  case h_11 hn =>
    exact iff_of_true (survives_int.mpr sysEnvSetPgfaultUpcall_survives) (.other (hno 10 (by decide) hn) (by decide))
  case h_12 hn =>
    exact schedYield_bind.trans ((schedYield_iff hc).trans (Args.Safe.yield_iff (hno 11 (by decide) hn)).symm)
  case h_13 hn =>
    exact iff_of_true (survives_int.mpr (sysIpcTrySend_survives h hb hcur)) (.other (hno 12 (by decide) hn) (by decide))
  case h_14 hn =>
    exact survives_int.trans ((sysIpcRecv_iff hc).trans (Args.Safe.recv_iff (hno 13 (by decide) hn)).symm)
  case h_15 hn => exact iff_of_true (Triple.get_bind (.pure trivial)) (.other (hno 14 (by decide) hn) (by decide))
  case h_16 hn =>
    exact survives_int.trans ((sysE1000Transmit_iff h hb ht hc hcur).trans
      (Args.Safe.transmit_iff (hno 15 (by decide) hn)).symm)
  case h_17 hn => exact iff_of_true (.pure _) (.other (hno 16 (by decide) hn) (by decide))
  case h_18 h0 _ _ _ _ _ _ _ _ h9 _ h11 _ h13 _ h15 _ =>
    refine iff_of_true (.pure _) (.other rfl ⟨fun hn => h0 ?_, fun hn => h9 ?_, fun hn => h11 ?_, fun hn => h13 ?_,
      fun hn => h15 ?_⟩) <;> rw [hn] <;> rfl

end

theorem Boots.tablesIn {mach : Machine} {P : Platform} (hboot : Boots mach k) (hok : MachineOk P k) : P.TablesIn := by
  obtain ⟨v, b, hs, hinit⟩ := hboot.started
  obtain ⟨-, rfl⟩ := Prod.mk.inj hinit
  obtain ⟨l, hmem⟩ := hok.kernel.mem
  have hlayout : mach.layout = P.layout := hs.views.layout.symm.trans hmem.layout_eq
  have hkq : P.kq = mach.kq := by
    have hpage : P.kq * pgsize = mach.kq * pgsize := by rw [← P.kernPgdir_eq, ← hlayout, hs.views.pgdir]
    exact Nat.eq_of_mul_eq_mul_right (by decide) hpage
  intro d pt _ hd hne hpt
  have hread : P.base.read32 (P.kq * pgsize + 4 * d) = b.pmap.mem.read32 (P.kq * pgsize + 4 * d) :=
    read32_page_congr (fun x hx => (hmem.frozen (by rw [hx]; exact P.kq_kept)).symm) hd
  rw [hread, hkq] at hpt
  have hR := (hs.views.table hne hd hpt).1
  rw [← hlayout]
  exact (hs.views.range hR).2.1

end

end Jos
