import Jos.Kern.Hostile
import Mathlib.Data.Finset.Max

/-!
# The scan of the scheduler (`kern/sched.c`)

`sched_yield` is meant to go once around the table, from the slot behind the
current environment. The pointer is wrapped only after it has passed the last
slot, so between the end of the table and its beginning there is one more slot
to be looked at. This slot is read exactly when no environment behind the
current one is runnable (`sched_scan_iff`).
-/

namespace Jos

open Lib

def Kernel.slotsRead (k : Kernel) : Nat → Nat → List Nat
  | 0, _ => []
  | n + 1, idle =>
    idle :: if k.runnableAt idle then [] else k.slotsRead n (if idle ≥ nenv then 0 else idle + 1)

def stepsTo (start : Nat) (e : EnvPtr) : Nat := (e.1 + nenv - start) % nenv

/-- `e` is the first runnable environment from the scan's start, not counting the current one. -/
structure Kernel.Next (k : Kernel) (c : Nat) (e : EnvPtr) : Prop where
  runnable : (k.envs e).status = .runnable
  other : k.curenv c ≠ some e
  first : ∀ e', (k.envs e').status = .runnable → k.curenv c ≠ some e' →
    stepsTo (k.firstSlot c) e ≤ stepsTo (k.firstSlot c) e'

/-- What `sched_yield` is for. -/
structure ScansTable (k : Kernel) (c : Nat) : Prop where
  reads : ∀ i ∈ k.slotsRead 1024 (k.firstSlot c), i < nenv
  runs : ∀ e, k.Next c e → exec (schedYield c) k = exec (envRun c e) k
  resumes : ∀ cur, (∀ e, ¬ k.Next c e) → k.curenv c = some cur → (k.envs cur).status = .running →
    exec (schedYield c) k = exec (envRun c cur) k
  halts : exec (schedYield c) k = exec (schedHalt c) k →
    (∀ e, (k.envs e).status = .runnable → k.curenv c = some e) ∧
      ∀ cur, k.curenv c = some cur → (k.envs cur).status ≠ .running

section
variable {k : Kernel} {c n idle : Nat}

/-- The scan stops at the first slot it reads that is runnable. -/
theorem schedScan_eq_find : k.schedScan n idle = (k.slotsRead n idle).find? (k.runnableAt ·) := by
  induction n generalizing idle with
  | zero => rfl
  | succ n ih =>
    rw [Kernel.schedScan, Kernel.slotsRead, List.find?_cons]
    cases h : k.runnableAt idle with
    | true => rfl
    | false => exact ih

theorem slotsRead_upto (hle : idle ≤ e) (he : e < nenv) (hr : k.runnableAt e = true) (hi : i ∈ k.slotsRead n idle) :
    i ≤ e := by
  induction n generalizing idle with
  | zero => cases hi
  | succ n ih =>
    rw [Kernel.slotsRead, List.mem_cons] at hi
    rcases hi with rfl | hi
    · exact hle
    · cases h : k.runnableAt idle with
      | true => simp [h] at hi
      | false =>
        have hne : idle ≠ e := by
          rintro rfl
          exact absurd (hr.symm.trans h) (by decide)
        rw [h, if_neg (by decide), if_neg (by omega)] at hi
        exact ih (by omega) hi

theorem slotsRead_lt (hn : idle + n ≤ nenv) (hi : i ∈ k.slotsRead n idle) : i < nenv := by
  induction n generalizing idle with
  | zero => cases hi
  | succ n ih =>
    rw [Kernel.slotsRead, List.mem_cons] at hi
    rcases hi with rfl | hi
    · omega
    · cases h : k.runnableAt idle with
      | true => simp [h] at hi
      | false =>
        rw [h, if_neg (by decide), if_neg (by omega)] at hi
        exact ih (by omega) hi

theorem slotsRead_past (hnone : ∀ i, idle ≤ i → i < nenv → k.runnableAt i = false) (hle : idle ≤ nenv)
    (hn : nenv - idle < n) : nenv ∈ k.slotsRead n idle := by
  induction n generalizing idle with
  | zero => exact absurd hn (Nat.not_lt_zero _)
  | succ n ih =>
    rw [Kernel.slotsRead, List.mem_cons]
    by_cases hlast : nenv = idle
    · exact .inl hlast
    · have hlt : idle < nenv := by omega
      rw [hnone idle (Nat.le_refl _) hlt, if_neg (by decide), if_neg (by omega)]
      exact .inr (ih (fun i hi => hnone i (by omega)) hlt (by omega))

theorem schedScan_first (hle : idle ≤ e) (he : e < nenv) (hr : k.runnableAt e = true)
    (hnone : ∀ i, idle ≤ i → i < e → k.runnableAt i = false) (hn : e < idle + n) : k.schedScan n idle = some e := by
  induction n generalizing idle with
  | zero => omega
  | succ n ih =>
    by_cases hi : idle = e
    · subst hi
      exact schedScan_here hr
    · rw [schedScan_next (hnone idle (Nat.le_refl _) (by omega)) (by omega)]
      exact ih (by omega) (fun i hi => hnone i (by omega)) (by omega)

theorem schedScan_none (hnone : ∀ i, i < nenv → k.runnableAt i = false) (hn : idle + n ≤ nenv) :
    k.schedScan n idle = none := by
  induction n generalizing idle with
  | zero => rfl
  | succ n ih =>
    rw [schedScan_next (hnone idle (by omega)) (by omega)]
    exact ih (by omega)

end

/-! ## The choice -/

section
variable {k : Kernel} {c : Nat} {cur : EnvPtr}

/-- The scan starts at slot 0, or a runnable environment stands behind the current one. -/
def Kernel.StopsInTable (k : Kernel) (c : Nat) : Prop :=
  k.curenv c = none ∨ ∃ cur e, k.curenv c = some cur ∧ cur < e ∧ (k.envs e).status = .runnable

theorem firstSlot_none (h : k.curenv c = none) : k.firstSlot c = 0 := by
  simp [Kernel.firstSlot, h]

theorem firstSlot_some (h : k.curenv c = some cur) : k.firstSlot c = cur.1 + 1 := by
  simp [Kernel.firstSlot, h]

theorem not_runnableAt (hi : i < nenv) (h : (k.envs ⟨i, hi⟩).status ≠ .runnable) : k.runnableAt i = false :=
  Bool.eq_false_of_not_eq_true fun hr => h ((runnableAt_lt hi).mp hr)

section
variable {e : EnvPtr}

theorem stepsTo_of_le (h : start ≤ e.1) : stepsTo start e = e.1 - start := by
  have he : e.1 < nenv := e.2
  unfold stepsTo
  rw [show e.1 + nenv - start = e.1 - start + nenv by omega, Nat.add_mod_right, Nat.mod_eq_of_lt (by omega)]

theorem stepsTo_of_lt (h : e.1 < start) (hs : start ≤ nenv) : stepsTo start e = e.1 + nenv - start :=
  Nat.mod_eq_of_lt (by omega)

theorem Kernel.Next.scan (h : k.Next c e) (hs : k.StopsInTable c) :
    k.firstSlot c ≤ e.1 ∧ k.schedScan 1024 (k.firstSlot c) = some e.1 := by
  have hsize : nenv = 1024 := rfl
  have he : e.1 < nenv := e.2
  have hle : k.firstSlot c ≤ e.1 := by
    rcases hs with hc | ⟨cur, e', hc, hlt, hr⟩
    · rw [firstSlot_none hc]
      exact Nat.zero_le _
    · have hlt' : cur.1 < e'.1 := hlt
      have hcur : cur.1 < nenv := cur.2
      have hmin := h.first e' hr fun heq => by
        obtain rfl := Option.some.inj (hc.symm.trans heq)
        exact Nat.lt_irrefl _ hlt'
      rw [firstSlot_some hc] at hmin ⊢
      by_contra hgt
      rw [stepsTo_of_lt (by omega) hcur, stepsTo_of_le hlt'] at hmin
      have he' : e'.1 < nenv := e'.2
      omega
  refine ⟨hle, schedScan_first hle he ((runnableAt_lt he).mpr h.runnable) (fun i hi hlt => ?_) (by omega)⟩
  refine not_runnableAt (by omega) fun hr => ?_
  have hother : k.curenv c ≠ some ⟨i, by omega⟩ := by
    intro hc
    rw [firstSlot_some hc] at hi
    exact Nat.not_succ_le_self i hi
  have hmin := h.first _ hr hother
  rw [stepsTo_of_le hle, stepsTo_of_le (e := ⟨i, by omega⟩) hi] at hmin
  dsimp only at hmin
  omega

theorem exists_next (hr : (k.envs e).status = .runnable) (hc : k.curenv c ≠ some e) : ∃ e, k.Next c e := by
  classical
  obtain ⟨e', hmem, hmin⟩ := (Finset.univ.filter fun x => (k.envs x).status = .runnable ∧ k.curenv c ≠ some x)
    |>.exists_min_image (stepsTo (k.firstSlot c)) ⟨e, Finset.mem_filter.mpr ⟨Finset.mem_univ _, hr, hc⟩⟩
  obtain ⟨-, hr', hc'⟩ := Finset.mem_filter.mp hmem
  exact ⟨e', hr', hc', fun x hx hx' => hmin x (Finset.mem_filter.mpr ⟨Finset.mem_univ _, hx, hx'⟩)⟩

theorem Kernel.Next.yields (h : k.Next c e) (hs : k.StopsInTable c) : exec (schedYield c) k = exec (envRun c e) k := by
  have hscan := (h.scan hs).2
  have he : e.1 < nenv := e.2
  rw [exec_schedYield, Kernel.yield, hscan, exec_envRun]
  dsimp only
  rw [dif_pos he]

end

theorem envRun_ne_schedHalt (e : EnvPtr) : exec (envRun c e) k ≠ exec (schedHalt c) k := by
  rw [exec_envRun, exec_schedHalt]
  split
  all_goals exact fun h => by cases congrArg Prod.fst h

/-- Nobody else is runnable and the scan stays inside the table: there is no current environment. -/
theorem yield_alone (hs : k.StopsInTable c) (hnone : ∀ e, ¬ k.Next c e) :
    k.curenv c = none ∧ exec (schedYield c) k = exec (schedHalt c) k := by
  have hother : ∀ e, (k.envs e).status = .runnable → k.curenv c = some e := by
    intro e hr
    by_contra hc
    obtain ⟨x, hx⟩ := exists_next hr hc
    exact hnone x hx
  rcases hs with hc | ⟨cur, e, hc, hlt, hr⟩
  · refine ⟨hc, ?_⟩
    have hscan : k.schedScan 1024 0 = none := schedScan_none (fun i hi => not_runnableAt hi fun hr => by
      exact absurd (hc.symm.trans (hother _ hr)) (by simp)) (Nat.le_refl _)
    rw [exec_schedYield, Kernel.yield, firstSlot_none hc, hscan, hc, exec_schedHalt]
    dsimp only
    split <;> rfl
  · obtain rfl := Option.some.inj (hc.symm.trans (hother e hr))
    exact absurd hlt (lt_irrefl _)

/-- In every state of the table, on every CPU: the scan is the circular one exactly if it does not come to
the end of the table. -/
theorem sched_scan_iff (k : Kernel) (c : Nat) : ScansTable k c ↔ k.StopsInTable c := by
  have hsize : nenv = 1024 := rfl
  constructor
  · intro h
    by_contra hs
    cases hc : k.curenv c with
    | none => exact hs (.inl hc)
    | some cur =>
      have hcur : cur.1 < nenv := cur.2
      refine Nat.lt_irrefl nenv (h.reads nenv ?_)
      rw [firstSlot_some hc]
      refine slotsRead_past (fun i hi hlt => not_runnableAt hlt fun hr => hs (.inr ⟨cur, _, hc, hi, hr⟩)) hcur (by omega)
  · intro hs
    refine ⟨fun i hi => ?_, fun e he => he.yields hs, fun cur hnone hc => ?_, fun hhalt => ?_⟩
    · rcases hs with hc | ⟨cur, e, hc, hlt, hr⟩
      · rw [firstSlot_none hc] at hi
        exact slotsRead_lt (Nat.le_of_eq (Nat.zero_add _)) hi
      · rw [firstSlot_some hc] at hi
        exact Nat.lt_of_le_of_lt (slotsRead_upto hlt e.2 ((runnableAt_lt e.2).mpr hr) hi) e.2
    · exact absurd (hc.symm.trans (yield_alone hs hnone).1) (by simp)
    · have hnone : ∀ e, ¬ k.Next c e := fun e he => envRun_ne_schedHalt e ((he.yields hs).symm.trans hhalt)
      obtain ⟨hc, -⟩ := yield_alone hs hnone
      refine ⟨fun e hr => ?_, fun cur hc' => absurd (hc.symm.trans hc') (by simp)⟩
      by_contra hne
      obtain ⟨x, hx⟩ := exists_next hr hne
      exact hnone x hx

end

def Kernel.looksPast (k : Kernel) : Kernel :=
  k.withPmap { k.pmap with
    mem := k.pmap.mem.write32 (k.pmap.layout.envs + nenv * sizeofEnv + offsetStatus) envRunnable }

/-- The first program yields, alone on its machine: slot 1024 is read, and run if memory there says so. -/
theorem scan_leaves_table : ∃ k : Kernel, k.curenv 0 = some slot0 ∧ (∀ e, e ≠ slot0 → (k.envs e).status = .free) ∧
    nenv ∈ k.slotsRead 1024 (k.firstSlot 0) ∧ exec (schedYield 0) k = (.error .wild, k) := by
  obtain ⟨k0, P, k, a, b, -, -, -, h⟩ := pc64_alone (fun _ => 0#8) .user
  have hc : k.looksPast.curenv 0 = some slot0 := h.curenv
  have hfree : ∀ e, e ≠ slot0 → (k.looksPast.envs e).status = .free := fun e he => h.others he
  have hnone : ∀ i, 1 ≤ i → i < nenv → k.looksPast.runnableAt i = false := by
    refine fun i hi hlt => not_runnableAt hlt fun hr => ?_
    have hne : (⟨i, hlt⟩ : EnvPtr) ≠ slot0 := fun he => by
      have hval : i = 0 := congrArg Fin.val he
      omega
    rw [hfree _ hne] at hr
    cases hr
  have hpast : k.looksPast.runnableAt nenv = true := by
    rw [Kernel.runnableAt, dif_neg (Nat.lt_irrefl _)]
    exact decide_eq_true (Mem.read32_write32_self ..)
  have hfirst : k.looksPast.firstSlot 0 = 1 := firstSlot_some hc
  have hscan : k.looksPast.schedScan 1024 1 = some nenv := schedScan_past hnone hpast (by decide) (by decide)
  refine ⟨k.looksPast, hc, hfree, ?_, ?_⟩
  · rw [hfirst]
    exact slotsRead_past hnone (by decide) (by decide)
  · rw [exec_schedYield, Kernel.yield, hfirst, hscan]
    dsimp only
    rw [dif_neg (Nat.lt_irrefl _)]

end Jos
