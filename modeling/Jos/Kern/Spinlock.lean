import Jos.Kern.Env

/-!
# The big kernel lock (`kern/spinlock.c`)

Where each CPU stands, from boot on, with the lock taken and released in the
single loads and stores of `spin_lock` and `spin_unlock`. What the kernel does
to the environments does not matter here: how `sched_yield`, `trap_dispatch`
and the others end is chosen freely. Interrupts are off in the kernel, so a
CPU traps only in user mode and while it is halted.
-/

namespace Jos.Spinlock

structure Spinlock where
  locked : Bool
  cpu : Option Nat

inductive LockPc where
  | locked
  | cpu
  | xchg
  | record
deriving DecidableEq

inductive UnlockPc where
  | locked
  | cpu
  | clear
  | release
deriving DecidableEq

inductive Locker where
  | i386Init
  | mpMain
  | trapHalted (user : Bool)
  | trapUser
deriving DecidableEq

inductive Unlocker where
  | envRun
  | schedHalt
deriving DecidableEq

inductive Panic where
  | alreadyHolding
  | spinUnlock
  | other
deriving DecidableEq

inductive Pc where
  | off
  | i386Init
  | bootAps (c : Nat)
  | bootWait (c : Nat)
  | envCreate
  | mpMain
  | lock (p : LockPc) (l : Locker)
  | unlock (p : UnlockPc) (u : Unlocker)
  | trap (user : Bool)
  | trapStatus (user : Bool)
  | trapMode (user : Bool)
  | trapUser
  | trapDispatch
  | trapReturn
  | schedYield
  | schedHalt
  | envRun
  | envPopTf
  | user
  | hlt
  | stopped
  | monitor
  | panic (p : Panic)
deriving DecidableEq

/-- `owner` is the CPU that has exchanged a 1 for a 0 in the lock and not
exchanged it back. -/
structure State where
  ncpu : Nat
  lock : Spinlock
  status : Nat → CpuStatus
  panicstr : Bool
  pc : Nat → Pc
  owner : Option Nat

/-- How a piece of kernel code ends, where that depends on the environments. -/
inductive Choice where
  | ret
  | schedYield
  | schedHalt
  | envRun
  | monitor
  | panic

def State.goto (s : State) (c : Nat) (p : Pc) : State := { s with pc := Function.update s.pc c p }

def State.setStatus (s : State) (c : Nat) (st : CpuStatus) : State :=
  { s with status := Function.update s.status c st }

def State.panics (s : State) (c : Nat) (p : Panic) : State := State.goto { s with panicstr := true } c (.panic p)

def Locker.ret : Locker → Pc
  | .i386Init => .bootAps 0
  | .mpMain => .schedYield
  | .trapHalted user => .trapMode user
  | .trapUser => .trapUser

def Unlocker.ret : Unlocker → Pc
  | .envRun => .envPopTf
  | .schedHalt => .hlt

def spinLock (s : State) (c : Nat) (l : Locker) : LockPc → State
  | .locked => s.goto c (.lock (if s.lock.locked then .cpu else .xchg) l)
  | .cpu => if s.lock.cpu = some c then s.panics c .alreadyHolding else s.goto c (.lock .xchg l)
  | .xchg =>
    if s.lock.locked then s
    else State.goto { s with lock := { s.lock with locked := true }, owner := some c } c (.lock .record l)
  | .record => State.goto { s with lock := { s.lock with cpu := some c } } c l.ret

def spinUnlock (s : State) (c : Nat) (u : Unlocker) : UnlockPc → State
  | .locked => if s.lock.locked then s.goto c (.unlock .cpu u) else s.panics c .spinUnlock
  | .cpu => if s.lock.cpu = some c then s.goto c (.unlock .clear u) else s.panics c .spinUnlock
  | .clear => State.goto { s with lock := { s.lock with cpu := none } } c (.unlock .release u)
  | .release => State.goto { s with lock := { s.lock with locked := false }, owner := none } c u.ret

def step (s : State) (c : Nat) (ch : Choice) : State :=
  match s.pc c with
  | .off => s
  | .i386Init => s.goto c (.lock .locked .i386Init)
  | .bootAps j =>
    if j < s.ncpu then
      if j = c then s.goto c (.bootAps (j + 1)) else (s.goto c (.bootWait j)).goto j .mpMain
    else s.goto c .envCreate
  | .bootWait j => if s.status j = .started then s.goto c (.bootAps (j + 1)) else s
  | .envCreate =>
    match ch with
    | .panic => s.panics c .other
    | _ => s.goto c .schedYield
  | .mpMain => (s.setStatus c .started).goto c (.lock .locked .mpMain)
  | .lock p l => spinLock s c l p
  | .unlock p u => spinUnlock s c u p
  | .trap user => s.goto c (if s.panicstr then .stopped else .trapStatus user)
  | .trapStatus user =>
    (s.setStatus c .started).goto c
      (if s.status c = .halted then .lock .locked (.trapHalted user) else .trapMode user)
  | .trapMode user => s.goto c (if user then .lock .locked .trapUser else .trapDispatch)
  | .trapUser =>
    match ch with
    | .panic => s.panics c .other
    | .schedYield => s.goto c .schedYield
    | _ => s.goto c .trapDispatch
  | .trapDispatch =>
    match ch with
    | .panic => s.panics c .other
    | .monitor => s.goto c .monitor
    | .schedYield => s.goto c .schedYield
    | .envRun => s.goto c .envRun
    | _ => s.goto c .trapReturn
  | .trapReturn =>
    match ch with
    | .envRun => s.goto c .envRun
    | _ => s.goto c .schedYield
  | .schedYield =>
    match ch with
    | .panic => s.panics c .other
    | .envRun => s.goto c .envRun
    | _ => s.goto c .schedHalt
  | .schedHalt =>
    match ch with
    | .monitor => s.goto c .monitor
    | _ => (s.setStatus c .halted).goto c (.unlock .locked .schedHalt)
  | .envRun =>
    match ch with
    | .panic => s.panics c .other
    | _ => s.goto c (.unlock .locked .envRun)
  | .envPopTf => s.goto c .user
  | .user => s.goto c (.trap true)
  | .hlt => s.goto c (.trap false)
  | .stopped => s
  | .monitor => s
  | .panic _ => s

def Runs (s t : State) : Prop := Relation.ReflTransGen (fun s t => ∃ c ch, step s c ch = t) s t

/-- CPU `boot` is in `i386_init` after `mp_init`, the others have not been started. -/
structure Boots (boot : Nat) (s : State) : Prop where
  lock : s.lock = ⟨false, none⟩
  owner : s.owner = none
  pc : s.pc = Function.update (fun _ => .off) boot .i386Init
  status : s.status boot = .started

/-! ## What a place in the code says about the lock -/

namespace Pc

def holds : Pc → Bool
  | .bootAps _ | .bootWait _ | .envCreate | .lock .record _ | .unlock _ _ | .trapMode false | .trapUser | .trapDispatch
  | .trapReturn | .schedYield | .schedHalt | .envRun | .monitor | .panic .other => true
  | _ => false

/-- The lock holds the number of this CPU. -/
def named : Pc → Bool
  | .lock .record _ | .unlock .release _ => false
  | p => p.holds

/-- Between the return of `lock_kernel` and the call of `unlock_kernel`. -/
def locked : Pc → Bool
  | .lock _ _ | .unlock _ _ => false
  | p => p.holds

def status : Pc → Option CpuStatus
  | .off | .mpMain | .stopped | .monitor | .panic _ => none
  | .trap false | .trapStatus false | .hlt | .unlock _ .schedHalt => some .halted
  | _ => some .started

def sane : Pc → Bool
  | .lock _ (.trapHalted true) | .panic .alreadyHolding | .panic .spinUnlock => false
  | _ => true

/-- From which CPU on none has been started. -/
def firstOff : Pc → Option Nat
  | .i386Init | .lock _ .i386Init => some 0
  | .bootAps j => some j
  | .bootWait j => some (j + 1)
  | _ => none

end Pc

/-- The CPUs are where they can be. -/
structure Places (s : State) : Prop where
  status : ∀ c st, (s.pc c).status = some st → s.status c = st
  sane : ∀ c, (s.pc c).sane = true
  off : ∀ c i, (s.pc c).firstOff = some i → ∀ j, i ≤ j → j ≠ c → s.pc j = .off
  boot : ∀ c d i j, (s.pc c).firstOff = some i → (s.pc d).firstOff = some j → c = d

structure Inv (s : State) : Prop where
  places : Places s
  locked : s.lock.locked = s.owner.isSome
  owner : ∀ c, s.owner = some c ↔ (s.pc c).holds = true
  cpu : ∀ c, s.lock.cpu = some c ↔ (s.pc c).named = true

section
variable {s t : State} {c : Nat} {p q : Pc}

theorem Boots.inv {boot : Nat} (h : Boots boot s) : Inv s := by
  have hpc : ∀ c, s.pc c = if c = boot then .i386Init else .off := by
    intro c
    rw [h.pc, Function.update_apply]
  refine ⟨⟨fun c st hst => ?_, fun c => ?_, fun c i hi j hij hj => ?_, fun c d i j hi hj => ?_⟩, ?_,
    fun c => ?_, fun c => ?_⟩
  · rw [hpc] at hst
    split at hst
    · subst_vars
      exact h.status.trans (Option.some.inj hst)
    · cases hst
  · rw [hpc]
    split <;> rfl
  · rw [hpc] at hi ⊢
    split at hi
    · subst_vars
      exact if_neg hj
    · cases hi
  · rw [hpc] at hi hj
    split at hi
    · split at hj
      · subst_vars
        rfl
      · cases hj
    · cases hi
  · rw [h.lock, h.owner]
    rfl
  · rw [h.owner, hpc]
    split <;> simp [Pc.holds]
  · rw [h.lock, hpc]
    split <;> simp [Pc.named, Pc.holds]

/-- CPU `c` goes from `p` to `q`. -/
structure Goes (s t : State) (c : Nat) (p q : Pc) : Prop where
  before : s.pc c = p
  pc : t.pc = Function.update s.pc c q
  others : ∀ d, d ≠ c → t.status d = s.status d
  status : ∀ st, q.status = some st → t.status c = st
  sane : q.sane = true
  off : ∀ i, q.firstOff = some i → ∃ i' ≤ i, p.firstOff = some i'
  on : p ≠ .off

namespace Goes

variable (hg : Goes s t c p q)

include hg

theorem self : t.pc c = q := by rw [hg.pc, Function.update_self]

theorem other (hd : d ≠ c) : t.pc d = s.pc d := by rw [hg.pc, Function.update_of_ne hd]

theorem firstOff (hi : (t.pc d).firstOff = some i) : ∃ i' ≤ i, (s.pc d).firstOff = some i' := by
  by_cases hd : d = c
  · subst hd
    rw [hg.before]
    exact hg.off i (hg.self ▸ hi)
  · exact ⟨i, Nat.le_refl i, hg.other hd ▸ hi⟩

theorem places (h : Places s) : Places t := by
  refine ⟨fun d st hd => ?_, fun d => ?_, fun d i hi j hij hj => ?_, fun d e i j hi hj => ?_⟩
  · by_cases hdc : d = c
    · subst hdc
      exact hg.status st (hg.self ▸ hd)
    · rw [hg.other hdc] at hd
      exact (hg.others d hdc).trans (h.status d st hd)
  · by_cases hdc : d = c
    · subst hdc
      exact hg.self.symm ▸ hg.sane
    · rw [hg.other hdc]
      exact h.sane d
  · obtain ⟨i', hle, hi'⟩ := hg.firstOff hi
    have hjoff : s.pc j = .off := h.off d i' hi' j (hle.trans hij) hj
    have hjc : j ≠ c := by
      rintro rfl
      exact hg.on (hg.before.symm.trans hjoff)
    rw [hg.other hjc]
    exact hjoff
  · obtain ⟨i', -, hi'⟩ := hg.firstOff hi
    obtain ⟨j', -, hj'⟩ := hg.firstOff hj
    exact h.boot d e i' j' hi' hj'

theorem cpus {X : Nat → Prop} {f : Pc → Bool} (hself : X c ↔ f q = true)
    (hother : ∀ d, d ≠ c → (X d ↔ f (s.pc d) = true)) (d : Nat) : X d ↔ f (t.pc d) = true := by
  by_cases hd : d = c
  · rw [hd, hg.self]
    exact hself
  · rw [hg.other hd]
    exact hother d hd

theorem inv (h : Inv s) (hlock : t.lock = s.lock) (howner : t.owner = s.owner) (hholds : q.holds = p.holds)
    (hnamed : q.named = p.named) : Inv t := by
  refine ⟨hg.places h.places, ?_, hg.cpus ?_ fun d _ => ?_, hg.cpus ?_ fun d _ => ?_⟩
  · rw [hlock, howner]
    exact h.locked
  · rw [howner, hholds, ← hg.before]
    exact h.owner c
  · rw [howner]
    exact h.owner d
  · rw [hlock, hnamed, ← hg.before]
    exact h.cpu c
  · rw [hlock]
    exact h.cpu d

end Goes

section
variable (h : Inv s) (hp : s.pc c = p)
include h hp

theorem Inv.goes (hpc : t.pc = Function.update s.pc c q) (hst : t.status = s.status)
    (hq : q.status = none ∨ q.status = p.status) (hsane : q.sane = true)
    (hoff : ∀ i, q.firstOff = some i → ∃ i' ≤ i, p.firstOff = some i') (hp0 : p ≠ .off) : Goes s t c p q := by
  refine ⟨hp, hpc, fun d _ => congrFun hst d, fun st hq' => ?_, hsane, hoff, hp0⟩
  rcases hq with hnone | hsame
  · rw [hnone] at hq'
    cases hq'
  · rw [hst]
    exact h.places.status c st (hp.symm ▸ hsame ▸ hq')

theorem Inv.goto (hst : q.status = none ∨ q.status = p.status)
    (hholds : q.holds = p.holds) (hnamed : q.named = p.named) (hsane : q.sane = true)
    (hoff : ∀ i, q.firstOff = some i → ∃ i' ≤ i, p.firstOff = some i') (hp0 : p ≠ .off) : Inv (s.goto c q) := by
  have hg : Goes s (s.goto c q) c p q := h.goes hp rfl rfl hst hsane hoff hp0
  exact hg.inv h rfl rfl hholds hnamed

theorem Inv.setStatus (hst : q.status = some st) (hholds : q.holds = p.holds)
    (hnamed : q.named = p.named) (hsane : q.sane = true) (hoff : q.firstOff = none) (hp0 : p ≠ .off) :
    Inv ((s.setStatus c st).goto c q) := by
  have hg : Goes s ((s.setStatus c st).goto c q) c p q := by
    refine ⟨hp, rfl, fun d hd => ?_, fun st' hst' => ?_, hsane, fun i hi => ?_, hp0⟩
    · simp [State.setStatus, State.goto, hd]
    · cases hst.symm.trans hst'
      simp [State.setStatus, State.goto]
    · cases hoff.symm.trans hi
  exact hg.inv h rfl rfl hholds hnamed

theorem Inv.panics (hholds : p.holds = true) (hnamed : p.named = true) : Inv (s.panics c .other) := by
  have hp0 : p ≠ .off := by
    rintro rfl
    cases hholds
  have hg : Goes s (s.panics c .other) c p (.panic .other) := h.goes hp rfl rfl (.inl rfl) rfl nofun hp0
  exact hg.inv h rfl rfl hholds.symm hnamed.symm

end

theorem Pc.holds_of_named (h : p.named = true) : p.holds = true := by
  unfold Pc.named at h
  split at h
  · cases h
  · cases h
  · exact h

theorem Pc.holds_of_locked (h : p.locked = true) : p.holds = true := by
  unfold Pc.locked at h
  split at h
  · cases h
  · cases h
  · exact h

theorem Inv.only (h : Inv s) (hc : (s.pc c).holds = true) (hd : (s.pc d).holds = true) : c = d :=
  Option.some.inj (((h.owner c).2 hc).symm.trans ((h.owner d).2 hd))

theorem Inv.goes_lock {p' q' : LockPc} (h : Inv s) (hp : s.pc c = .lock p' l)
    (hpc : t.pc = Function.update s.pc c (.lock q' l)) (hst : t.status = s.status) :
    Goes s t c (.lock p' l) (.lock q' l) := by
  have hsane := h.places.sane c
  rw [hp] at hsane
  cases l with
  | i386Init => exact h.goes hp hpc hst (.inr rfl) rfl (fun i hi => ⟨i, Nat.le_refl i, hi⟩) nofun
  | mpMain => exact h.goes hp hpc hst (.inr rfl) rfl nofun nofun
  | trapHalted user =>
    cases user with
    | true => cases hsane
    | false => exact h.goes hp hpc hst (.inr rfl) rfl nofun nofun
  | trapUser => exact h.goes hp hpc hst (.inr rfl) rfl nofun nofun

theorem Inv.acquire (h : Inv s) (hp : s.pc c = .lock .xchg l) (hfree : s.lock.locked = false) :
    Inv (State.goto { s with lock := { s.lock with locked := true }, owner := some c } c (.lock .record l)) := by
  generalize ht : State.goto { s with lock := { s.lock with locked := true }, owner := some c } c (.lock .record l) = t
  have hg : Goes s t c (.lock .xchg l) (.lock .record l) := h.goes_lock hp (ht ▸ rfl) (ht ▸ rfl)
  have howner : t.owner = some c := ht ▸ rfl
  have hcpu : t.lock.cpu = s.lock.cpu := ht ▸ rfl
  have hnone : s.owner = none := by
    rw [← Option.not_isSome_iff_eq_none, ← h.locked, hfree]
    simp
  refine ⟨hg.places h.places, ?_, hg.cpus ?_ fun d hd => ?_, hg.cpus ?_ fun d _ => ?_⟩
  · rw [← ht]
    rfl
  · simp [howner, Pc.holds]
  · rw [← h.owner d, hnone, howner]
    simp [Ne.symm hd]
  · rw [hcpu, h.cpu c, hp]
    rfl
  · rw [hcpu]
    exact h.cpu d

theorem Inv.not_named (h : Inv s) (hc : (s.pc c).holds = true) (hd : d ≠ c) : (s.pc d).named ≠ true :=
  fun hn => hd (h.only (Pc.holds_of_named hn) hc)

theorem Locker.ret_named (l : Locker) (hsane : (Pc.lock .record l).sane = true) :
    l.ret.holds = true ∧ l.ret.named = true ∧ l.ret.sane = true ∧ l.ret.status = some .started ∧
      ∀ i, l.ret.firstOff = some i → l = .i386Init := by
  cases l with
  | i386Init => exact ⟨rfl, rfl, rfl, rfl, fun _ _ => rfl⟩
  | mpMain => exact ⟨rfl, rfl, rfl, rfl, nofun⟩
  | trapHalted user =>
    cases user with
    | true => cases hsane
    | false => exact ⟨rfl, rfl, rfl, rfl, nofun⟩
  | trapUser => exact ⟨rfl, rfl, rfl, rfl, nofun⟩

theorem Inv.record (h : Inv s) (hp : s.pc c = .lock .record l) :
    Inv (State.goto { s with lock := { s.lock with cpu := some c } } c l.ret) := by
  generalize ht : State.goto { s with lock := { s.lock with cpu := some c } } c l.ret = t
  have hsane := h.places.sane c
  rw [hp] at hsane
  obtain ⟨hholds, hnamed, hsane', hstatus, hoff⟩ := l.ret_named hsane
  have hself : (s.pc c).holds = true := by rw [hp]; rfl
  have hg : Goes s t c (.lock .record l) l.ret := by
    refine h.goes hp (ht ▸ rfl) (ht ▸ rfl) (.inr hstatus) hsane' (fun i hi => ?_) nofun
    obtain rfl := hoff i hi
    exact ⟨0, Nat.zero_le i, rfl⟩
  have howner : t.owner = s.owner := ht ▸ rfl
  have hcpu : t.lock.cpu = some c := ht ▸ rfl
  refine ⟨hg.places h.places, ?_, hg.cpus ?_ fun d _ => ?_, hg.cpus ?_ fun d hd => ?_⟩
  · rw [← ht]
    exact h.locked
  · rw [howner, h.owner c, hself, hholds]
  · rw [howner]
    exact h.owner d
  · simp [hcpu, hnamed]
  · simp [hcpu, Ne.symm hd, h.not_named hself hd]

theorem Inv.clear (h : Inv s) (hp : s.pc c = .unlock .clear u) :
    Inv (State.goto { s with lock := { s.lock with cpu := none } } c (.unlock .release u)) := by
  generalize ht : State.goto { s with lock := { s.lock with cpu := none } } c (.unlock .release u) = t
  have hself : (s.pc c).holds = true := by rw [hp]; rfl
  have hg : Goes s t c (.unlock .clear u) (.unlock .release u) :=
    h.goes hp (ht ▸ rfl) (ht ▸ rfl) (.inr (by cases u <;> rfl)) rfl nofun nofun
  have howner : t.owner = s.owner := ht ▸ rfl
  have hcpu : t.lock.cpu = none := ht ▸ rfl
  refine ⟨hg.places h.places, ?_, hg.cpus ?_ fun d _ => ?_, hg.cpus ?_ fun d hd => ?_⟩
  · rw [← ht]
    exact h.locked
  · rw [howner, h.owner c, hself]
    rfl
  · rw [howner]
    exact h.owner d
  · simp [hcpu, Pc.named]
  · simp [hcpu, h.not_named hself hd]

theorem Inv.release (h : Inv s) (hp : s.pc c = .unlock .release u) :
    Inv (State.goto { s with lock := { s.lock with locked := false }, owner := none } c u.ret) := by
  generalize ht : State.goto { s with lock := { s.lock with locked := false }, owner := none } c u.ret = t
  have hself : (s.pc c).holds = true := by rw [hp]; rfl
  have hret : u.ret.holds = false ∧ u.ret.named = false := by cases u <;> exact ⟨rfl, rfl⟩
  have hg : Goes s t c (.unlock .release u) u.ret := by
    cases u with
    | envRun => exact h.goes hp (ht ▸ rfl) (ht ▸ rfl) (.inr rfl) rfl nofun nofun
    | schedHalt => exact h.goes hp (ht ▸ rfl) (ht ▸ rfl) (.inr rfl) rfl nofun nofun
  have howner : t.owner = none := ht ▸ rfl
  have hcpu : t.lock.cpu = s.lock.cpu := ht ▸ rfl
  refine ⟨hg.places h.places, ?_, hg.cpus ?_ fun d hd => ?_, hg.cpus ?_ fun d _ => ?_⟩
  · rw [← ht]
    rfl
  · simp [howner, hret.1]
  · have hno : (s.pc d).holds ≠ true := fun hh => hd (h.only hh hself)
    simp [howner, hno]
  · rw [hcpu, h.cpu c, hret.2, hp]
    rfl
  · rw [hcpu]
    exact h.cpu d

theorem Inv.spinLock {p : LockPc} (h : Inv s) (hp : s.pc c = .lock p l) : Inv (Spinlock.spinLock s c l p) := by
  have hstay : ∀ q : LockPc, p ≠ .record → q ≠ .record → Inv (s.goto c (.lock q l)) := by
    intro q hp' hq
    have hg : Goes s (s.goto c (.lock q l)) c (.lock p l) (.lock q l) := h.goes_lock hp rfl rfl
    refine hg.inv h rfl rfl ?_ ?_ <;> cases p <;> cases q <;> simp_all [Pc.holds, Pc.named]
  cases p with
  | locked =>
    dsimp only [Spinlock.spinLock]
    split
    · exact hstay _ nofun nofun
    · exact hstay _ nofun nofun
  | cpu =>
    dsimp only [Spinlock.spinLock]
    split
    · rename_i hcpu
      have := (h.cpu c).1 hcpu
      rw [hp] at this
      cases this
    · exact hstay _ nofun nofun
  | xchg =>
    dsimp only [Spinlock.spinLock]
    split
    · exact h
    · rename_i hlocked
      exact h.acquire hp (Bool.eq_false_of_not_eq_true hlocked)
  | record => exact h.record hp

theorem Inv.spinUnlock {p : UnlockPc} (h : Inv s) (hp : s.pc c = .unlock p u) : Inv (Spinlock.spinUnlock s c u p) := by
  have howner : s.owner = some c := (h.owner c).2 (by rw [hp]; rfl)
  cases p with
  | locked =>
    have hlocked : s.lock.locked = true := by rw [h.locked, howner]; rfl
    rw [Spinlock.spinUnlock, if_pos hlocked]
    exact h.goto hp (.inr (by cases u <;> rfl)) rfl rfl rfl nofun nofun
  | cpu =>
    have hcpu : s.lock.cpu = some c := (h.cpu c).2 (by rw [hp]; rfl)
    rw [Spinlock.spinUnlock, if_pos hcpu]
    exact h.goto hp (.inr (by cases u <;> rfl)) rfl rfl rfl nofun nofun
  | clear => exact h.clear hp
  | release => exact h.release hp

theorem Inv.startap (h : Inv s) (hp : s.pc c = .bootAps j) (hj : j ≠ c) :
    Inv ((s.goto c (.bootWait j)).goto j .mpMain) := by
  have hoff : s.pc j = .off := h.places.off c j (by rw [hp]; rfl) j (Nat.le_refl j) hj
  have hw : Inv (s.goto c (.bootWait j)) :=
    h.goto hp (.inr rfl) rfl rfl rfl (fun i hi => ⟨j, by cases hi; omega, rfl⟩) nofun
  have hoff' : (s.goto c (.bootWait j)).pc j = .off := by simpa [State.goto, hj] using hoff
  have hpc : ∀ d, ((s.goto c (.bootWait j)).goto j .mpMain).pc d =
      if d = j then .mpMain else (s.goto c (.bootWait j)).pc d := fun d => by
    simp [State.goto, Function.update_apply]
  have hfirst : ∀ d i, (((s.goto c (.bootWait j)).goto j .mpMain).pc d).firstOff = some i →
      ((s.goto c (.bootWait j)).pc d).firstOff = some i := fun d i hi => by
    rw [hpc] at hi
    split at hi
    · cases hi
    · exact hi
  have hself : (s.goto c (.bootWait j)).pc c = .bootWait j := by simp [State.goto]
  refine ⟨⟨fun d st hd => ?_, fun d => ?_, fun d i hi k hk hkd => ?_, fun d e i k hi hk => ?_⟩, hw.locked,
    fun d => ?_, fun d => ?_⟩
  · rw [hpc] at hd
    split at hd
    · cases hd
    · exact hw.places.status d st hd
  · rw [hpc]
    split
    · rfl
    · exact hw.places.sane d
  · -- only the boot CPU starts others, and it has got to `j`
    have hi' := hfirst d i hi
    obtain rfl : d = c := hw.places.boot d c i (j + 1) hi' (by rw [hself]; rfl)
    rw [hself] at hi'
    cases hi'
    rw [hpc, if_neg (by omega)]
    exact hw.places.off d (j + 1) (by rw [hself]; rfl) k hk hkd
  · exact hw.places.boot d e i k (hfirst d i hi) (hfirst e k hk)
  · refine (hw.owner d).trans ?_
    rw [hpc]
    split
    · subst_vars
      rw [hoff']
      simp [Pc.holds]
    · rfl
  · refine (hw.cpu d).trans ?_
    rw [hpc]
    split
    · subst_vars
      rw [hoff']
      simp [Pc.holds, Pc.named]
    · rfl

theorem Inv.step (h : Inv s) (c : Nat) (ch : Choice) : Inv (Spinlock.step s c ch) := by
  unfold Spinlock.step
  split
  case h_1 => exact h
  case h_2 hp => exact h.goto hp (.inr rfl) rfl rfl rfl (fun i hi => ⟨i, Nat.le_refl i, hi⟩) nofun
  case h_3 j hp =>
    split
    · split
      · exact h.goto hp (.inr rfl) rfl rfl rfl (fun i hi => ⟨j, by cases hi; omega, rfl⟩) nofun
      · exact h.startap hp ‹_›
    · exact h.goto hp (.inr rfl) rfl rfl rfl nofun nofun
  case h_4 j hp =>
    split
    · exact h.goto hp (.inr rfl) rfl rfl rfl (fun i hi => ⟨_, by cases hi; omega, rfl⟩) nofun
    · exact h
  case h_5 hp =>
    split
    · exact h.panics hp rfl rfl
    · exact h.goto hp (.inr rfl) rfl rfl rfl nofun nofun
  case h_6 hp => exact h.setStatus hp rfl rfl rfl rfl rfl nofun
  case h_7 hp => exact h.spinLock hp
  case h_8 hp => exact h.spinUnlock hp
  case h_9 user hp =>
    split
    · exact h.goto hp (.inl rfl) rfl rfl rfl nofun nofun
    · exact h.goto hp (.inr (by cases user <;> rfl)) rfl rfl rfl nofun nofun
  case h_10 user hp =>
    -- a CPU that was halted traps from the kernel, any other from user mode
    cases user with
    | true =>
      have hst : s.status c = .started := h.places.status c .started (by rw [hp]; rfl)
      rw [if_neg (by rw [hst]; nofun)]
      exact h.setStatus hp rfl rfl rfl rfl rfl nofun
    | false =>
      have hst : s.status c = .halted := h.places.status c .halted (by rw [hp]; rfl)
      rw [if_pos hst]
      exact h.setStatus hp rfl rfl rfl rfl rfl nofun
  case h_11 user hp =>
    cases user with
    | true => exact h.goto hp (.inr rfl) rfl rfl rfl nofun nofun
    | false => exact h.goto hp (.inr rfl) rfl rfl rfl nofun nofun
  case h_12 hp =>
    split
    · exact h.panics hp rfl rfl
    · exact h.goto hp (.inr rfl) rfl rfl rfl nofun nofun
    · exact h.goto hp (.inr rfl) rfl rfl rfl nofun nofun
  case h_13 hp =>
    split
    · exact h.panics hp rfl rfl
    · exact h.goto hp (.inl rfl) rfl rfl rfl nofun nofun
    · exact h.goto hp (.inr rfl) rfl rfl rfl nofun nofun
    · exact h.goto hp (.inr rfl) rfl rfl rfl nofun nofun
    · exact h.goto hp (.inr rfl) rfl rfl rfl nofun nofun
  case h_14 hp =>
    split
    · exact h.goto hp (.inr rfl) rfl rfl rfl nofun nofun
    · exact h.goto hp (.inr rfl) rfl rfl rfl nofun nofun
  case h_15 hp =>
    split
    · exact h.panics hp rfl rfl
    · exact h.goto hp (.inr rfl) rfl rfl rfl nofun nofun
    · exact h.goto hp (.inr rfl) rfl rfl rfl nofun nofun
  case h_16 hp =>
    split
    · exact h.goto hp (.inl rfl) rfl rfl rfl nofun nofun
    · exact h.setStatus hp rfl rfl rfl rfl rfl nofun
  case h_17 hp =>
    split
    · exact h.panics hp rfl rfl
    · exact h.goto hp (.inr rfl) rfl rfl rfl nofun nofun
  case h_18 hp => exact h.goto hp (.inr rfl) rfl rfl rfl nofun nofun
  case h_19 hp => exact h.goto hp (.inr rfl) rfl rfl rfl nofun nofun
  case h_20 hp => exact h.goto hp (.inr rfl) rfl rfl rfl nofun nofun
  case h_21 => exact h
  case h_22 => exact h
  case h_23 => exact h

theorem Inv.runs (h : Inv s) (hr : Runs s t) : Inv t := by
  induction hr with
  | refl => exact h
  | tail _ hstep ih =>
    obtain ⟨c, ch, rfl⟩ := hstep
    exact ih.step c ch

end

/-- One CPU at a time is between `lock_kernel` and `unlock_kernel`, the two are
called only by a CPU that is without the lock, or has it, and a CPU that
dispatches a trap or schedules has it. -/
theorem kernel_lock_safe (hs : Boots boot s) (hr : Runs s t) :
    (∀ c, (t.pc c).locked = true → t.owner = some c) ∧
      (∀ c d, (t.pc c).locked = true → (t.pc d).locked = true → c = d) ∧
      (∀ c l, t.pc c = .lock .locked l → t.owner ≠ some c) ∧
      (∀ c u, t.pc c = .unlock .locked u → t.owner = some c) ∧
      (∀ c, t.pc c ≠ .panic .alreadyHolding ∧ t.pc c ≠ .panic .spinUnlock) ∧
      ∀ c, t.pc c = .trapDispatch ∨ t.pc c = .schedYield → t.owner = some c := by
  have h := hs.inv.runs hr
  have hlocked : ∀ c, (t.pc c).locked = true → (t.pc c).holds = true := fun c hc => Pc.holds_of_locked hc
  refine ⟨fun c hc => (h.owner c).2 (hlocked c hc), fun c d hc hd => h.only (hlocked c hc) (hlocked d hd),
    fun c l hc ho => ?_, fun c u hc => ?_, fun c => ⟨fun hc => ?_, fun hc => ?_⟩, fun c hc => ?_⟩
  · have := (h.owner c).1 ho
    rw [hc] at this
    cases this
  · refine (h.owner c).2 ?_
    rw [hc]
    rfl
  · have := h.places.sane c
    rw [hc] at this
    cases this
  · have := h.places.sane c
    rw [hc] at this
    cases this
  · refine (h.owner c).2 ?_
    rcases hc with hc | hc
    · rw [hc]
      rfl
    · rw [hc]
      rfl

def booting : State :=
  { ncpu := 2
    lock := ⟨false, none⟩
    status := fun c => if c = 0 then .started else .unused
    panicstr := false
    pc := Function.update (fun _ => .off) 0 .i386Init
    owner := none }

def runSteps (s : State) (cs : List (Nat × Choice)) : State := cs.foldl (fun s a => step s a.1 a.2) s

theorem runs_steps (s : State) (cs : List (Nat × Choice)) : Runs s (runSteps s cs) := by
  induction cs generalizing s with
  | nil => exact .refl
  | cons a cs ih => exact .head ⟨a.1, a.2, rfl⟩ (ih _)

/-- CPU 0 starts CPU 1 and runs an environment, CPU 1 gets the lock, and the
environment traps. -/
def exchanged : List (Nat × Choice) :=
  [0, 0, 0, 0, 0, 0, 1, 1, 1, 0, 0, 0].map (·, .ret) ++
    (0, .envRun) :: [0, 1, 0, 0, 0, 0, 1, 1, 0, 0, 0, 0, 0].map (·, .ret)

theorem kernel_lock_safe_two :
    (runSteps booting exchanged).pc 0 = .lock .locked .trapUser ∧ (runSteps booting exchanged).owner ≠ some 0 ∧
      (runSteps booting exchanged).pc 1 = .schedYield ∧ (runSteps booting exchanged).owner = some 1 := by
  have hs : Boots 0 booting := ⟨rfl, rfl, rfl, rfl⟩
  obtain ⟨-, -, hlock, -, -, hsched⟩ := kernel_lock_safe hs (runs_steps booting exchanged)
  exact ⟨rfl, hlock 0 .trapUser rfl, rfl, hsched 1 (.inr rfl)⟩

end Jos.Spinlock
