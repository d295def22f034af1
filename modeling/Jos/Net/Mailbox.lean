import Jos.Kern.Mmu
import Jos.Lib.Ring

/-!
# Mailboxes of the lwIP port (`net/lwip/jos/arch/sys_arch.c`, `arch/thread.c`)

One mailbox with its two semaphores, used by any number of cooperative
threads. A thread runs until it calls `thread_yield` in `thread_wait`, so
everything a call does after it has got its semaphore is one step. The time
moves at any point: `sys_time_msec` is a count of the kernel's ticks, and the
kernel panics before the count wraps.
-/

namespace Jos.Mailbox

open Lib

def mboxslots : Nat := 32
def sysArchTimeout : Word := 0xFFFFFFFF#32
def sysArchNowait : Word := 0xFFFFFFFE#32

/-- The halves of `v` in `struct sys_sem_entry`. -/
structure Sem where
  counter : BitVec 16
  waiters : BitVec 16

def Sem.v (e : Sem) : Word := e.waiters ++ e.counter

structure Mbox where
  head : Int
  nextq : Nat
  msg : Nat → Word
  queuedMsg : Sem
  freeMsg : Sem

inductive SemId where
  | queued
  | free
deriving DecidableEq

def Mbox.sem (b : Mbox) : SemId → Sem
  | .queued => b.queuedMsg
  | .free => b.freeMsg

def Mbox.setSem (b : Mbox) (e : Sem) : SemId → Mbox
  | .queued => { b with queuedMsg := e }
  | .free => { b with freeMsg := e }

def Mbox.put (b : Mbox) (m : Word) : Mbox :=
  let slot := b.nextq
  { b with
    nextq := (slot + 1) % mboxslots
    msg := Function.update b.msg slot m
    head := if b.head = -1 then slot else b.head }

def Mbox.drop (b : Mbox) : Mbox :=
  let next := (b.head + 1) % mboxslots
  { b with head := if next = b.nextq then -1 else next }

/-- `sys_sem_new` on an entry of the table, whose `waiters` it leaves alone. -/
def sysSemNew (count : Nat) (old : Sem) : Sem := { old with counter := BitVec.ofNat 16 count }

def sysMboxNew (old : Mbox) : Mbox where
  head := -1
  nextq := 0
  msg := old.msg
  queuedMsg := sysSemNew 0 old.queuedMsg
  freeMsg := sysSemNew mboxslots old.freeMsg

/-! ## Threads -/

inductive Call where
  | trypost (m : Word)
  | fetch (tm : Word)

def Call.sem : Call → SemId
  | .trypost _ => .free
  | .fetch _ => .queued

def sysArchMboxTryfetch : Call := .fetch sysArchNowait

def Call.tmMsec : Call → Word
  | .trypost _ => 0
  | .fetch tm => tm

/-- Where a thread stands. In a call it is at the top of the loop of
`sys_arch_sem_wait`, at the start of `thread_wait`, at the test of the loop
there, in `thread_yield`, or back from `thread_wait`. -/
inductive Thread where
  | away
  | loop (c : Call) (waited : Word)
  | enter (c : Call) (waited a msec val : Word)
  | test (c : Call) (waited a msec val s p : Word)
  | yield (c : Call) (waited a msec val s : Word)
  | back (c : Call) (waited a : Word)

inductive Event where
  | posted (m : Word)
  | errMem
  | fetched (m : Word)
  | timeout
deriving DecidableEq

structure State where
  ticks : Word
  mbox : Mbox
  cur : Nat
  thread : Nat → Thread
  waitAddr : Nat → Option SemId
  wakeup : Nat → Bool
  log : List Event

inductive Panic where
  | noMessage
  | timeOverflowed

namespace State

def msec (s : State) : Word := s.ticks * 10

def goto (s : State) (p : Thread) : State := { s with thread := Function.update s.thread s.cur p }

def event (s : State) (e : Event) : State := { s with log := s.log ++ [e] }

/-- The running thread is not in the queue of threads. -/
def threadWakeup (s : State) (id : SemId) : State :=
  { s with wakeup := fun i => s.wakeup i || (decide (i ≠ s.cur) && decide (s.waitAddr i = some id)) }

def sysSemSignal (s : State) (id : SemId) : State :=
  let e := s.mbox.sem id
  if e.waiters ≠ 0 then
    { s with mbox := s.mbox.setSem ⟨e.counter + 1, 0⟩ id }.threadWakeup id
  else
    { s with mbox := s.mbox.setSem ⟨e.counter + 1, e.waiters⟩ id }

/-- The rest of `sys_mbox_trypost` after its wait. -/
def sysMboxTrypost (s : State) (m : Word) : State :=
  if (s.mbox.nextq : Int) = s.mbox.head then
    s.event .errMem
  else
    (sysSemSignal { s with mbox := s.mbox.put m } .queued).event (.posted m)

/-- The rest of `sys_arch_mbox_fetch` after its wait, which returned `waited`. -/
def sysArchMboxFetch (s : State) (waited : Word) : Except Panic State :=
  if waited = sysArchTimeout then
    .ok (s.event .timeout)
  else
    let slot := s.mbox.head
    if slot = -1 then
      .error .noMessage
    else
      .ok ((sysSemSignal { s with mbox := s.mbox.drop } .free).event (.fetched (s.mbox.msg slot.toNat)))

/-- `sys_arch_sem_wait` returns `waited`, and the call goes on to its end. -/
def finish (s : State) (c : Call) (waited : Word) : Except Panic State :=
  let s := s.goto .away
  match c with
  | .trypost m => .ok (s.sysMboxTrypost m)
  | .fetch _ => s.sysArchMboxFetch waited

/-- One round of the loop of `sys_arch_sem_wait` up to `thread_wait`. -/
def sysArchSemWait (s : State) (c : Call) (waited : Word) : Except Panic State :=
  let e := s.mbox.sem c.sem
  if c.tmMsec = 0 ∨ waited < c.tmMsec then
    if 0 < e.counter then
      finish { s with mbox := s.mbox.setSem ⟨e.counter - 1, e.waiters⟩ c.sem } c waited
    else if c.tmMsec = sysArchNowait then
      s.finish c sysArchTimeout
    else
      let a := s.msec
      let sleepUntil := if c.tmMsec ≠ 0 then a + (c.tmMsec - waited) else ~~~0
      let e : Sem := ⟨e.counter, 1⟩
      .ok (goto { s with mbox := s.mbox.setSem e c.sem } (.enter c waited a sleepUntil e.v))
  else
    s.finish c sysArchTimeout

end State

inductive Act where
  | tick
  | call (c : Call)
  | go
  | switch (i : Nat)

def State.go (s : State) : Except Panic State :=
  match s.thread s.cur with
  | .away => .ok s
  | .loop c waited => s.sysArchSemWait c waited
  | .enter c waited a msec val =>
    .ok (State.goto { s with
      waitAddr := Function.update s.waitAddr s.cur (some c.sem)
      wakeup := Function.update s.wakeup s.cur false } (.test c waited a msec val s.msec s.msec))
  | .test c waited a msec val start p =>
    if p < msec ∧ ¬ p < start ∧ (s.mbox.sem c.sem).v = val ∧ s.wakeup s.cur = false then
      .ok (s.goto (.yield c waited a msec val start))
    else
      .ok (State.goto { s with
        waitAddr := Function.update s.waitAddr s.cur none
        wakeup := Function.update s.wakeup s.cur false } (.back c waited a))
  | .yield c waited a msec val start => .ok (s.goto (.test c waited a msec val start s.msec))
  | .back c waited a => .ok (s.goto (.loop c (waited + (s.msec - a))))

/-- A thread outside the mailbox may be in `thread_wait` for something else. -/
def State.mayYield (s : State) : Bool :=
  match s.thread s.cur with
  | .away => true
  | .yield .. => true
  | _ => false

def timeTick (ticks : Word) : Except Panic Word :=
  if (ticks + 1) * 10 < ticks + 1 then .error .timeOverflowed else .ok (ticks + 1)

/-- What cannot happen in a state leaves it as it is. -/
def step (s : State) : Act → Except Panic State
  | .tick => (timeTick s.ticks).map fun t => { s with ticks := t }
  | .call c =>
    match s.thread s.cur with
    | .away => .ok (s.goto (.loop c 0))
    | _ => .ok s
  | .go => s.go
  | .switch i => if s.mayYield then .ok { s with cur := i } else .ok s

def Runs (s t : State) : Prop := Relation.ReflTransGen (fun s t => ∃ a, step s a = .ok t) s t

/-- A mailbox that has just been made. -/
structure Fresh (s : State) : Prop where
  mbox : ∃ old, s.mbox = sysMboxNew old
  away : ∀ i, s.thread i = .away
  log : s.log = []
  clock : s.ticks.toNat * 10 < 2 ^ 32

/-! ## What the mailbox holds -/

def posted (log : List Event) : List Word := log.filterMap fun e => match e with | .posted m => some m | _ => none

def fetched (log : List Event) : List Word := log.filterMap fun e => match e with | .fetched m => some m | _ => none

namespace Mbox

def count (b : Mbox) : Nat :=
  if b.head = -1 then 0 else (b.nextq + (mboxslots - 1) - b.head.toNat) % mboxslots + 1

def contents (b : Mbox) : List Word := (List.range b.count).map fun i => b.msg ((b.head.toNat + i) % mboxslots)

end Mbox

/-- The ring holds what has been posted and not fetched, and the semaphores count it. -/
structure Queue (b : Mbox) (p f : List Word) : Prop where
  before : f <+: p
  room : p.length ≤ f.length + mboxslots
  nextq : b.nextq = p.length % mboxslots
  head : b.head = if f.length = p.length then -1 else ((f.length % mboxslots : Nat) : Int)
  slots : Carries mboxslots b.msg p f.length p.length
  queued : b.queuedMsg.counter.toNat = p.length - f.length
  free : b.freeMsg.counter.toNat + p.length = f.length + mboxslots

namespace Queue

variable {b b' : Mbox} {p f : List Word} {m : Word}

theorem empty (old : Mbox) : Queue (sysMboxNew old) [] [] where
  before := List.prefix_rfl
  room := by decide
  nextq := rfl
  head := rfl
  slots := .empty
  queued := rfl
  free := rfl

section
variable (h : Queue b p f)
include h

theorem setWaiters (w : BitVec 16) (id : SemId) : Queue (b.setSem ⟨(b.sem id).counter, w⟩ id) p f := by
  cases id with
  | queued => exact ⟨h.before, h.room, h.nextq, h.head, h.slots, h.queued, h.free⟩
  | free => exact ⟨h.before, h.room, h.nextq, h.head, h.slots, h.queued, h.free⟩

theorem length_le : f.length ≤ p.length := h.before.length_le

theorem nextq_ne_head (hfree : 0 < b.freeMsg.counter) : (b.nextq : Int) ≠ b.head := by
  rw [BitVec.lt_def] at hfree
  have hcount := h.free
  have hle := h.length_le
  rw [h.head, h.nextq]
  split
  · omega
  · intro heq
    exact mod_ne_of_window (i := f.length) (j := p.length) (n := mboxslots) (by omega) (by simp at hfree; omega) (by omega)

theorem push (hfree : 0 < b.freeMsg.counter) (hnextq : b'.nextq = (b.nextq + 1) % mboxslots)
    (hmsg : b'.msg = Function.update b.msg b.nextq m) (hhead : b'.head = if b.head = -1 then (b.nextq : Int) else b.head)
    (hq : b'.queuedMsg.counter = b.queuedMsg.counter + 1) (hf : b'.freeMsg.counter = b.freeMsg.counter - 1) :
    Queue b' (p ++ [m]) f := by
  rw [BitVec.lt_def] at hfree
  have hcount := h.free
  have hqueued := h.queued
  have hle := h.length_le
  have hroom : p.length < f.length + mboxslots := by
    simp at hfree
    omega
  have hlen : (p ++ [m]).length = p.length + 1 := by simp
  refine ⟨h.before.trans (List.prefix_append ..), ?_, ?_, ?_, ?_, ?_, ?_⟩
  · omega
  · rw [hnextq, h.nextq, hlen]
    unfold mboxslots
    omega
  · rw [hhead, h.head, h.nextq, hlen, if_neg (show ¬ f.length = p.length + 1 by omega)]
    by_cases hempty : f.length = p.length
    · rw [if_pos hempty, if_pos rfl, hempty]
    · rw [if_neg hempty, if_neg (by omega)]
  · rw [hlen, hmsg]
    refine (h.slots.congr hroom fun k hk => ?_).push rfl ?_
    · rw [h.nextq]
      exact Function.update_of_ne hk ..
    · rw [h.nextq, Function.update_self]
  · rw [hq, hlen, BitVec.toNat_add, hqueued]
    unfold mboxslots at *
    simp
    omega
  · rw [hf, hlen, BitVec.toNat_sub]
    unfold mboxslots at *
    simp
    omega

theorem pop (hq0 : 0 < b.queuedMsg.counter) (hnextq : b'.nextq = b.nextq) (hmsg : b'.msg = b.msg)
    (hhead : b'.head = if (b.head + 1) % mboxslots = b.nextq then -1 else (b.head + 1) % mboxslots)
    (hq : b'.queuedMsg.counter = b.queuedMsg.counter - 1) (hf : b'.freeMsg.counter = b.freeMsg.counter + 1) :
    b.head ≠ -1 ∧ Queue b' p (f ++ [b.msg b.head.toNat]) := by
  rw [BitVec.lt_def] at hq0
  have hcount := h.free
  have hqueued := h.queued
  have hle := h.length_le
  have hlt : f.length < p.length := by
    simp at hq0
    omega
  have hhead' := h.head
  rw [if_neg (by omega)] at hhead'
  have hlen : (f ++ [b.msg b.head.toNat]).length = f.length + 1 := by simp
  have hnext := h.slots.head hlt
  refine ⟨by omega, ?_, ?_, ?_, ?_, ?_, ?_, ?_⟩
  · refine prefix_snoc h.before ?_
    rw [hnext, hhead', Int.toNat_natCast]
  · omega
  · rw [hnextq, h.nextq]
  · have hstep : (b.head + 1) % mboxslots = ((f.length + 1) % mboxslots : Nat) := by
      rw [hhead']
      unfold mboxslots
      omega
    rw [hhead, hstep, h.nextq, hlen]
    by_cases hlast : f.length + 1 = p.length
    · rw [if_pos (by rw [hlast]), if_pos hlast]
    · have hne : (f.length + 1) % mboxslots ≠ p.length % mboxslots :=
        mod_ne_of_window (by omega) (by have hroom := h.room; omega)
      rw [if_neg (by omega), if_neg hlast]
  · rw [hlen, hmsg]
    exact h.slots.pop
  · rw [hq, hlen, BitVec.toNat_sub, hqueued]
    have hroom := h.room
    unfold mboxslots at *
    simp
    omega
  · rw [hf, hlen, BitVec.toNat_add]
    unfold mboxslots at *
    simp
    omega

end

end Queue

/-! ## What a step keeps -/

/-- What a thread has waited fits in the time that has passed. -/
def Thread.Timely (now : Word) : Thread → Prop
  | .away => True
  | .loop _ waited => waited ≤ now
  | .enter _ waited a _ _ | .test _ waited a .. | .yield _ waited a .. | .back _ waited a => waited ≤ a ∧ a ≤ now

structure Inv (s : State) : Prop where
  clock : s.ticks.toNat * 10 < 2 ^ 32
  queue : Queue s.mbox (posted s.log) (fetched s.log)
  noErr : Event.errMem ∉ s.log
  timely : ∀ i, (s.thread i).Timely s.msec

section
variable {s t : State} {c : Call}

theorem Thread.Timely.mono {p : Thread} {now now' : Word} (h : p.Timely now) (hle : now ≤ now') : p.Timely now' := by
  cases p with
  | away => exact h
  | loop c waited => exact BitVec.le_trans h hle
  | enter c waited a msec val => exact ⟨h.1, BitVec.le_trans h.2 hle⟩
  | test c waited a msec val start p => exact ⟨h.1, BitVec.le_trans h.2 hle⟩
  | yield c waited a msec val start => exact ⟨h.1, BitVec.le_trans h.2 hle⟩
  | back c waited a => exact ⟨h.1, BitVec.le_trans h.2 hle⟩

theorem toNat_msec (h : s.ticks.toNat * 10 < 2 ^ 32) : s.msec.toNat = s.ticks.toNat * 10 := by
  rw [State.msec, BitVec.toNat_mul]
  exact Nat.mod_eq_of_lt h

/-- The time stays below the code for a timeout. -/
theorem msec_lt_timeout (h : s.ticks.toNat * 10 < 2 ^ 32) : s.msec < sysArchTimeout := by
  rw [BitVec.lt_def, toNat_msec h]
  have hval : sysArchTimeout.toNat = 2 ^ 32 - 1 := rfl
  omega

theorem timeTick_ok {ticks t : Word} (h : ticks.toNat * 10 < 2 ^ 32) (ht : timeTick ticks = .ok t) :
    t.toNat = ticks.toNat + 1 ∧ t.toNat * 10 < 2 ^ 32 := by
  unfold timeTick at ht
  split at ht
  · cases ht
  · rename_i hno
    cases ht
    have hadd : (ticks + 1).toNat = ticks.toNat + 1 := by
      rw [BitVec.toNat_add]
      exact Nat.mod_eq_of_lt (by simp; omega)
    rw [BitVec.lt_def, BitVec.toNat_mul, hadd] at hno
    simp at hno
    omega

theorem timely_goto (h : ∀ i, (s.thread i).Timely s.msec) {p : Thread} (hp : p.Timely s.msec) (i : Nat) :
    ((s.goto p).thread i).Timely s.msec := by
  change (Function.update s.thread s.cur p i).Timely s.msec
  by_cases hi : i = s.cur
  · subst hi
    rw [Function.update_self]
    exact hp
  · rw [Function.update_of_ne hi]
    exact h i

theorem sysSemSignal_spec (s : State) (id : SemId) :
    ∃ w, (s.sysSemSignal id).mbox = s.mbox.setSem ⟨(s.mbox.sem id).counter + 1, w⟩ id ∧
      (s.sysSemSignal id).ticks = s.ticks ∧ (s.sysSemSignal id).thread = s.thread ∧ (s.sysSemSignal id).log = s.log := by
  dsimp only [State.sysSemSignal]
  split
  · exact ⟨_, rfl, rfl, rfl, rfl⟩
  · exact ⟨_, rfl, rfl, rfl, rfl⟩

theorem posted_snoc (l : List Event) (e : Event) :
    posted (l ++ [e]) = posted l ++ match e with | .posted m => [m] | _ => [] := by
  unfold posted
  rw [List.filterMap_append]
  cases e <;> rfl

theorem fetched_snoc (l : List Event) (e : Event) :
    fetched (l ++ [e]) = fetched l ++ match e with | .fetched m => [m] | _ => [] := by
  unfold fetched
  rw [List.filterMap_append]
  cases e <;> rfl

/-- The state in the middle of a call: mailbox and semaphore do not agree yet. -/
structure Mid (s u : State) (b : Mbox) : Prop where
  mbox : u.mbox = b
  ticks : u.ticks = s.ticks
  log : u.log = s.log
  timely : ∀ i, (u.thread i).Timely s.msec

theorem Inv.mid (h : Inv s) (b : Mbox) : Mid s (State.goto { s with mbox := b } .away) b :=
  ⟨rfl, rfl, rfl, timely_goto (s := { s with mbox := b }) h.timely trivial⟩

theorem Mid.inv (hu : Mid s u b) (h : Inv s) (e : Event) (he : e ≠ .errMem)
    (hq : Queue b (posted (s.log ++ [e])) (fetched (s.log ++ [e]))) : Inv (u.event e) where
  clock := hu.ticks ▸ h.clock
  queue := by
    have hlog : (u.event e).log = s.log ++ [e] := congrArg (· ++ [e]) hu.log
    rw [hlog]
    exact hu.mbox.symm ▸ hq
  noErr := by
    have hlog : (u.event e).log = s.log ++ [e] := congrArg (· ++ [e]) hu.log
    rw [hlog, List.mem_append, List.mem_singleton]
    rintro (hold | rfl)
    · exact h.noErr hold
    · exact he rfl
  timely i := by
    have hnow : (u.event e).msec = s.msec := congrArg (· * 10) hu.ticks
    rw [hnow]
    exact hu.timely i

theorem Mid.signal (hu : Mid s u b) (id : SemId) :
    ∃ w, Mid s (u.sysSemSignal id) (b.setSem ⟨(b.sem id).counter + 1, w⟩ id) := by
  obtain ⟨w, hm, ht, hth, hl⟩ := sysSemSignal_spec u id
  rw [hu.mbox] at hm
  exact ⟨w, hm, ht.trans hu.ticks, hl.trans hu.log, fun i => hth.symm ▸ hu.timely i⟩

section
variable (h : Inv s)
include h

theorem Inv.trypost (hfree : 0 < s.mbox.freeMsg.counter) (m : Word)
    (hu : Mid s u (s.mbox.setSem ⟨s.mbox.freeMsg.counter - 1, w⟩ .free)) : Inv (u.sysMboxTrypost m) := by
  have hput : Mid s { u with mbox := u.mbox.put m } ((s.mbox.setSem ⟨s.mbox.freeMsg.counter - 1, w⟩ .free).put m) :=
    ⟨congrArg (Mbox.put · m) hu.mbox, hu.ticks, hu.log, hu.timely⟩
  obtain ⟨w', hsig⟩ := hput.signal .queued
  have hne : (u.mbox.nextq : Int) ≠ u.mbox.head := hu.mbox.symm ▸ h.queue.nextq_ne_head hfree
  rw [State.sysMboxTrypost, if_neg hne]
  refine hsig.inv h _ (by simp) ?_
  rw [posted_snoc, fetched_snoc, List.append_nil]
  exact h.queue.push hfree rfl rfl rfl rfl rfl

theorem Inv.fetch (hq : 0 < s.mbox.queuedMsg.counter) (hw : waited ≠ sysArchTimeout)
    (hu : Mid s u (s.mbox.setSem ⟨s.mbox.queuedMsg.counter - 1, w⟩ .queued)) :
    ∃ t, u.sysArchMboxFetch waited = .ok t ∧ Inv t := by
  have hdrop : Mid s { u with mbox := u.mbox.drop } (s.mbox.setSem ⟨s.mbox.queuedMsg.counter - 1, w⟩ .queued).drop :=
    ⟨congrArg Mbox.drop hu.mbox, hu.ticks, hu.log, hu.timely⟩
  obtain ⟨w', hsig⟩ := hdrop.signal .free
  have hpop : s.mbox.head ≠ -1 ∧ Queue ((s.mbox.setSem ⟨s.mbox.queuedMsg.counter - 1, w⟩ .queued).drop.setSem
      ⟨s.mbox.freeMsg.counter + 1, w'⟩ .free) (posted s.log) (fetched s.log ++ [s.mbox.msg s.mbox.head.toNat]) :=
    h.queue.pop hq rfl rfl rfl rfl rfl
  have hhead : u.mbox.head ≠ -1 := hu.mbox.symm ▸ hpop.1
  refine ⟨_, (if_neg hw).trans (if_neg hhead), hsig.inv h _ (by simp) ?_⟩
  rw [posted_snoc, fetched_snoc, List.append_nil, hu.mbox]
  exact hpop.2

theorem Inv.timeout (hu : Mid s u s.mbox) : Inv (u.event .timeout) := by
  refine hu.inv h _ (by simp) ?_
  rw [posted_snoc, fetched_snoc, List.append_nil, List.append_nil]
  exact h.queue

theorem Inv.goto {p : Thread} (hp : p.Timely s.msec) : Inv (s.goto p) :=
  ⟨h.clock, h.queue, h.noErr, timely_goto h.timely hp⟩

theorem Inv.waits (waitAddr : Nat → Option SemId) (wakeup : Nat → Bool) :
    Inv { s with waitAddr := waitAddr, wakeup := wakeup } :=
  ⟨h.clock, h.queue, h.noErr, h.timely⟩

theorem Inv.finish_timeout (hc : c.tmMsec ≠ 0) : ∃ t, s.finish c sysArchTimeout = .ok t ∧ Inv t := by
  cases c with
  | trypost m => exact absurd rfl hc
  | fetch tm =>
    have hrun : s.finish (.fetch tm) sysArchTimeout = .ok ((s.goto .away).event .timeout) := by
      dsimp only [State.finish, State.sysArchMboxFetch]
      rw [if_pos rfl]
    exact ⟨_, hrun, h.timeout (h.mid s.mbox)⟩

theorem Inv.sysArchSemWait (hw : waited ≤ s.msec) : ∃ t, s.sysArchSemWait c waited = .ok t ∧ Inv t := by
  have hlt := msec_lt_timeout h.clock
  have hne : waited ≠ sysArchTimeout := by
    rintro rfl
    exact BitVec.not_lt.2 hw hlt
  dsimp only [State.sysArchSemWait]
  split
  · split
    · rename_i hpos
      cases c with
      | trypost m => exact ⟨_, rfl, h.trypost hpos m (h.mid _)⟩
      | fetch tm => exact h.fetch hpos hne (h.mid _)
    · split
      · rename_i hno
        refine h.finish_timeout fun h0 => ?_
        rw [h0] at hno
        exact absurd hno (by decide)
      · refine ⟨_, rfl, ?_⟩
        have hwait : Inv { s with mbox := s.mbox.setSem ⟨(s.mbox.sem c.sem).counter, 1⟩ c.sem } :=
          ⟨h.clock, h.queue.setWaiters 1 c.sem, h.noErr, h.timely⟩
        exact hwait.goto ⟨hw, BitVec.le_refl _⟩
  · rename_i hno
    exact h.finish_timeout fun h0 => hno (.inl h0)

theorem Inv.go : ∃ t, s.go = .ok t ∧ Inv t := by
  have ht := h.timely s.cur
  unfold State.go
  split
  · exact ⟨_, rfl, h⟩
  · rename_i hp
    rw [hp] at ht
    exact h.sysArchSemWait ht
  · rename_i hp
    rw [hp] at ht
    exact ⟨_, rfl, (h.waits _ _).goto ht⟩
  · rename_i hp
    rw [hp] at ht
    split
    · exact ⟨_, rfl, h.goto ht⟩
    · exact ⟨_, rfl, (h.waits _ _).goto ht⟩
  · rename_i hp
    rw [hp] at ht
    exact ⟨_, rfl, h.goto ht⟩
  · rename_i hp
    rw [hp] at ht
    refine ⟨_, rfl, h.goto ?_⟩
    obtain ⟨hwa, han⟩ := ht
    change _ ≤ _
    rw [BitVec.le_def] at *
    bv_omega

/-- Only the kernel's clock can stop the threads. -/
theorem Inv.step (a : Act) : Mailbox.step s a = .error .timeOverflowed ∨ ∃ t, Mailbox.step s a = .ok t ∧ Inv t := by
  cases a with
  | tick =>
    dsimp only [Mailbox.step]
    cases ht : timeTick s.ticks with
    | error e =>
      unfold timeTick at ht
      split at ht <;> cases ht
      exact .inl rfl
    | ok t =>
      obtain ⟨hadd, hclock⟩ := timeTick_ok h.clock ht
      refine .inr ⟨_, rfl, hclock, h.queue, h.noErr, fun i => (h.timely i).mono ?_⟩
      rw [BitVec.le_def, toNat_msec h.clock, toNat_msec hclock]
      change _ ≤ t.toNat * 10
      omega
  | call c =>
    refine .inr ?_
    dsimp only [Mailbox.step]
    split
    · exact ⟨_, rfl, h.goto (BitVec.le_def.2 (Nat.zero_le _))⟩
    · exact ⟨_, rfl, h⟩
  | go => exact .inr h.go
  | switch i =>
    refine .inr ?_
    dsimp only [Mailbox.step]
    split
    · exact ⟨_, rfl, h.clock, h.queue, h.noErr, h.timely⟩
    · exact ⟨_, rfl, h⟩

end

theorem Fresh.inv (h : Fresh s) : Inv s where
  clock := h.clock
  queue := by
    obtain ⟨old, hm⟩ := h.mbox
    rw [hm, h.log]
    exact .empty old
  noErr := by
    rw [h.log]
    exact List.not_mem_nil
  timely i := by
    rw [h.away i]
    trivial

theorem Inv.runs (h : Inv s) (hr : Runs s t) : Inv t := by
  induction hr with
  | refl => exact h
  | tail _ hstep ih =>
    obtain ⟨a, ha⟩ := hstep
    rcases ih.step a with herr | ⟨t, ht, hinv⟩
    · rw [ha] at herr
      cases herr
    · rw [ha] at ht
      cases ht
      exact hinv

end

/-! ## The messages -/

namespace Queue

variable {b : Mbox} {p f : List Word}

theorem count (h : Queue b p f) : b.count = p.length - f.length := by
  have hle := h.length_le
  have hroom := h.room
  unfold Mbox.count
  rw [h.head, h.nextq]
  by_cases hempty : f.length = p.length
  · rw [if_pos hempty, if_pos rfl]
    omega
  · rw [if_neg hempty, if_neg (by omega), Int.toNat_natCast]
    unfold mboxslots at *
    omega

theorem contents (h : Queue b p f) : p = f ++ b.contents := by
  obtain ⟨rest, hrest⟩ := h.before
  have hlen : rest.length = b.count := by
    rw [h.count, ← hrest, List.length_append]
    omega
  rw [← hrest]
  congr 1
  refine List.ext_getElem? fun i => ?_
  by_cases hi : i < b.count
  · have hcount := h.count
    have hslot := h.slots (f.length + i) (by omega) (by omega)
    have hhead := h.head
    rw [if_neg (by omega)] at hhead
    rw [← hrest, List.getElem?_append_right (by omega), Nat.add_sub_cancel_left] at hslot
    rw [hslot, Mbox.contents, List.getElem?_map, List.getElem?_range hi, hhead, Int.toNat_natCast, Option.map_some]
    unfold mboxslots
    congr 2
    omega
  · rw [List.getElem?_eq_none (by omega), List.getElem?_eq_none (by simp [Mbox.contents]; omega)]

end Queue

/-- In every schedule the mailbox holds exactly what has been posted and not
fetched, in order; it is never found full by a post nor empty by a fetch. -/
theorem mailbox_in_order {s t : State} (hs : Fresh s) (hr : Runs s t) :
    fetched t.log <+: posted t.log ∧ posted t.log = fetched t.log ++ t.mbox.contents ∧
      t.mbox.queuedMsg.counter.toNat = t.mbox.count ∧ t.mbox.freeMsg.counter.toNat = mboxslots - t.mbox.count ∧
      Event.errMem ∉ t.log ∧ ∀ a, step t a ≠ .error .noMessage := by
  have h := hs.inv.runs hr
  have hle := h.queue.length_le
  have hfree := h.queue.free
  refine ⟨h.queue.before, h.queue.contents, ?_, ?_, h.noErr, fun a herr => ?_⟩
  · rw [h.queue.queued, h.queue.count]
  · rw [h.queue.count]
    omega
  · rcases h.step a with hover | ⟨u, hu, -⟩
    · rw [herr] at hover
      cases hover
    · rw [herr] at hu
      cases hu

def started : State where
  ticks := 0
  mbox := sysMboxNew ⟨0, 0, fun _ => 0, ⟨0, 0⟩, ⟨0, 0⟩⟩
  cur := 0
  thread _ := .away
  waitAddr _ := none
  wakeup _ := false
  log := []

/-- Thread 1 waits for a message, thread 0 posts one, and thread 1 gets it. -/
def exchange : List Act :=
  [.switch 1, .call (.fetch 0), .go, .go, .go, .switch 0, .call (.trypost 7), .go, .switch 1, .go, .go, .go, .go]

def runActs (s : State) : List Act → Except Panic State
  | [] => .ok s
  | a :: l => step s a >>= fun s => runActs s l

theorem runs_of_runActs {s t : State} {l : List Act} (h : runActs s l = .ok t) : Runs s t := by
  induction l generalizing s with
  | nil =>
    cases h
    exact .refl
  | cons a l ih =>
    cases ha : step s a with
    | error e =>
      rw [runActs, ha] at h
      cases h
    | ok u =>
      rw [runActs, ha] at h
      exact .head ⟨a, ha⟩ (ih h)

theorem mailbox_in_order_exchange :
    ∃ t, runActs started exchange = .ok t ∧ t.log = [.posted 7, .fetched 7] ∧ t.mbox.queuedMsg.counter.toNat = t.mbox.count := by
  have hfresh : Fresh started := ⟨⟨_, rfl⟩, fun _ => rfl, rfl, by decide⟩
  refine ⟨_, rfl, rfl, ?_⟩
  exact (mailbox_in_order hfresh (runs_of_runActs (l := exchange) rfl)).2.2.1

end Jos.Mailbox
