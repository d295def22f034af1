import Jos.Kern.Mmu
import Mathlib.Data.List.Nodup

/-!
# The network server's request buffers (`net/serv.c`)

`serve` takes one of `QUEUE_SIZE` page addresses before it waits for a message.
A request with a page is handed to a thread, which gives the address back when
it ends. Threads are cooperative: they run, and end, where `serve` yields, which
is before it takes an address and while it handles a timer message.
-/

namespace Jos.Server

def queueSize : Nat := 20

def reqva : Nat := 0x0ffff000 - queueSize * 4096

def nsreqTimer : Word := 12

def bufferVa (i : Nat) : Nat := reqva + i * 4096

/-- The address and the new `buse`; `none` is the panic. -/
def getBuffer (buse : Nat → Bool) : Option (Nat × (Nat → Bool)) :=
  ((List.range queueSize).find? fun i => !buse i).map fun i => (bufferVa i, Function.update buse i true)

def putBuffer (buse : Nat → Bool) (va : Nat) : Nat → Bool := Function.update buse ((va - reqva) / 4096) false

structure Args where
  reqno : Word
  whom : Word
  req : Nat

/-- Where `serve` is: before `get_buffer`, in `ipc_recv`, in `process_timer`. -/
inductive Pc
  | loop
  | recv (va : Nat)
  | timer (va : Nat)

structure Server where
  buse : Nat → Bool
  pc : Pc
  /-- The requests still being processed. -/
  threads : List Args

def start : Server := ⟨fun _ => false, .loop, []⟩

/-- What `ipc_recv` returns, and whether `thread_create` will have memory. -/
structure Message where
  reqno : Word
  whom : Word
  perm : Word
  created : Bool

def handle (s : Server) (va : Nat) (m : Message) : Server :=
  if m.reqno = nsreqTimer then
    { s with pc := .timer va }
  else if m.perm &&& pteP = 0 then
    -- The message is left hanging, and so is the buffer.
    { s with pc := .loop }
  else if m.created then
    { s with pc := .loop, threads := s.threads ++ [⟨m.reqno, m.whom, va⟩] }
  else
    -- The result of `thread_create` is not looked at.
    { s with pc := .loop }

def Pc.Yields : Pc → Prop
  | .loop => True
  | .recv _ => False
  | .timer _ => True

inductive Step (ok : Message → Prop) : Server → Server → Prop
  | get : s.pc = .loop → getBuffer s.buse = some (va, buse) → Step ok s { s with buse := buse, pc := .recv va }
  | message : s.pc = .recv va → ok m → Step ok s (handle s va m)
  | timer : s.pc = .timer va → Step ok s { s with buse := putBuffer s.buse va, pc := .loop }
  | finish : s.pc.Yields → s.threads = l ++ a :: l' →
    Step ok s { s with buse := putBuffer s.buse a.req, threads := l ++ l' }

def Runs (ok : Message → Prop) (s t : Server) : Prop := Relation.ReflTransGen (Step ok) s t

def inUse (buse : Nat → Bool) : Nat := ((List.range queueSize).filter buse).length

/-- A timer message, or one with a page whose thread can be created. -/
def Message.Served (m : Message) : Prop := m.reqno = nsreqTimer ∨ (m.perm &&& pteP ≠ 0 ∧ m.created = true)

/-! ## Addresses that are taken -/

/-- `buse` is set for the addresses in `l`. -/
structure Taken (buse : Nat → Bool) (l : List Nat) : Prop where
  nodup : l.Nodup
  slot : ∀ va ∈ l, ∃ i < queueSize, va = bufferVa i
  busy : ∀ i < queueSize, buse i = true ↔ bufferVa i ∈ l

theorem bufferVa_inj (h : bufferVa i = bufferVa j) : i = j := by
  unfold bufferVa at h
  omega

theorem slot_bufferVa (i : Nat) : (bufferVa i - reqva) / 4096 = i := by
  unfold bufferVa
  omega

namespace Taken

variable {buse : Nat → Bool} {l : List Nat}

theorem perm (h : Taken buse l) (hp : l.Perm l') : Taken buse l' where
  nodup := hp.nodup_iff.1 h.nodup
  slot va hva := h.slot va (hp.mem_iff.2 hva)
  busy i hi := (h.busy i hi).trans hp.mem_iff

theorem get (h : Taken buse l) (hget : getBuffer buse = some (va, buse')) : Taken buse' (va :: l) := by
  obtain ⟨i, hfind, heq⟩ := Option.map_eq_some_iff.1 hget
  obtain ⟨rfl, rfl⟩ := Prod.mk.inj heq
  have hi : i < queueSize := List.mem_range.1 (List.mem_of_find?_eq_some hfind)
  have hfree : ¬ buse i = true := by simpa using List.find?_some hfind
  refine ⟨List.nodup_cons.2 ⟨mt (h.busy i hi).2 hfree, h.nodup⟩, ?_, fun j hj => ?_⟩
  · intro va hva
    rcases List.mem_cons.1 hva with rfl | hva
    · exact ⟨i, hi, rfl⟩
    · exact h.slot va hva
  · by_cases hji : j = i
    · subst hji
      simp
    · rw [Function.update_of_ne hji, h.busy j hj, List.mem_cons, or_iff_right]
      exact fun heq => hji (bufferVa_inj heq)

theorem put (h : Taken buse (va :: l)) : Taken (putBuffer buse va) l := by
  obtain ⟨i, hi, rfl⟩ := h.slot _ List.mem_cons_self
  obtain ⟨hout, hnodup⟩ := List.nodup_cons.1 h.nodup
  refine ⟨hnodup, fun va hva => h.slot va (List.mem_cons_of_mem _ hva), fun j hj => ?_⟩
  unfold putBuffer
  rw [slot_bufferVa]
  by_cases hji : j = i
  · subst hji
    simp [hout]
  · rw [Function.update_of_ne hji, h.busy j hj, List.mem_cons, or_iff_right]
    exact fun heq => hji (bufferVa_inj heq)

theorem inUse (h : Taken buse l) : Server.inUse buse = l.length := by
  have hperm : (((List.range queueSize).filter buse).map bufferVa).Perm l := by
    refine (List.perm_ext_iff_of_nodup ?_ h.nodup).2 fun va => ?_
    · exact List.Nodup.map (fun i j heq => bufferVa_inj heq) (List.nodup_range.filter _)
    · rw [List.mem_map]
      constructor
      · rintro ⟨i, hi, rfl⟩
        obtain ⟨hr, hb⟩ := List.mem_filter.1 hi
        exact (h.busy i (List.mem_range.1 hr)).1 hb
      · intro hva
        obtain ⟨i, hi, rfl⟩ := h.slot va hva
        exact ⟨i, List.mem_filter.2 ⟨List.mem_range.2 hi, (h.busy i hi).2 hva⟩, rfl⟩
  rw [← hperm.length_eq, List.length_map]
  rfl

end Taken

theorem inUse_full (h : getBuffer buse = none) : inUse buse = queueSize := by
  have hall : ∀ i ∈ List.range queueSize, buse i = true := by
    intro i hi
    have hno := List.find?_eq_none.1 (Option.map_eq_none_iff.1 h) i hi
    simpa using hno
  unfold inUse
  rw [List.filter_eq_self.2 hall, List.length_range]

/-! ## Runs -/

def Pc.held : Pc → List Nat
  | .loop => []
  | .recv va => [va]
  | .timer va => [va]

/-- The addresses that are out: `serve`'s own and those of the threads. -/
def out (s : Server) : List Nat := s.pc.held ++ s.threads.map Args.req

theorem Step.taken (h : Step Message.Served s t) (hs : Taken s.buse (out s)) : Taken t.buse (out t) := by
  unfold out at *
  cases h with
  | get hpc hget =>
    rw [hpc] at hs
    exact hs.get hget
  | message hpc hok =>
    rename_i m va
    rw [hpc] at hs
    unfold handle
    rcases hok with htimer | ⟨hpage, hcreated⟩
    · rw [if_pos htimer]
      exact hs
    · rw [if_neg hpage, if_pos hcreated]
      split
      · exact hs
      · refine hs.perm ?_
        simp only [Pc.held, List.map_append, List.nil_append, List.singleton_append]
        exact (List.perm_append_singleton va _).symm
  | timer hpc =>
    rw [hpc] at hs
    exact hs.put
  | finish hyield hthreads =>
    rename_i l a l'
    rw [hthreads] at hs
    refine Taken.put (hs.perm ?_)
    simp only [List.map_append, List.map_cons]
    rw [← List.append_assoc, ← List.append_assoc]
    exact List.perm_middle

theorem start_taken : Taken start.buse (out start) where
  nodup := List.nodup_nil
  slot va hva := absurd hva List.not_mem_nil
  busy i _ := by simp [start, out, Pc.held]

theorem Runs.taken (h : Runs Message.Served start s) : Taken s.buse (out s) := by
  induction h with
  | refl => exact start_taken
  | tail _ hstep ih => exact hstep.taken ih

/-- As long as every message is a timer message or carries a page, `get_buffer`
finds as many addresses taken as there are requests, and fails only when all
are. -/
theorem buffers_returned (h : Runs Message.Served start s) (hpc : s.pc = .loop) :
    inUse s.buse = s.threads.length ∧ (getBuffer s.buse = none → s.threads.length = queueSize) := by
  have htaken := h.taken
  unfold out at htaken
  rw [hpc] at htaken
  have hcount : inUse s.buse = s.threads.length := by
    rw [htaken.inUse]
    simp [Pc.held]
  exact ⟨hcount, fun hfull => hcount.symm.trans (inUse_full hfull)⟩

def busy : Server := ⟨Function.update (fun _ => false) 0 true, .loop, [⟨1, 0, bufferVa 0⟩]⟩

theorem busy_runs : Runs Message.Served start busy := by
  refine .tail (.tail .refl (.get rfl rfl)) ?_
  exact .message (m := ⟨1, 0, 7, true⟩) rfl (.inr ⟨by decide, rfl⟩)

theorem buffers_returned_busy : inUse busy.buse = 1 ∧ busy.threads.length = 1 :=
  ⟨(buffers_returned busy_runs rfl).1, rfl⟩

/-! ## Messages without a page -/

def hung (n : Nat) : Server := ⟨fun i => decide (i < n), .loop, []⟩

theorem getBuffer_hung (hn : n < queueSize) : getBuffer (hung n).buse = some (bufferVa n, (hung (n + 1)).buse) := by
  have hfind : ∀ n < queueSize, ((List.range queueSize).find? fun i => !decide (i < n)) = some n := by decide
  unfold getBuffer hung
  rw [hfind n hn]
  refine congrArg some (Prod.ext rfl (funext fun i => ?_))
  by_cases hi : i = n
  · subst hi
    simp
  · simp only [Function.update_of_ne hi, decide_eq_decide]
    omega

theorem hung_runs (hn : n ≤ queueSize) : Runs (fun _ => True) start (hung n) := by
  induction n with
  | zero => exact .refl
  | succ n ih =>
    refine .tail (.tail (ih (by omega)) (.get rfl (getBuffer_hung hn))) ?_
    exact .message (m := ⟨1, 0, 0, true⟩) rfl trivial

/-- After `QUEUE_SIZE` messages without a page the server panics, with no
request in progress. -/
theorem bare_messages_exhaust : ∃ s, Runs (fun _ => True) start s ∧ s.pc = .loop ∧
    inUse s.buse = queueSize ∧ s.threads = [] ∧ getBuffer s.buse = none :=
  ⟨hung queueSize, hung_runs (Nat.le_refl _), rfl, rfl, rfl, rfl⟩

end Jos.Server
