import Jos.Kern.Mmu
import Jos.Lib.Ring

/-!
# Pipes (`lib/pipe.c`)

One reader and one writer share a `struct Pipe`. A call of `devpipe_read` or
`devpipe_write` is a sequence of single loads and stores, and the other side
may run between any two of them. `supplied` lists the bytes the writer has
stored into `p_buf`, `out` those the reader has stored into its buffers.
-/

namespace Jos.Pipe

open Lib

abbrev Byte := BitVec 8

def pipebufsiz : Nat := 32

/-- Where a call of `devpipe_read` with count `n` stands. -/
inductive Reader where
  | idle
  | test (i n : Nat)
  | loadRpos (i n : Nat)
  | loadWpos (i n : Nat) (r : Word)
  | isClosed (i n : Nat)
  | index (i n : Nat)
  | loadByte (i n : Nat) (r : Word)
  | storeByte (i n : Nat) (b : Byte)
  | loadInc (i n : Nat)
  | storeRpos (i n : Nat) (r : Word)

/-- Where a call of `devpipe_write` with the bytes `data` stands. -/
inductive Writer where
  | idle
  | test (i : Nat) (data : List Byte)
  | loadWpos (i : Nat) (data : List Byte)
  | loadRpos (i : Nat) (data : List Byte) (w : Word)
  | isClosed (i : Nat) (data : List Byte)
  | index (i : Nat) (data : List Byte)
  | storeByte (i : Nat) (data : List Byte) (w : Word)
  | loadInc (i : Nat) (data : List Byte)
  | storeWpos (i : Nat) (data : List Byte) (w : Word)

structure State where
  rpos : Word
  wpos : Word
  buf : Nat → Byte
  reader : Reader
  writer : Writer
  supplied : List Byte
  out : List Byte

/-- `pipe` allocates a zeroed page. -/
def initial : State := ⟨0, 0, fun _ => 0, .idle, .idle, [], []⟩

/-- `pos % PIPEBUFSIZ`, a remainder of signed words. -/
def slotOf (pos : Word) : Nat := (pos.srem 32#32).toNat

/-- The next step of `devpipe_read`; `closed` is what `_pipeisclosed` returns. -/
def State.read (s : State) (closed : Bool) : State :=
  match s.reader with
  | .idle => s
  | .test i n => { s with reader := if i < n then .loadRpos i n else .idle }
  | .loadRpos i n => { s with reader := .loadWpos i n s.rpos }
  | .loadWpos i n r =>
    { s with reader := if r = s.wpos then (if 0 < i then .idle else .isClosed i n) else .index i n }
  | .isClosed i n => { s with reader := if closed then .idle else .loadRpos i n }
  | .index i n => { s with reader := .loadByte i n s.rpos }
  | .loadByte i n r => { s with reader := .storeByte i n (s.buf (slotOf r)) }
  | .storeByte i n b => { s with out := s.out ++ [b], reader := .loadInc i n }
  | .loadInc i n => { s with reader := .storeRpos i n s.rpos }
  | .storeRpos i n r => { s with rpos := r + 1, reader := .test (i + 1) n }

/-- The next step of `devpipe_write`. `sizeof` is unsigned, so the test for a
full pipe compares unsigned words. -/
def State.write (s : State) (closed : Bool) : State :=
  match s.writer with
  | .idle => s
  | .test i data => { s with writer := if i < data.length then .loadWpos i data else .idle }
  | .loadWpos i data => { s with writer := .loadRpos i data s.wpos }
  | .loadRpos i data w => { s with writer := if s.rpos + 32#32 ≤ w then .isClosed i data else .index i data }
  | .isClosed i data => { s with writer := if closed then .idle else .loadWpos i data }
  | .index i data => { s with writer := .storeByte i data s.wpos }
  | .storeByte i data w =>
    { s with
      buf := Function.update s.buf (slotOf w) (data.getD i 0)
      supplied := s.supplied ++ [data.getD i 0]
      writer := .loadInc i data }
  | .loadInc i data => { s with writer := .storeWpos i data s.wpos }
  | .storeWpos i data w => { s with wpos := w + 1, writer := .test (i + 1) data }

inductive Step : State → State → Prop
  | startRead (n : Nat) : s.reader = .idle → Step s { s with reader := .test 0 n }
  | read (closed : Bool) : Step s (s.read closed)
  | startWrite (data : List Byte) : s.writer = .idle → Step s { s with writer := .test 0 data }
  | write (closed : Bool) : Step s (s.write closed)

def Runs (s t : State) : Prop := Relation.ReflTransGen Step s t

/-! ## The ring carries the bytes not yet taken -/

theorem slotOf_eq (pos : Word) (h : pos.toNat ≤ 2 ^ 31) : slotOf pos = pos.toNat % pipebufsiz := by
  obtain heq | hlt := Nat.eq_or_lt_of_le h
  · obtain rfl : pos = 0x80000000#32 := BitVec.eq_of_toNat_eq heq
    decide
  have hmsb : pos.msb = false := by
    rw [BitVec.msb_eq_false_iff_two_mul_lt]
    omega
  have h32 : (32#32 : Word).msb = false := by decide
  unfold slotOf
  rw [BitVec.srem_eq, hmsb, h32]
  simp [pipebufsiz]

/-- The byte is stored and `p_wpos` does not count it yet. -/
def Writer.stored : Writer → Nat
  | .loadInc .. | .storeWpos .. => 1
  | _ => 0

/-- The byte is taken and `p_rpos` does not count it yet. -/
def Reader.taken : Reader → Nat
  | .loadInc .. | .storeRpos .. => 1
  | _ => 0

/-- What the reader knows: past the wait there is a byte at `p_rpos`. -/
def State.ReaderOk (s : State) : Prop :=
  match s.reader with
  | .loadWpos _ _ r => r = s.rpos
  | .index .. | .loadInc .. => s.rpos.toNat < s.wpos.toNat
  | .loadByte _ _ r | .storeRpos _ _ r => r = s.rpos ∧ s.rpos.toNat < s.wpos.toNat
  | .storeByte _ _ b => s.rpos.toNat < s.wpos.toNat ∧ s.supplied[s.rpos.toNat]? = some b
  | _ => True

/-- What the writer knows: past the wait there is room for a byte at `p_wpos`. -/
def State.WriterOk (s : State) : Prop :=
  match s.writer with
  | .loadRpos _ _ w => w = s.wpos
  | .index .. | .loadInc .. => s.wpos.toNat < s.rpos.toNat + pipebufsiz
  | .storeByte _ _ w | .storeWpos _ _ w => w = s.wpos ∧ s.wpos.toNat < s.rpos.toNat + pipebufsiz
  | _ => True

structure State.Ok (s : State) : Prop where
  order : s.rpos.toNat ≤ s.wpos.toNat
  room : s.wpos.toNat ≤ s.rpos.toNat + pipebufsiz
  supplied : s.supplied.length = s.wpos.toNat + s.writer.stored
  out : s.out.length = s.rpos.toNat + s.reader.taken
  sent : s.out <+: s.supplied
  slots : Carries pipebufsiz s.buf s.supplied s.rpos.toNat s.supplied.length
  reader : s.ReaderOk
  writer : s.WriterOk

theorem initial_ok : initial.Ok where
  order := Nat.le_refl _
  room := by decide
  supplied := rfl
  out := rfl
  sent := List.prefix_refl _
  slots := .empty
  reader := trivial
  writer := trivial

namespace State.Ok

variable {s : State}

theorem setReader (h : s.Ok) {r : Reader} (ht : r.taken = s.reader.taken)
    (hr : ({ s with reader := r } : State).ReaderOk) : ({ s with reader := r } : State).Ok :=
  ⟨h.order, h.room, h.supplied, by rw [ht]; exact h.out, h.sent, h.slots, hr, h.writer⟩

theorem setWriter (h : s.Ok) {w : Writer} (ht : w.stored = s.writer.stored)
    (hw : ({ s with writer := w } : State).WriterOk) : ({ s with writer := w } : State).Ok :=
  ⟨h.order, h.room, by rw [ht]; exact h.supplied, h.out, h.sent, h.slots, h.reader, hw⟩

theorem next (h : s.Ok) (hlt : s.rpos.toNat < s.wpos.toNat) (hsmall : s.supplied.length ≤ 2 ^ 31 + 1) :
    s.supplied[s.rpos.toNat]? = some (s.buf (slotOf s.rpos)) := by
  have hlen := h.supplied
  rw [slotOf_eq _ (by omega)]
  exact h.slots.head (by omega)

theorem read (h : s.Ok) (hsmall : s.supplied.length ≤ 2 ^ 31 + 1) (closed : Bool) : (s.read closed).Ok := by
  have hr := h.reader
  cases hs : s.reader with
  | idle =>
    simp only [State.read, hs]
    exact h
  | test i n =>
    simp only [State.read, hs]
    split <;> exact h.setReader (by simp [hs, Reader.taken]) trivial
  | loadRpos i n =>
    simp only [State.read, hs]
    exact h.setReader (by simp [hs, Reader.taken]) rfl
  | loadWpos i n r =>
    simp only [State.ReaderOk, hs] at hr
    subst hr
    simp only [State.read, hs]
    have ht : Reader.taken s.reader = 0 := by simp [hs, Reader.taken]
    by_cases heq : s.rpos = s.wpos
    · rw [if_pos heq]
      split <;> exact h.setReader ht.symm trivial
    · rw [if_neg heq]
      have hne : s.rpos.toNat ≠ s.wpos.toNat := fun h' => heq (BitVec.eq_of_toNat_eq h')
      exact h.setReader ht.symm (Nat.lt_of_le_of_ne h.order hne)
  | isClosed i n =>
    simp only [State.read, hs]
    split <;> exact h.setReader (by simp [hs, Reader.taken]) trivial
  | index i n =>
    simp only [State.ReaderOk, hs] at hr
    simp only [State.read, hs]
    exact h.setReader (by simp [hs, Reader.taken]) ⟨rfl, hr⟩
  | loadByte i n r =>
    simp only [State.ReaderOk, hs] at hr
    obtain ⟨rfl, hlt⟩ := hr
    simp only [State.read, hs]
    exact h.setReader (by simp [hs, Reader.taken]) ⟨hlt, h.next hlt hsmall⟩
  | storeByte i n b =>
    simp only [State.ReaderOk, hs] at hr
    have hout := h.out
    simp only [hs, Reader.taken, Nat.add_zero] at hout
    simp only [State.read, hs]
    refine ⟨h.order, h.room, h.supplied, ?_, prefix_snoc h.sent (hout ▸ hr.2), h.slots, hr.1, h.writer⟩
    simp [hout, Reader.taken]
  | loadInc i n =>
    simp only [State.ReaderOk, hs] at hr
    simp only [State.read, hs]
    exact h.setReader (by simp [hs, Reader.taken]) ⟨rfl, hr⟩
  | storeRpos i n r =>
    simp only [State.ReaderOk, hs] at hr
    obtain ⟨rfl, hlt⟩ := hr
    have hlen := h.supplied
    have hout := h.out
    have hroom := h.room
    have hinc : (s.rpos + 1).toNat = s.rpos.toNat + 1 := by
      rw [BitVec.toNat_add]
      exact Nat.mod_eq_of_lt (by simp; omega)
    simp only [State.read, hs]
    refine ⟨?_, ?_, h.supplied, ?_, h.sent, ?_, trivial, ?_⟩
    · simp only [hinc]
      exact hlt
    · simp only [hinc]
      omega
    · simp only [hs, Reader.taken] at hout
      simp only [hinc, Reader.taken]
      omega
    · simp only [hinc]
      exact h.slots.pop
    · -- The writer only learns that there is more room.
      have hw := h.writer
      simp only [State.WriterOk] at hw ⊢
      cases hw' : s.writer with
      | idle | test | loadWpos | isClosed => trivial
      | loadRpos i data w =>
        simp only [hw'] at hw
        exact hw
      | index i data | loadInc i data =>
        simp only [hw'] at hw
        simp only [hinc]
        omega
      | storeByte i data w | storeWpos i data w =>
        simp only [hw'] at hw
        simp only [hinc]
        exact ⟨hw.1, by omega⟩

theorem write (h : s.Ok) (hsmall : (s.write closed).supplied.length ≤ 2 ^ 31 + 1) : (s.write closed).Ok := by
  have hw := h.writer
  have hlen := h.supplied
  have hroom := h.room
  cases hs : s.writer with
  | idle =>
    simp only [State.write, hs]
    exact h
  | test i data =>
    simp only [State.write, hs]
    split <;> exact h.setWriter (by simp [hs, Writer.stored]) trivial
  | loadWpos i data =>
    simp only [State.write, hs]
    exact h.setWriter (by simp [hs, Writer.stored]) rfl
  | loadRpos i data w =>
    simp only [State.WriterOk, hs] at hw
    subst hw
    simp only [State.write, hs] at hsmall ⊢
    have ht : Writer.stored s.writer = 0 := by simp [hs, Writer.stored]
    by_cases hfull : s.rpos + 32#32 ≤ s.wpos
    · rw [if_pos hfull]
      exact h.setWriter ht.symm trivial
    · rw [if_neg hfull]
      refine h.setWriter ht.symm ?_
      have horder := h.order
      have hsum : (s.rpos + 32#32).toNat = s.rpos.toNat + 32 := by
        rw [BitVec.toNat_add]
        exact Nat.mod_eq_of_lt (by simp; omega)
      rw [BitVec.le_def, hsum] at hfull
      simp only [State.WriterOk, pipebufsiz]
      omega
  | isClosed i data =>
    simp only [State.write, hs]
    split <;> exact h.setWriter (by simp [hs, Writer.stored]) trivial
  | index i data =>
    simp only [State.WriterOk, hs] at hw
    simp only [State.write, hs]
    exact h.setWriter (by simp [hs, Writer.stored]) ⟨rfl, hw⟩
  | storeByte i data w =>
    simp only [State.WriterOk, hs] at hw
    obtain ⟨rfl, hlt⟩ := hw
    simp only [State.write, hs] at hsmall ⊢
    simp only [hs, Writer.stored, Nat.add_zero] at hlen
    simp only [List.length_append, List.length_singleton] at hsmall
    have hslot := slotOf_eq s.wpos (by omega)
    refine ⟨h.order, h.room, ?_, h.out, h.sent.trans (List.prefix_append ..), ?_, ?_, hlt⟩
    · simp [Writer.stored, hlen]
    · rw [List.length_append, hlen]
      refine ((hlen ▸ h.slots).congr hlt fun k hk => ?_).push hlen ?_
      · rw [← hslot] at hk
        exact Function.update_of_ne hk ..
      · rw [← hslot]
        exact Function.update_self ..
    · -- What the reader has seen of the log stays there.
      have hr := h.reader
      simp only [State.ReaderOk] at hr ⊢
      cases hr' : s.reader with
      | storeByte i n b =>
        simp only [hr'] at hr ⊢
        refine ⟨hr.1, ?_⟩
        rw [List.getElem?_append_left (by omega)]
        exact hr.2
      | idle | test | loadRpos | isClosed => trivial
      | loadWpos | index | loadByte | loadInc | storeRpos =>
        simp only [hr'] at hr
        exact hr
  | loadInc i data =>
    simp only [State.WriterOk, hs] at hw
    simp only [State.write, hs]
    exact h.setWriter (by simp [hs, Writer.stored]) ⟨rfl, hw⟩
  | storeWpos i data w =>
    simp only [State.WriterOk, hs] at hw
    obtain ⟨rfl, hlt⟩ := hw
    simp only [State.write, hs] at hsmall ⊢
    simp only [hs, Writer.stored] at hlen
    have horder := h.order
    have hinc : (s.wpos + 1).toNat = s.wpos.toNat + 1 := by
      rw [BitVec.toNat_add]
      exact Nat.mod_eq_of_lt (by simp; omega)
    refine ⟨?_, ?_, ?_, h.out, h.sent, h.slots, ?_, trivial⟩
    · simp only [hinc]
      omega
    · simp only [hinc]
      omega
    · simp only [hinc, Writer.stored]
      exact hlen
    · -- The reader only learns that there are more bytes.
      have hr := h.reader
      simp only [State.ReaderOk] at hr ⊢
      cases hr' : s.reader with
      | idle | test | loadRpos | isClosed => trivial
      | loadWpos i n r =>
        simp only [hr'] at hr
        exact hr
      | index i n | loadInc i n =>
        simp only [hr'] at hr
        simp only [hinc]
        omega
      | loadByte i n r | storeRpos i n r =>
        simp only [hr'] at hr
        simp only [hinc]
        exact ⟨hr.1, by omega⟩
      | storeByte i n b =>
        simp only [hr'] at hr
        simp only [hinc]
        exact ⟨by omega, hr.2⟩

theorem step (h : s.Ok) (hs : Step s t) (hsmall : t.supplied.length ≤ 2 ^ 31 + 1) : t.Ok := by
  cases hs with
  | startRead n hidle => exact h.setReader (by simp [hidle, Reader.taken]) trivial
  | read closed =>
    have hsame : (s.read closed).supplied = s.supplied := by
      unfold State.read
      split <;> rfl
    exact h.read (hsame ▸ hsmall) closed
  | startWrite data hidle => exact h.setWriter (by simp [hidle, Writer.stored]) trivial
  | write closed => exact h.write hsmall

end State.Ok

theorem Step.supplied_le (h : Step s t) : s.supplied.length ≤ t.supplied.length := by
  cases h with
  | startRead | startWrite => exact Nat.le_refl _
  | read closed =>
    unfold State.read
    split <;> exact Nat.le_refl _
  | write closed =>
    unfold State.write
    split <;> simp

theorem Runs.ok (h : Runs initial s) (hsmall : s.supplied.length ≤ 2 ^ 31 + 1) : s.Ok := by
  induction h with
  | refl => exact initial_ok
  | tail _ hstep ih =>
    have hle := hstep.supplied_le
    exact (ih (by omega)).step hstep hsmall

/-! ## The pipe is a queue -/

structure State.Fifo (s : State) : Prop where
  /-- The bytes delivered are the first bytes supplied. -/
  delivered : s.out <+: s.supplied
  bounds : 0 ≤ s.wpos.toInt - s.rpos.toInt ∧ s.wpos.toInt - s.rpos.toInt ≤ pipebufsiz
  /-- The slot the writer is about to store into holds no byte that is not delivered. -/
  unread : ∀ i data w k, s.writer = .storeByte i data w → s.out.length ≤ k → k < s.supplied.length →
    slotOf w ≠ k % pipebufsiz

theorem Runs.writes (s : State) (n : Nat) : Runs s ((fun s => State.write s false)^[n] s) := by
  induction n generalizing s with
  | zero => exact .refl
  | succ n ih => exact .head (.write false) (ih _)

theorem Runs.reads (s : State) (n : Nat) : Runs s ((fun s => State.read s false)^[n] s) := by
  induction n generalizing s with
  | zero => exact .refl
  | succ n ih => exact .head (.read false) (ih _)

/-- The slots about to be used are slots of `p_buf`, and the bytes come in order. -/
structure State.Usable (s : State) : Prop where
  store : ∀ i data w, s.writer = .storeByte i data w → slotOf w < pipebufsiz
  load : ∀ i n r, s.reader = .loadByte i n r → slotOf r < pipebufsiz
  delivered : s.out <+: s.supplied

/-- The step is not the writer's choice of a slot for a position beyond 2^31. -/
def State.Early (s t : State) : Prop :=
  ∀ i data, s.writer = .index i data → t.writer = s.writer ∨ s.wpos.toNat ≤ 2 ^ 31

def EarlyRuns (s t : State) : Prop := Relation.ReflTransGen (fun s t => Step s t ∧ s.Early t) s t

structure State.Short (s : State) : Prop where
  ok : s.Ok
  few : s.supplied.length ≤ 2 ^ 31 + 1
  store : ∀ i data w, s.writer = .storeByte i data w → w.toNat ≤ 2 ^ 31

theorem State.Short.step {s : State} (h : s.Short) (hs : Step s t) (hearly : s.Early t) : t.Short := by
  have hlen := h.ok.supplied
  have hfew : t.supplied.length ≤ 2 ^ 31 + 1 := by
    cases hs with
    | startRead | startWrite => exact h.few
    | read closed =>
      unfold State.read
      split <;> exact h.few
    | write closed =>
      cases hw : s.writer with
      | storeByte i data w =>
        have hwok := h.ok.writer
        have hle := h.store i data w hw
        simp only [State.WriterOk, hw] at hwok
        obtain ⟨rfl, -⟩ := hwok
        simp only [hw, Writer.stored, Nat.add_zero] at hlen
        simp only [State.write, hw, List.length_append, List.length_singleton]
        omega
      | idle | test | loadWpos | loadRpos | isClosed | index | loadInc | storeWpos =>
        simp only [State.write, hw]
        exact h.few
  refine ⟨h.ok.step hs hfew, hfew, fun i data w ht => ?_⟩
  cases hs with
  | startRead => exact h.store i data w ht
  | startWrite => simp at ht
  | read closed =>
    refine h.store i data w (Eq.trans ?_ ht)
    unfold State.read
    split <;> rfl
  | write closed =>
    cases hw : s.writer with
    | index j d =>
      obtain hsame | hle := hearly j d hw
      · rw [ht, hw] at hsame
        simp at hsame
      · simp only [State.write, hw, Writer.storeByte.injEq] at ht
        exact ht.2.2 ▸ hle
    | test | loadRpos | isClosed =>
      simp only [State.write, hw] at ht
      split at ht <;> simp at ht
    | idle | loadWpos | storeByte | loadInc | storeWpos =>
      simp [State.write, hw] at ht

theorem EarlyRuns.short (h : EarlyRuns initial s) : s.Short := by
  induction h with
  | refl => exact ⟨initial_ok, by decide, nofun⟩
  | tail _ hstep ih => exact ih.step hstep.1 hstep.2

theorem slotOf_lt (h : pos.toNat ≤ 2 ^ 31) : slotOf pos < pipebufsiz := by
  rw [slotOf_eq pos h]
  exact Nat.mod_lt _ (by decide)

theorem State.Short.usable {s : State} (h : s.Short) : s.Usable := by
  refine ⟨fun i data w hw => slotOf_lt (h.store i data w hw), fun i n r hr => slotOf_lt ?_, h.ok.sent⟩
  have hrok := h.ok.reader
  have hlen := h.ok.supplied
  have hfew := h.few
  simp only [State.ReaderOk, hr] at hrok
  obtain ⟨rfl, hlt⟩ := hrok
  omega

/-- The first position that is not a multiple of 32 beyond 2^31 has no slot. -/
theorem slotOf_next : ¬ slotOf 0x80000001#32 < pipebufsiz := by decide

/-- As long as the writer has not chosen a slot for a position beyond 2^31 the pipe works,
and the first time it does the slot is outside of `p_buf`. -/
theorem positions_usable (h : EarlyRuns initial s) : s.Usable ∧
    ∀ i data closed, s.writer = .index i data → ((s.write closed).Usable ↔ s.wpos.toNat ≤ 2 ^ 31) := by
  have hshort := h.short
  refine ⟨hshort.usable, fun i data closed hw => ⟨fun husable => ?_, fun hle => ?_⟩⟩
  · by_contra hlt
    have hlen := hshort.ok.supplied
    have hfew := hshort.few
    have hpos : s.wpos = 0x80000001#32 := BitVec.eq_of_toNat_eq (by simp; omega)
    refine slotOf_next (hpos ▸ husable.store i data s.wpos ?_)
    simp [State.write, hw]
  · exact (hshort.step (.write closed) fun _ _ _ => .inr hle).usable

/-- The writer chooses its first slot. -/
theorem positions_usable_first : ∃ s, EarlyRuns initial s ∧ s.writer = .index 0 [5] ∧ (s.write false).Usable := by
  have hrun : EarlyRuns initial ((fun s => State.write s false)^[3] { initial with writer := .test 0 [5] }) := by
    refine .head ⟨.startWrite [5] rfl, nofun⟩ ?_
    refine .head (b := State.write _ false) ⟨.write false, nofun⟩ ?_
    refine .head (b := State.write _ false) ⟨.write false, nofun⟩ ?_
    exact .single ⟨.write false, nofun⟩
  exact ⟨_, hrun, rfl, ((positions_usable hrun).2 0 [5] false rfl).mpr (by decide)⟩

/-- `n` bytes have gone through the pipe. -/
structure State.Passed (s : State) (n : Nat) : Prop where
  reader : s.reader = .idle
  writer : s.writer = .idle
  rpos : s.rpos = BitVec.ofNat 32 n
  wpos : s.wpos = BitVec.ofNat 32 n

theorem State.Passed.room {s : State} (h : s.Passed n) (hn : n < 2 ^ 32 - 32) : ¬ s.rpos + 32#32 ≤ s.wpos := by
  have hsum : (s.rpos + 32#32).toNat = n + 32 := by
    rw [h.rpos, BitVec.toNat_add, BitVec.toNat_ofNat, BitVec.toNat_ofNat]
    omega
  have hw : s.wpos.toNat = n := by
    rw [h.wpos, BitVec.toNat_ofNat, Nat.mod_eq_of_lt (by omega)]
  rw [BitVec.le_def, hsum, hw]
  omega

theorem State.Passed.next {s : State} (h : s.Passed n) (hn : n < 2 ^ 32 - 32) :
    ∃ t, Runs s t ∧ t.Passed (n + 1) := by
  have hroom := h.room hn
  have hwrite := Runs.writes { s with writer := .test 0 [0] } 8
  simp only [Function.iterate_succ_apply, Function.iterate_zero_apply, State.write, hroom, List.length_singleton,
    Nat.zero_lt_one, if_true, if_false, Nat.lt_irrefl, Nat.zero_add] at hwrite
  -- The state with the byte in the pipe.
  generalize ht : ({ s with buf := _, wpos := _, writer := .idle, supplied := _ } : State) = t at hwrite
  have hne : ¬ t.rpos = t.wpos := by
    rw [← ht, h.rpos, h.wpos]
    intro heq
    have := congrArg BitVec.toNat heq
    simp at this
    omega
  have hread := Runs.reads { t with reader := .test 0 1 } 9
  simp only [Function.iterate_succ_apply, Function.iterate_zero_apply, State.read, hne, Nat.zero_lt_one, if_true,
    if_false, Nat.lt_irrefl, Nat.zero_add] at hread
  have hrun := (Relation.ReflTransGen.head (.startWrite [0] h.writer) hwrite).trans
    (.head (.startRead 1 (by rw [← ht]; exact h.reader)) hread)
  refine ⟨_, hrun, rfl, ?_, ?_, ?_⟩
  · rw [← ht]
  · rw [← ht]
    simp [h.rpos, BitVec.ofNat_add]
  · rw [← ht]
    simp [h.wpos, BitVec.ofNat_add]

theorem passed (hn : n ≤ 2 ^ 31 + 1) : ∃ s, Runs initial s ∧ s.Passed n := by
  induction n with
  | zero => exact ⟨_, .refl, rfl, rfl, rfl, rfl⟩
  | succ n ih =>
    obtain ⟨s, hrun, hs⟩ := ih (by omega)
    obtain ⟨t, hrun', ht⟩ := hs.next (by omega)
    exact ⟨t, hrun.trans hrun', ht⟩

/-- After 2^31 + 1 bytes the writer stores the next one outside of `p_buf`. -/
theorem long_stream_leaves_buffer : ∃ s i data w, Runs initial s ∧ s.writer = .storeByte i data w ∧
    ¬ slotOf w < pipebufsiz := by
  obtain ⟨s, hrun, hs⟩ := passed (n := 2 ^ 31 + 1) (Nat.le_refl _)
  have hroom := hs.room (by decide)
  have hwrite := Runs.writes { s with writer := .test 0 [0] } 4
  simp only [Function.iterate_succ_apply, Function.iterate_zero_apply, State.write, hroom, List.length_singleton,
    Nat.zero_lt_one, if_true, if_false] at hwrite
  refine ⟨_, _, _, _, hrun.trans (.head (.startWrite [0] hs.writer) hwrite), rfl, ?_⟩
  rw [hs.wpos]
  exact slotOf_next

end Jos.Pipe
