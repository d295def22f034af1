import Jos.Kern.Mmu
import Jos.Lib.Ring

/-!
# The transmit ring of the network card (`kern/e1000.c`, `kern/e1000.h`)

The driver and the card share a ring of descriptors and the registers `TDH`
and `TDT`. A call of `e1000_transmit` is a sequence of accesses to the ring,
and the card may take a step between any two of them. `wire` lists what the
card has sent, `accepted` the packets for which `e1000_transmit` returned 0.
-/

namespace Jos.E1000

open Lib

def txringLen : Nat := 64
def dataSize : Nat := 4096
def txdStatDD : BitVec 8 := 1#8
def txdCmdEop : Word := 0x01000000#32
def txdCmdRs : Word := 0x08000000#32

abbrev Packet := List (BitVec 8)

/-- `struct e1000_tx_desc`: `lower` has the length in its low half. -/
structure TxDesc where
  bufferAddr : Nat
  lower : Word
  status : BitVec 8

def TxDesc.length (d : TxDesc) : Nat := (d.lower &&& 0xFFFF#32).toNat

def TxDesc.setLength (d : TxDesc) (n : Nat) : TxDesc :=
  { d with lower := (d.lower &&& 0xFFFF0000#32) ||| BitVec.ofNat 32 (n % 65536) }

def TxDesc.setCmd (d : TxDesc) : TxDesc := { d with lower := d.lower ||| (txdCmdRs ||| txdCmdEop) }

/-- Where a call of `e1000_transmit` stands, with its `tail` and its packet. -/
inductive Pc where
  | idle
  | copyData (tail : Nat) (pkt : Packet)
  | storeLength (tail : Nat) (pkt : Packet)
  | clearStatus (tail : Nat) (pkt : Packet)
  | storeCmd (tail : Nat) (pkt : Packet)
  | storeTail (tail : Nat) (pkt : Packet)

structure State where
  pc : Pc
  tdh : Nat
  tdt : Nat
  desc : Nat → TxDesc
  data : Nat → Nat → BitVec 8
  wire : List Packet
  accepted : List Packet

/-- `init_desc` and `e1000_init`; what the data buffers hold is arbitrary. -/
def initial (data : Nat → Nat → BitVec 8) : State where
  pc := .idle
  tdh := 0
  tdt := 0
  desc i := ⟨i, 0, txdStatDD⟩
  data := data
  wire := []
  accepted := []

/-! ## `e1000_transmit` -/

/-- The call reads `TDT` and the status of the tail descriptor; the result is
-1, and nothing changes, unless the card is done with this descriptor. -/
def State.call (s : State) (pkt : Packet) : State :=
  if (s.desc s.tdt).status ≠ txdStatDD then s else { s with pc := .copyData s.tdt pkt }

def State.setDesc (s : State) (i : Nat) (d : TxDesc) (pc : Pc) : State :=
  { s with desc := Function.update s.desc i d, pc := pc }

def State.copyData (s : State) (i : Nat) (pkt : Packet) (pc : Pc) : State :=
  { s with data := Function.update s.data i fun k => pkt.getD k (s.data i k), pc := pc }

/-- The next access of the call in progress; the last one makes it return 0. -/
def State.advance (s : State) : State :=
  match s.pc with
  | .idle => s
  | .copyData i pkt => s.copyData i pkt (.storeLength i pkt)
  | .storeLength i pkt => s.setDesc i ((s.desc i).setLength pkt.length) (.clearStatus i pkt)
  | .clearStatus i pkt => s.setDesc i { s.desc i with status := 0 } (.storeCmd i pkt)
  | .storeCmd i pkt => s.setDesc i (s.desc i).setCmd (.storeTail i pkt)
  | .storeTail i pkt => { s with tdt := (i + 1) % txringLen, accepted := s.accepted ++ [pkt], pc := .idle }

/-! ## The card -/

def State.packet (s : State) (i : Nat) : Packet :=
  (List.range (s.desc i).length).map fun k => s.data (s.desc i).bufferAddr k

def State.send (s : State) : State :=
  { s.setDesc s.tdh { s.desc s.tdh with status := txdStatDD } s.pc with
    wire := s.wire ++ [s.packet s.tdh], tdh := (s.tdh + 1) % txringLen }

inductive Step : State → State → Prop
  | call : s.pc = .idle → pkt.length ≤ dataSize → Step s (s.call pkt)
  | advance : s.pc ≠ .idle → Step s s.advance
  | send : s.tdh ≠ s.tdt → Step s s.send

/-- `TDT` is not stored while that would make it equal to `TDH`. -/
def State.Roomy (s : State) : Prop := ∀ i pkt, s.pc = .storeTail i pkt → (i + 1) % txringLen ≠ s.tdh

def Runs (s t : State) : Prop := Relation.ReflTransGen Step s t

def RoomyRuns (s t : State) : Prop := Relation.ReflTransGen (fun s t => Step s t ∧ s.Roomy) s t

/-! ## The ring carries the packets not yet sent -/

/-- What the call in progress has stored so far at the tail. -/
def State.PcOk (s : State) : Prop :=
  match s.pc with
  | .idle => True
  | .copyData i pkt => i = s.tdt ∧ pkt.length ≤ dataSize
  | .storeLength i pkt => i = s.tdt ∧ pkt.length ≤ dataSize ∧ ∀ k < pkt.length, some (s.data i k) = pkt[k]?
  | .clearStatus i pkt | .storeCmd i pkt | .storeTail i pkt => i = s.tdt ∧ s.packet i = pkt

structure State.Ok (s : State) : Prop where
  head : s.tdh = s.wire.length % txringLen
  tail : s.tdt = s.accepted.length % txringLen
  sent : s.wire <+: s.accepted
  room : s.accepted.length < s.wire.length + txringLen
  pending : Carries txringLen s.packet s.accepted s.wire.length s.accepted.length
  buffers : ∀ i, (s.desc i).bufferAddr = i
  pc : s.PcOk

theorem initial_ok (data : Nat → Nat → BitVec 8) : (initial data).Ok where
  head := rfl
  tail := rfl
  sent := List.prefix_refl _
  room := by simp [initial, txringLen]
  pending := .empty
  buffers _ := rfl
  pc := trivial

theorem TxDesc.length_setLength (d : TxDesc) (hn : n < 65536) : (d.setLength n).length = n := by
  have hmask : ((d.lower &&& 0xFFFF0000#32) ||| BitVec.ofNat 32 (n % 65536)) &&& 0xFFFF#32 =
      BitVec.ofNat 32 (n % 65536) &&& 0xFFFF#32 := by
    rw [BitVec.and_or_distrib_right]
    have hzero : d.lower &&& 0xFFFF0000#32 &&& 0xFFFF#32 = 0#32 := by
      rw [BitVec.and_assoc]
      simp
    rw [hzero, BitVec.zero_or]
  unfold length setLength
  simp only [hmask, BitVec.toNat_and, BitVec.toNat_ofNat]
  rw [Nat.mod_eq_of_lt hn, Nat.mod_eq_of_lt (by omega)]
  exact (Nat.and_two_pow_sub_one_eq_mod n 16).trans (Nat.mod_eq_of_lt hn)

theorem TxDesc.length_setCmd (d : TxDesc) : d.setCmd.length = d.length := by
  have hzero : (txdCmdRs ||| txdCmdEop) &&& 0xFFFF#32 = 0#32 := by decide
  have hmask : (d.lower ||| (txdCmdRs ||| txdCmdEop)) &&& 0xFFFF#32 = d.lower &&& 0xFFFF#32 := by
    rw [BitVec.and_or_distrib_right, hzero, BitVec.or_zero]
  exact congrArg BitVec.toNat hmask

theorem State.packet_congr {s t : State} (hl : (t.desc i).length = (s.desc i).length)
    (hb : (t.desc i).bufferAddr = (s.desc i).bufferAddr)
    (hd : t.data (s.desc i).bufferAddr = s.data (s.desc i).bufferAddr) : t.packet i = s.packet i := by
  unfold State.packet
  rw [hl, hb, hd]

namespace State.Ok

variable {s : State} {next : Pc}

section
variable (h : s.Ok)
include h

theorem pending_congr {slot : Nat → Packet} (hs : ∀ i, i ≠ s.tdt → slot i = s.packet i) :
    Carries txringLen slot s.accepted s.wire.length s.accepted.length :=
  h.pending.congr h.room fun i hi => hs i (h.tail ▸ hi)

theorem setDesc (hd : d.bufferAddr = s.tdt) (hpc : (s.setDesc s.tdt d next).PcOk) : (s.setDesc s.tdt d next).Ok where
  head := h.head
  tail := h.tail
  sent := h.sent
  room := h.room
  pending := h.pending_congr fun i hi => by
    apply packet_congr <;> simp [State.setDesc, hi]
  buffers i := by
    by_cases hi : i = s.tdt
    · simp [State.setDesc, hi, hd]
    · simp [State.setDesc, hi, h.buffers i]
  pc := hpc

theorem copyData (hpc : (s.copyData s.tdt pkt next).PcOk) : (s.copyData s.tdt pkt next).Ok where
  head := h.head
  tail := h.tail
  sent := h.sent
  room := h.room
  pending := h.pending_congr fun i hi => by
    apply packet_congr <;> simp [State.copyData, h.buffers i, hi]
  buffers := h.buffers
  pc := hpc

theorem call (hpkt : pkt.length ≤ dataSize) : (s.call pkt).Ok := by
  unfold State.call
  split
  · exact h
  · exact ⟨h.head, h.tail, h.sent, h.room, h.pending, h.buffers, rfl, hpkt⟩

theorem advance (hroom : s.Roomy) : s.advance.Ok := by
  have hpc := h.pc
  cases hs : s.pc with
  | idle =>
    simp only [State.advance, hs]
    exact h
  | copyData i pkt =>
    simp only [State.PcOk, hs] at hpc
    obtain ⟨rfl, hlen⟩ := hpc
    simp only [State.advance, hs]
    refine h.copyData ⟨rfl, hlen, ?_⟩
    intro k hk
    simp [State.copyData, hk]
  | storeLength i pkt =>
    simp only [State.PcOk, hs] at hpc
    obtain ⟨rfl, hlen, hdata⟩ := hpc
    simp only [State.advance, hs]
    refine h.setDesc (h.buffers _) ⟨rfl, ?_⟩
    unfold dataSize at hlen
    have hb : ((s.desc s.tdt).setLength pkt.length).bufferAddr = s.tdt := h.buffers s.tdt
    simp only [State.packet, State.setDesc, Function.update_self, TxDesc.length_setLength _ (show pkt.length < 65536 by omega), hb]
    apply List.ext_getElem?
    intro k
    by_cases hk : k < pkt.length
    · rw [← hdata k hk]
      simp [hk]
    · simp [hk]
  | clearStatus i pkt =>
    simp only [State.PcOk, hs] at hpc
    obtain ⟨rfl, hpacket⟩ := hpc
    simp only [State.advance, hs]
    refine h.setDesc (h.buffers _) ⟨rfl, Eq.trans ?_ hpacket⟩
    apply packet_congr <;> simp [State.setDesc, TxDesc.length]
  | storeCmd i pkt =>
    simp only [State.PcOk, hs] at hpc
    obtain ⟨rfl, hpacket⟩ := hpc
    simp only [State.advance, hs]
    refine h.setDesc (h.buffers _) ⟨rfl, Eq.trans ?_ hpacket⟩
    apply packet_congr
    · simp [State.setDesc, TxDesc.length_setCmd]
    · simp [State.setDesc, TxDesc.setCmd]
    · simp [State.setDesc]
  | storeTail i pkt =>
    have hne := hroom i pkt hs
    simp only [State.PcOk, hs] at hpc
    obtain ⟨rfl, hpacket⟩ := hpc
    simp only [State.advance, hs]
    have htail := h.tail
    have hhead := h.head
    have hroom := h.room
    unfold txringLen at *
    refine ⟨h.head, ?_, h.sent.trans (List.prefix_append ..), ?_, ?_, h.buffers, trivial⟩
    · simp only [List.length_append, List.length_singleton, txringLen]
      omega
    · simp only [List.length_append, List.length_singleton, txringLen]
      omega
    · rw [List.length_append]
      exact h.pending.push rfl (htail ▸ hpacket)

theorem send (hne : s.tdh ≠ s.tdt) : s.send.Ok := by
  have hle := h.sent.length_le
  have hlt : s.wire.length < s.accepted.length := by
    have htail := h.tail
    have hhead := h.head
    by_contra hge
    have heq : s.wire.length = s.accepted.length := by omega
    exact hne (by rw [hhead, htail, heq])
  have hpacket : ∀ i, s.send.packet i = s.packet i := by
    intro i
    by_cases hi : i = s.tdh
    · subst hi
      apply packet_congr <;> simp [State.send, State.setDesc, TxDesc.length]
    · apply packet_congr <;> simp [State.send, State.setDesc, hi]
  have hnext := h.pending.head hlt
  rw [← h.head] at hnext
  refine ⟨?_, h.tail, prefix_snoc h.sent hnext, ?_, ?_, ?_, ?_⟩
  · have hhead := h.head
    simp only [State.send, List.length_append, List.length_singleton]
    unfold txringLen at *
    omega
  · have hroom := h.room
    simp only [State.send, State.setDesc, List.length_append, List.length_singleton]
    omega
  · intro i hlo hhi
    rw [hpacket]
    simp only [State.send, List.length_append, List.length_singleton] at hlo
    exact h.pending.pop i hlo hhi
  · intro i
    by_cases hi : i = s.tdh
    · simp [State.send, State.setDesc, hi, h.buffers]
    · simp [State.send, State.setDesc, hi, h.buffers]
  · have hpc := h.pc
    have hsend : s.send.pc = s.pc := rfl
    simp only [State.PcOk, hsend] at hpc ⊢
    cases hs : s.pc with
    | idle => trivial
    | copyData i pkt | storeLength i pkt =>
      simp only [hs] at hpc ⊢
      exact hpc
    | clearStatus i pkt | storeCmd i pkt | storeTail i pkt =>
      simp only [hs] at hpc ⊢
      exact ⟨hpc.1, (hpacket i).trans hpc.2⟩

theorem step (hs : Step s t) (hroom : s.Roomy) : t.Ok := by
  cases hs with
  | call _ hpkt => exact h.call hpkt
  | advance _ => exact h.advance hroom
  | send hne => exact h.send hne

theorem runs (hs : RoomyRuns s t) : t.Ok := by
  induction hs with
  | refl => exact h
  | tail _ hstep ih => exact ih.step hstep.1 hstep.2

end

end State.Ok

/-- What is sent is what was accepted, in order, and the registers count what waits. -/
structure State.Lossless (s : State) : Prop where
  sent : s.wire <+: s.accepted
  waiting : s.accepted.length - s.wire.length = (s.tdt + txringLen - s.tdh) % txringLen

/-- Nothing is lost as long as `TDT` never catches up with `TDH`. -/
theorem transmit_lossless (data : Nat → Nat → BitVec 8) (h : RoomyRuns (initial data) s) : s.Lossless := by
  have hok := (initial_ok data).runs h
  refine ⟨hok.sent, ?_⟩
  have hle := hok.sent.length_le
  have hhead := hok.head
  have htail := hok.tail
  have hroom := hok.room
  unfold txringLen at *
  omega

/-- One packet is accepted, and the card sends it. -/
theorem transmit_lossless_one :
    ∃ s, RoomyRuns (initial fun _ _ => 0) s ∧ s.wire = [[]] ∧ s.Lossless := by
  have hcall : Step (initial fun _ _ => 0) ((initial fun _ _ => 0).call []) := .call rfl (by decide)
  have hruns : RoomyRuns (initial fun _ _ => 0)
      ((initial fun _ _ => 0).call []).advance.advance.advance.advance.advance.send := by
    refine .head ⟨hcall, ?_⟩ (.head ⟨.advance ?_, ?_⟩ (.head ⟨.advance ?_, ?_⟩ (.head ⟨.advance ?_, ?_⟩
      (.head ⟨.advance ?_, ?_⟩ (.head ⟨.advance ?_, ?_⟩ (.single ⟨.send ?_, ?_⟩))))))
    all_goals simp [State.Roomy, State.call, State.advance, State.setDesc, State.copyData, initial, txringLen]
  exact ⟨_, hruns, by decide, transmit_lossless _ hruns⟩

theorem State.transmits {s : State} (hpc : s.pc = .idle) (hst : (s.desc s.tdt).status = txdStatDD) :
    ∃ t, Runs s t ∧ t.pc = .idle ∧ t.tdh = s.tdh ∧ t.tdt = (s.tdt + 1) % txringLen ∧ t.wire = s.wire ∧
      t.accepted = s.accepted ++ [[]] ∧ ∀ i, i ≠ s.tdt → (t.desc i).status = (s.desc i).status := by
  have hcall : s.call [] = { s with pc := .copyData s.tdt [] } := by
    simp [State.call, hst]
  have hstep : Step s (s.call []) := .call hpc (by decide)
  rw [hcall] at hstep
  refine ⟨State.advance (State.advance (State.advance (State.advance (State.advance
    { s with pc := .copyData s.tdt [] })))), ?_, ?_⟩
  · refine .head hstep (.head (.advance ?_) (.head (.advance ?_) (.head (.advance ?_) (.head (.advance ?_)
      (.single (.advance ?_))))))
    all_goals simp [State.advance, State.setDesc, State.copyData]
  · simp only [State.advance, State.setDesc, State.copyData, true_and]
    intro i hi
    simp [hi]

theorem fills : n ≤ txringLen → ∃ s, Runs (initial fun _ _ => 0) s ∧ s.pc = .idle ∧ s.tdh = 0 ∧
    s.tdt = n % txringLen ∧ s.wire = [] ∧ s.accepted.length = n ∧
    ∀ i, n ≤ i → (s.desc i).status = txdStatDD := by
  induction n with
  | zero => exact fun _ => ⟨_, .refl, rfl, rfl, rfl, rfl, rfl, fun _ _ => rfl⟩
  | succ n ih =>
    intro hn
    obtain ⟨s, hruns, hpc, hh, ht, hw, ha, hst⟩ := ih (by omega)
    unfold txringLen at hn ht
    rw [Nat.mod_eq_of_lt (by omega)] at ht
    obtain ⟨t, hruns', hpc', hh', ht', hw', ha', hst'⟩ := State.transmits hpc (ht ▸ hst n (Nat.le_refl n))
    refine ⟨t, hruns.trans hruns', hpc', hh'.trans hh, by rw [ht', ht], hw'.trans hw, by simp [ha', ha], ?_⟩
    intro i hi
    rw [hst' i (by omega)]
    exact hst i (by omega)

/-- 64 packets accepted in a row: the card takes the ring for empty. -/
theorem full_ring_looks_empty :
    ∃ s, Runs (initial fun _ _ => 0) s ∧ s.accepted.length = 64 ∧ s.wire = [] ∧ s.tdh = s.tdt ∧ ¬ s.Lossless := by
  obtain ⟨s, hruns, -, hh, ht, hw, ha, -⟩ := fills (Nat.le_refl txringLen)
  refine ⟨s, hruns, ha, hw, by rw [hh, ht, Nat.mod_self], ?_⟩
  intro hl
  have hcount := hl.waiting
  rw [ha, hw, hh, ht] at hcount
  simp [txringLen] at hcount

end Jos.E1000
