import Jos.Kern.Syscall
import Jos.Lib.Ring
import Mathlib.Data.List.Basic

/-!
# Console input (`kern/console.c`)

Characters come from the keyboard and from the serial port. Their interrupts,
and `cons_getc` itself, move what the devices have into a ring, from which
`cons_getc` takes one. `serial` and `kbd` are what `serial_proc_data` and
`kbd_proc_data` will return before they return -1; both return 0 for what is no
character. The dispatcher calls `sys_cgetc` and returns 0.
-/

namespace Jos.Console

open Lib

abbrev Byte := BitVec 8

def consbufsize : Nat := 512

structure Cons where
  buf : Nat → Byte
  rpos : Nat
  wpos : Nat

structure Console where
  cons : Cons
  serial : List Byte
  kbd : List Byte
  serialExists : Bool

def advance (pos : Nat) : Nat := if pos + 1 = consbufsize then 0 else pos + 1

def Cons.put (s : Cons) (c : Byte) : Cons :=
  { s with buf := Function.update s.buf s.wpos c, wpos := advance s.wpos }

def consIntr (s : Cons) : List Byte → Cons
  | [] => s
  | c :: rest => if c = 0 then consIntr s rest else consIntr (s.put c) rest

def serialIntr (s : Console) : Console :=
  if s.serialExists then { s with cons := consIntr s.cons s.serial, serial := [] } else s

def kbdIntr (s : Console) : Console := { s with cons := consIntr s.cons s.kbd, kbd := [] }

def consGetc (s : Console) : Byte × Console :=
  let s := kbdIntr (serialIntr s)
  if s.cons.rpos ≠ s.cons.wpos then
    (s.cons.buf s.cons.rpos, { s with cons := { s.cons with rpos := advance s.cons.rpos } })
  else (0, s)

def sysCgetc (s : Console) : Byte × Console := consGetc s

def syscallCgetc (s : Console) : Word × Console := (0, (sysCgetc s).2)

theorem syscall_cgetc (c : Nat) (cur : EnvPtr) (a1 a2 a3 a4 a5 : Word) (k : Kernel) (s : Console) :
    exec (syscall c cur 1 a1 a2 a3 a4 a5) k = (.ok (syscallCgetc s).1, k) := rfl

/-! ## Runs -/

inductive Event
  /-- The keyboard, or the serial port, has one more value for the kernel. -/
  | key (c : Byte)
  | receive (c : Byte)
  | kbdIntr
  | serialIntr
  | cgetc

/-- The console, with what the devices have delivered, what `cons_getc` has
taken from the ring and what the calls have returned, all without zeros. -/
structure State where
  console : Console
  delivered : List Byte
  taken : List Byte
  returned : List Word

def characters (l : List Byte) : List Byte := l.filter (· ≠ 0)

def fromSerial (s : Console) : List Byte := if s.serialExists then characters s.serial else []

def delivers (s : Console) : Event → List Byte
  | .kbdIntr => characters s.kbd
  | .serialIntr => fromSerial s
  | .cgetc => fromSerial s ++ characters s.kbd
  | _ => []

def Event.apply (s : Console) : Event → Console
  | .key c => { s with kbd := s.kbd ++ [c] }
  | .receive c => { s with serial := s.serial ++ [c] }
  | .kbdIntr => Console.kbdIntr s
  | .serialIntr => Console.serialIntr s
  | .cgetc => (syscallCgetc s).2

def step (s : State) (e : Event) : State where
  console := e.apply s.console
  delivered := s.delivered ++ delivers s.console e
  taken := s.taken ++ match e with
    | .cgetc => characters [(sysCgetc s.console).1]
    | _ => []
  returned := s.returned ++ match e with
    | .cgetc => [(syscallCgetc s.console).1].filter (· ≠ 0)
    | _ => []

def run (s : State) (es : List Event) : State := es.foldl step s

def initial (serialExists : Bool) : State :=
  ⟨⟨⟨fun _ => 0, 0, 0⟩, [], [], serialExists⟩, [], [], []⟩

/-- Fewer than `CONSBUFSIZE` characters are in the ring at any time. -/
def Fits (s : State) : List Event → Prop
  | [] => True
  | e :: es => (s.delivered ++ delivers s.console e).length < s.taken.length + consbufsize ∧ Fits (step s e) es

def Cons.pending (s : Cons) : List Byte :=
  (List.range ((s.wpos + consbufsize - s.rpos) % consbufsize)).map fun i => s.buf ((s.rpos + i) % consbufsize)

/-- What the devices have delivered has been returned, in this order, or is
still in the ring. -/
def Reaches (s : State) : Prop :=
  s.delivered.map (BitVec.setWidth 32) = s.returned ++ s.console.cons.pending.map (BitVec.setWidth 32)

def Nothing (s : Console) : Prop := s.cons.pending = [] ∧ fromSerial s = [] ∧ characters s.kbd = []

def Idle (s : State) : List Event → Prop
  | [] => True
  | e :: es => (e = .cgetc → Nothing s.console) ∧ Idle (step s e) es

/-! ## The ring -/

/-- The ring holds what follows the first `r` characters of `log`. -/
structure Ring (s : Cons) (log : List Byte) (r : Nat) : Prop where
  rpos : s.rpos = r % consbufsize
  wpos : s.wpos = log.length % consbufsize
  le : r ≤ log.length
  room : log.length < r + consbufsize
  carries : Carries consbufsize s.buf log r log.length

theorem characters_zero (l : List Byte) : characters (0 :: l) = characters l :=
  List.filter_cons_of_neg (by decide)

theorem characters_cons (h : c ≠ 0) : characters (c :: l) = c :: characters l :=
  List.filter_cons_of_pos (decide_eq_true h)

theorem advance_mod (n : Nat) : advance (n % consbufsize) = (n + 1) % consbufsize := by
  unfold advance consbufsize
  split <;> omega

namespace Ring

variable {s : Cons} {log : List Byte} {r : Nat}

section
variable (h : Ring s log r)
include h

theorem put (hroom : log.length + 1 < r + consbufsize) : Ring (s.put c) (log ++ [c]) r where
  rpos := h.rpos
  wpos := by
    rw [List.length_append, List.length_singleton, ← advance_mod, ← h.wpos]
    rfl
  le := by
    have hle := h.le
    simp only [List.length_append, List.length_singleton]
    omega
  room := by
    simp only [List.length_append, List.length_singleton]
    exact hroom
  carries := by
    have hbuf : ∀ k, k ≠ log.length % consbufsize → (s.put c).buf k = s.buf k := by
      intro k hk
      exact Function.update_of_ne (h.wpos ▸ hk) ..
    rw [List.length_append, List.length_singleton]
    refine (h.carries.congr h.room hbuf).push rfl ?_
    rw [← h.wpos]
    exact Function.update_self ..

theorem intr (hroom : (log ++ characters q).length < r + consbufsize) :
    Ring (consIntr s q) (log ++ characters q) r := by
  induction q generalizing s log with
  | nil => simpa [consIntr, characters] using h
  | cons c q ih =>
    unfold consIntr
    split
    · rename_i h0
      subst h0
      rw [characters_zero] at hroom ⊢
      exact ih h hroom
    · rename_i h0
      rw [characters_cons h0, ← List.singleton_append, ← List.append_assoc] at hroom ⊢
      refine ih (h.put ?_) hroom
      simp only [List.length_append, List.length_singleton] at hroom
      omega

theorem empty_iff : s.rpos = s.wpos ↔ r = log.length := by
  have hle := h.le
  have hroom := h.room
  rw [h.rpos, h.wpos]
  unfold consbufsize at *
  omega

theorem take (hlt : r < log.length) :
    log[r]? = some (s.buf s.rpos) ∧ Ring { s with rpos := advance s.rpos } log (r + 1) := by
  refine ⟨h.rpos ▸ h.carries.head hlt, ?_, h.wpos, hlt, ?_, h.carries.pop⟩
  · change advance s.rpos = _
    rw [h.rpos, advance_mod]
  · have hroom := h.room
    omega

theorem pending : s.pending = log.drop r := by
  have hle := h.le
  have hroom := h.room
  have hlen : (s.wpos + consbufsize - s.rpos) % consbufsize = log.length - r := by
    rw [h.rpos, h.wpos]
    unfold consbufsize at *
    omega
  unfold Cons.pending
  rw [hlen]
  refine List.ext_getElem? fun i => ?_
  rw [List.getElem?_map, List.getElem?_drop]
  by_cases hi : i < log.length - r
  · have hslot : (s.rpos + i) % consbufsize = (r + i) % consbufsize := by
      rw [h.rpos]
      unfold consbufsize
      omega
    rw [List.getElem?_range hi, h.carries (r + i) (by omega) (by omega), ← hslot]
    rfl
  · rw [List.getElem?_eq_none (by simp; omega), List.getElem?_eq_none (by omega)]
    rfl

end

theorem kbdIntr {s : Console} (h : Ring s.cons log r)
    (hroom : (log ++ characters s.kbd).length < r + consbufsize) :
    Ring (Console.kbdIntr s).cons (log ++ characters s.kbd) r := h.intr hroom

theorem serialIntr {s : Console} (h : Ring s.cons log r) (hroom : (log ++ fromSerial s).length < r + consbufsize) :
    Ring (Console.serialIntr s).cons (log ++ fromSerial s) r := by
  unfold fromSerial Console.serialIntr at *
  split
  · rename_i hser
    rw [if_pos hser] at hroom
    exact h.intr hroom
  · simpa using h

end Ring

/-! ## One event -/

theorem kbd_serialIntr (s : Console) : (Console.serialIntr s).kbd = s.kbd := by
  unfold Console.serialIntr
  split <;> rfl

theorem consGetc_ring {s : Console} (h : Ring s.cons log r)
    (hroom : (log ++ (fromSerial s ++ characters s.kbd)).length < r + consbufsize) :
    (r < (log ++ (fromSerial s ++ characters s.kbd)).length ∧
      (log ++ (fromSerial s ++ characters s.kbd))[r]? = some (consGetc s).1 ∧
      Ring (consGetc s).2.cons (log ++ (fromSerial s ++ characters s.kbd)) (r + 1)) ∨
    (r = (log ++ (fromSerial s ++ characters s.kbd)).length ∧ (consGetc s).1 = 0 ∧
      Ring (consGetc s).2.cons (log ++ (fromSerial s ++ characters s.kbd)) r) := by
  rw [← List.append_assoc] at hroom ⊢
  have hser := h.serialIntr (by simp only [List.length_append] at hroom ⊢; omega)
  have hkbd := Ring.kbdIntr hser (by rwa [kbd_serialIntr])
  rw [kbd_serialIntr] at hkbd
  unfold consGetc
  dsimp only
  split
  · rename_i hne
    have hlt := Nat.lt_of_le_of_ne hkbd.le (mt hkbd.empty_iff.2 hne)
    exact .inl ⟨hlt, (hkbd.take hlt).1, (hkbd.take hlt).2⟩
  · rename_i heq
    exact .inr ⟨hkbd.empty_iff.1 (not_not.1 heq), rfl, hkbd⟩

/-- The run so far: the ring holds what was delivered and not taken. -/
structure Inv (s : State) : Prop where
  ring : Ring s.console.cons s.delivered s.taken.length
  took : s.taken <+: s.delivered
  chars : ∀ c ∈ s.delivered, c ≠ 0
  none : s.returned = []

theorem mem_delivers (h : c ∈ delivers s e) : c ≠ 0 := by
  have hchars : ∀ l : List Byte, c ∈ characters l → c ≠ 0 := fun l hc => of_decide_eq_true (List.mem_filter.1 hc).2
  have hser : c ∈ fromSerial s → c ≠ 0 := by
    unfold fromSerial
    split
    · exact hchars _
    · exact fun hc => absurd hc List.not_mem_nil
  cases e with
  | key => exact absurd h List.not_mem_nil
  | receive => exact absurd h List.not_mem_nil
  | kbdIntr => exact hchars _ h
  | serialIntr => exact hser h
  | cgetc => exact (List.mem_append.1 h).elim hser (hchars _)

section
variable {s : State} {e : Event}

theorem Inv.chars_step (h : Inv s) : ∀ c ∈ (step s e).delivered, c ≠ 0 := by
  intro c hc
  rcases List.mem_append.1 hc with hc | hc
  · exact h.chars c hc
  · exact mem_delivers hc

theorem Inv.took_step (h : Inv s) (e : Event) : s.taken <+: (step s e).delivered :=
  h.took.trans (List.prefix_append ..)

theorem Inv.of_ring (h : Inv s) (htaken : (step s e).taken = s.taken) (hret : (step s e).returned = s.returned)
    (hring : Ring (step s e).console.cons (step s e).delivered s.taken.length) : Inv (step s e) where
  ring := htaken ▸ hring
  took := htaken ▸ h.took_step e
  chars := h.chars_step
  none := hret.trans h.none

theorem Inv.step_ok (h : Inv s) (hroom : (s.delivered ++ delivers s.console e).length < s.taken.length + consbufsize) :
    Inv (step s e) ∧ ((step s e).taken = s.taken ↔ (e = .cgetc → Nothing s.console)) := by
  have hring := h.ring
  cases e with
  | key c =>
    refine ⟨h.of_ring (List.append_nil _) (List.append_nil _) ?_, iff_of_true (List.append_nil _) (fun he => by cases he)⟩
    simpa [step, delivers, Event.apply] using hring
  | receive c =>
    refine ⟨h.of_ring (List.append_nil _) (List.append_nil _) ?_, iff_of_true (List.append_nil _) (fun he => by cases he)⟩
    simpa [step, delivers, Event.apply] using hring
  | kbdIntr =>
    exact ⟨h.of_ring (List.append_nil _) (List.append_nil _) (hring.kbdIntr hroom),
      iff_of_true (List.append_nil _) (fun he => by cases he)⟩
  | serialIntr =>
    exact ⟨h.of_ring (List.append_nil _) (List.append_nil _) (hring.serialIntr hroom),
      iff_of_true (List.append_nil _) (fun he => by cases he)⟩
  | cgetc =>
    have hret : (step s .cgetc).returned = s.returned := List.append_nil _
    have htaken : (step s .cgetc).taken = s.taken ++ characters [(consGetc s.console).1] := rfl
    rcases consGetc_ring hring hroom with ⟨hlt, hget, hring'⟩ | ⟨hend, h0, hring'⟩
    · have hne : (consGetc s.console).1 ≠ 0 := h.chars_step (e := .cgetc) _ (List.mem_of_getElem? hget)
      rw [characters_cons hne] at htaken
      have hlen : (step s .cgetc).taken.length = s.taken.length + 1 := by
        rw [htaken]
        simp [characters]
      refine ⟨⟨hlen ▸ hring', ?_, h.chars_step, hret.trans h.none⟩, ?_⟩
      · rw [htaken]
        exact prefix_snoc (h.took_step .cgetc) hget
      · refine iff_of_false (fun heq => ?_) fun hidle => ?_
        · rw [heq] at hlen
          omega
        · obtain ⟨hpend, hser, hkbd⟩ := hidle rfl
          rw [hring.pending] at hpend
          rw [hser, hkbd] at hlt
          have hle := List.drop_eq_nil_iff.1 hpend
          simp only [List.append_nil] at hlt
          omega
    · rw [h0, characters_zero] at htaken
      have heq : (step s .cgetc).taken = s.taken := htaken.trans (List.append_nil _)
      refine ⟨h.of_ring heq hret hring', iff_of_true heq fun _ => ?_⟩
      have hle := hring.le
      simp only [List.length_append] at hend
      refine ⟨?_, List.eq_nil_of_length_eq_zero (by omega), List.eq_nil_of_length_eq_zero (by omega)⟩
      rw [hring.pending]
      exact List.drop_eq_nil_of_le (by omega)

theorem taken_run (s : State) (es : List Event) : s.taken <+: (run s es).taken := by
  induction es generalizing s with
  | nil => exact List.prefix_rfl
  | cons e es ih => exact (List.prefix_append ..).trans (ih (step s e))

theorem Inv.run_ok (h : Inv s) (hfit : Fits s es) :
    Inv (run s es) ∧ ((run s es).taken = s.taken ↔ Idle s es) := by
  induction es generalizing s with
  | nil => exact ⟨h, iff_of_true rfl trivial⟩
  | cons e es ih =>
    obtain ⟨hroom, hrest⟩ := hfit
    obtain ⟨hstep, htaken⟩ := h.step_ok hroom
    obtain ⟨hrun, hiff⟩ := ih hstep hrest
    refine ⟨hrun, ?_⟩
    change (run (step s e) es).taken = s.taken ↔ (e = .cgetc → Nothing s.console) ∧ Idle (step s e) es
    rw [← htaken, ← hiff]
    constructor
    · intro heq
      have hpre := taken_run (step s e) es
      have hfirst : (step s e).taken = s.taken :=
        (hpre.trans (heq ▸ List.prefix_rfl)).eq_of_length_le (List.prefix_append ..).length_le
      exact ⟨hfirst, heq.trans hfirst.symm⟩
    · rintro ⟨hfirst, hlater⟩
      exact hlater.trans hfirst

theorem Inv.reaches_iff (h : Inv s) : Reaches s ↔ s.taken = [] := by
  unfold Reaches
  rw [h.none, h.ring.pending, List.nil_append]
  constructor
  · intro heq
    have hlen := congrArg List.length heq
    have hle := h.ring.le
    simp only [List.length_map, List.length_drop] at hlen
    by_contra hne
    have hpos := List.length_pos_of_ne_nil hne
    omega
  · intro h0
    rw [h0]
    rfl

end

theorem initial_inv (serialExists : Bool) : Inv (initial serialExists) where
  ring := ⟨rfl, rfl, Nat.le_refl _, (by decide : 0 < 0 + consbufsize), .empty⟩
  took := List.prefix_rfl
  chars c hc := absurd hc List.not_mem_nil
  none := rfl

/-- However interrupts and calls interleave, what the devices deliver reaches
the callers only as long as they call when there is nothing. -/
theorem console_input_reaches_iff (serialExists : Bool) (es : List Event) (hfit : Fits (initial serialExists) es) :
    Reaches (run (initial serialExists) es) ↔ Idle (initial serialExists) es := by
  obtain ⟨hinv, htaken⟩ := (initial_inv serialExists).run_ok hfit
  rw [hinv.reaches_iff]
  exact htaken

/-- A call, and then a key. -/
theorem console_input_reaches_late : Reaches (run (initial true) [.cgetc, .key 97, .kbdIntr]) :=
  (console_input_reaches_iff true [.cgetc, .key 97, .kbdIntr] ⟨by decide, by decide, by decide, trivial⟩).2
    ⟨fun _ => ⟨rfl, rfl, rfl⟩, fun h => (by cases h), fun h => (by cases h), trivial⟩

/-- A key is pressed, and the call returns 0. -/
theorem key_is_lost : Fits (initial true) [.key 97, .kbdIntr, .cgetc] ∧
    (run (initial true) [.key 97, .kbdIntr, .cgetc]).delivered = [97] ∧
    (run (initial true) [.key 97, .kbdIntr, .cgetc]).returned = [] ∧
    (run (initial true) [.key 97, .kbdIntr, .cgetc]).console.cons.pending = [] ∧
    ¬ Reaches (run (initial true) [.key 97, .kbdIntr, .cgetc]) := by
  refine ⟨⟨by decide, by decide, by decide, trivial⟩, rfl, rfl, rfl, fun h => ?_⟩
  cases h

/-! ## The ring as a queue -/

/-- What was delivered has been taken, in this order, or waits in the ring. -/
structure Fifo (s : State) : Prop where
  order : s.taken ++ s.console.cons.pending = s.delivered
  rpos_lt : s.console.cons.rpos < consbufsize
  wpos_lt : s.console.cons.wpos < consbufsize

theorem Inv.fifo (h : Inv s) : Fifo s where
  order := by
    rw [h.ring.pending]
    exact List.prefix_iff_eq_append.1 h.took
  rpos_lt := h.ring.rpos ▸ Nat.mod_lt _ (by decide)
  wpos_lt := h.ring.wpos ▸ Nat.mod_lt _ (by decide)

theorem step_taken_iff (s : State) : (step s .cgetc).taken = s.taken ↔ (consGetc s.console).1 = 0 := by
  change s.taken ++ characters [(consGetc s.console).1] = s.taken ↔ _
  rw [List.append_right_eq_self, characters, List.filter_eq_nil_iff]
  simp

/-- However interrupts and calls interleave, `cons_getc` takes what was delivered
in its order, and returns 0 exactly when there is nothing. -/
theorem console_ring_fifo (serialExists : Bool) (es : List Event) (hfit : Fits (initial serialExists) es) :
    Fifo (run (initial serialExists) es) ∧
      (Fits (run (initial serialExists) es) [.cgetc] →
        ((consGetc (run (initial serialExists) es).console).1 = 0 ↔ Nothing (run (initial serialExists) es).console)) := by
  have hinv := ((initial_inv serialExists).run_ok hfit).1
  refine ⟨hinv.fifo, fun hroom => ?_⟩
  rw [← step_taken_iff, (hinv.step_ok hroom.1).2]
  exact ⟨fun h => h rfl, fun h _ => h⟩

/-- Two keys, an interrupt, and a call that polls for one more. -/
theorem console_ring_fifo_keys : (run (initial true) [.key 97, .key 98, .kbdIntr, .receive 99, .cgetc]).taken = [97] ∧
    Fifo (run (initial true) [.key 97, .key 98, .kbdIntr, .receive 99, .cgetc]) :=
  ⟨rfl, (console_ring_fifo true [.key 97, .key 98, .kbdIntr, .receive 99, .cgetc]
    ⟨by decide, by decide, by decide, by decide, by decide, trivial⟩).1⟩

end Jos.Console
