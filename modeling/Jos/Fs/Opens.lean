import Jos.Fs.Frames

/-!
# File ids (`fs/serv.c`, `lib/pageref.c`)

Whether an open file is still in use is read off the reference count of its
`Fd` page: one for the server's own mapping, one for each mapping of a client,
and one more while the request page is that very page. `opens` lists the
opens that succeeded, with what became of them.
-/

namespace Jos.Fs

open Lib

/-! ## What `serve_open` does to the table -/

/-- Entry `i` is handed out. -/
structure HandsOut (s t : Fs) (i : Nat) : Prop where
  lt : i < maxopen
  unused : (s.opentab i).fdRef ≤ 1
  fileid : (t.opentab i).fileid = (s.opentab i).fileid + 1024#32
  fdRef : (t.opentab i).fdRef = 1
  others : ∀ j, j ≠ i → t.opentab j = s.opentab j

theorem HandsOut.congr (h : HandsOut s t i) (hu : u.opentab = t.opentab) : HandsOut s u i :=
  ⟨h.lt, h.unused, hu ▸ h.fileid, hu ▸ h.fdRef, hu ▸ h.others⟩

/-- Either no entry is free, or one is handed out, and then possibly opened. -/
def OpenEffect (s : Fs) (pg : Option Nat) (t : Fs) : Prop :=
  (pg = none ∧ t.opentab = s.opentab) ∨ ∃ i, HandsOut s t i ∧ (pg = none ∨ pg = some i)

theorem serveOpen_effect (s : Fs) :
    Triple serveOpen s (fun r t => OpenEffect s r.2 t) fun _ _ => True := by
  have hquiet : ∀ {α : Type} {m : FsM α} {u : Fs}, Keeps Fs.opentab m →
      Triple m u (fun _ t => t.opentab = u.opentab) fun _ _ => True := by
    intro α m u hm
    cases hx : exec m u with
    | mk r t =>
      cases r with
      | ok a => exact .of_ok hx (hm.eq_of_exec hx)
      | error e => exact .of_error hx trivial
  unfold serveOpen
  refine .bind (.get (Q := fun _ u => s = u) rfl) ?_
  rintro a _ rfl
  unfold openfileAlloc
  refine .bind (Q := fun r t => (r = .error (-eMaxOpen) ∧ t = s) ∨ ∃ i, r = .ok i ∧ HandsOut s t i) ?_ ?_
  · refine .bind (.get (Q := fun a u => s = a ∧ s = u) ⟨rfl, rfl⟩) ?_
    rintro _ _ ⟨rfl, rfl⟩
    dsimp only
    split
    · exact .pure (.inl ⟨rfl, rfl⟩)
    · rename_i i hi
      refine .bind (.modify (Q := fun _ t => HandsOut s t i) ?_) fun _ t ht => .pure (.inr ⟨i, rfl, ht⟩)
      refine ⟨?_, ?_, ?_, ?_, fun j hj => if_neg hj⟩
      · exact List.mem_range.1 (List.mem_of_find?_eq_some hi)
      · simpa using List.find?_some hi
      · simp
      · simp
  · rintro r t (⟨rfl, rfl⟩ | ⟨i, rfl, ht⟩)
    · exact .pure (.inl ⟨rfl, rfl⟩)
    refine .bind (.get (Q := fun _ u => t = u) rfl) ?_
    rintro _ _ rfl
    refine .ite (fun _ => .pure (.inr ⟨i, ht, .inl rfl⟩)) fun _ => ?_
    refine .bind (hquiet (keeps_load _)) fun omode t₁ h₁ => ?_
    refine .bind (hquiet (keeps_openPath offMem_opentab _ _)) fun r t₂ h₂ => ?_
    have ht₂ := ht.congr (h₂.trans h₁)
    cases r with
    | error => exact .pure (.inr ⟨i, ht₂, .inl rfl⟩)
    | ok f =>
      -- Truncated or not, the rest opens the file again and fills the entry in.
      refine have hrest : ∀ u : Fs, u.opentab = t₂.opentab → Triple _ u _ _ := ?_
        .ite (fun _ => .bind (hquiet (keeps_fileSetSize offMem_opentab _ _)) fun _ u hu => hrest u hu)
          fun _ => hrest _ rfl
      intro u hu
      refine .bind (hquiet (keeps_fileOpen offMem_opentab _)) fun r t₃ h₃ => ?_
      have ht₃ := ht₂.congr (h₃.trans hu)
      cases r with
      | error => exact .pure (.inr ⟨i, ht₃, .inl rfl⟩)
      | ok f =>
        refine .bind (.modify (Q := fun _ t => HandsOut s t i) ?_) fun _ t ht => .pure (.inr ⟨i, ht, .inr rfl⟩)
        refine ⟨ht₃.lt, ht₃.unused, ?_, ?_, fun j hj => ?_⟩
        · simpa using ht₃.fileid
        · simpa using ht₃.fdRef
        · simpa [hj] using ht₃.others j hj

/-! ## Histories -/

/-- An open that succeeded: `live` as long as a client has mapped its `Fd` page
all the time since, and `since` counts how often its entry was handed out again. -/
structure Opened where
  slot : Nat
  id : Word
  file : Nat
  live : Bool
  since : Nat

structure History where
  fs : Fs
  allocated : Nat → Bool
  clients : Nat → Nat
  request : Option Nat
  opens : List Opened

namespace History

/-- `pageref` of the `Fd` page of entry `i`; `pp_ref` has 16 bits. -/
def pageref (h : History) (i : Nat) : Nat :=
  if h.allocated i then (1 + h.clients i + if h.request = some i then 1 else 0) % 65536 else 0

def counted (h : History) : History :=
  { h with fs := { h.fs with opentab := fun i => { h.fs.opentab i with fdRef := h.pageref i } } }

def setClients (h : History) (i n : Nat) : History := { h with clients := Function.update h.clients i n }

/-- An entry whose page was gone, or seemed to be, gets a new one. -/
def afterOpen (h : History) (t : Fs) : History :=
  let handed i := decide ((t.opentab i).fileid ≠ (h.fs.opentab i).fileid)
  { h with
    fs := t
    allocated := fun i => h.allocated i || handed i
    clients := fun i => if handed i ∧ (h.fs.opentab i).fdRef = 0 then 0 else h.clients i
    opens := h.opens.map fun o => if handed o.slot then { o with since := o.since + 1 } else o }

def addOpen (h : History) (i : Nat) (delivered : Bool) : History :=
  { h with opens := h.opens ++ [⟨i, (h.fs.opentab i).fileid, (h.fs.opentab i).file, delivered, 0⟩] }

def forget (h : History) (i : Nat) : History :=
  { h with opens := h.opens.map fun o => if o.slot = i then { o with live := false } else o }

inductive Step : History → History → Prop
  | openFails : exec serveOpen h.fs = (.ok (r, none), t) → Step h (h.afterOpen t).counted
  /-- The client that asked gets the page. -/
  | openSent : exec serveOpen h.fs = (.ok (r, some i), t) →
      Step h (((h.afterOpen t).setClients i ((h.afterOpen t).clients i + 1)).addOpen i true).counted
  /-- The client that asked takes no page. -/
  | openUnsent : exec serveOpen h.fs = (.ok (r, some i), t) → Step h ((h.afterOpen t).addOpen i false).counted
  | share : 0 < h.clients i → Step h (h.setClients i (h.clients i + 1)).counted
  | unshare : 1 < h.clients i → Step h (h.setClients i (h.clients i - 1)).counted
  | last : h.clients i = 1 → Step h ((h.setClients i 0).forget i).counted
  /-- A request arrives whose page is, or is not, one of the `Fd` pages. -/
  | arrive : (∀ i, p = some i → 0 < h.clients i) → Step h { h with request := p }.counted
  | finish : Step h { h with request := none }.counted
  /-- Whatever else clients and requests change: memory, files and seek positions. -/
  | other : (∀ i, (t.opentab i).fileid = (h.fs.opentab i).fileid ∧ (t.opentab i).file = (h.fs.opentab i).file) →
      Step h { h with fs := t }.counted

def Runs (h h' : History) : Prop := Relation.ReflTransGen Step h h'

def initial (mem : Mem) : History where
  fs := ⟨mem, [], fun i => ⟨BitVec.ofNat 32 i, 0, 0, 0⟩⟩
  allocated := fun _ => false
  clients := fun _ => 0
  request := none
  opens := []

/-- File ids tell opens apart. -/
structure Identifies (h : History) : Prop where
  live : ∀ o ∈ h.opens, o.live = true →
    exec (openfileLookup o.id) h.fs = (.ok (.ok o.slot), h.fs) ∧ (h.fs.opentab o.slot).file = o.file
  stale : ∀ o ∈ h.opens, o.live = false → o.since < 2 ^ 22 →
    exec (openfileLookup o.id) h.fs = (.ok (.error (-eInval)), h.fs)
  mapped : ∀ i r t, 0 < h.clients i → exec serveOpen h.fs = (.ok r, t) → t.opentab i = h.fs.opentab i

/-! ## The invariant -/

/-- The counts tell whether a client maps the page: no `Fd` page is a request
page, and none has more references than `pp_ref` can count. -/
structure Uncrowded (h : History) : Prop where
  request : h.request = none
  few : ∀ i, h.clients i < 65535

structure OpenOk (h : History) (o : Opened) : Prop where
  slot : o.slot < maxopen
  allocated : h.allocated o.slot = true
  fileid : (h.fs.opentab o.slot).fileid = o.id + 1024#32 * BitVec.ofNat 32 o.since
  live : o.live = true → o.since = 0 ∧ 0 < h.clients o.slot ∧ (h.fs.opentab o.slot).file = o.file
  dead : o.live = false → o.since = 0 → h.clients o.slot = 0

structure Base (h : History) : Prop where
  allocated : ∀ i, 0 < h.clients i → h.allocated i = true
  ids : ∀ i < maxopen, (h.fs.opentab i).fileid.toNat % maxopen = i
  opens : ∀ o ∈ h.opens, h.OpenOk o

structure Ok (h : History) : Prop extends Base h, Uncrowded h where
  counts : ∀ i, (h.fs.opentab i).fdRef = if h.allocated i then 1 + h.clients i else 0

theorem Base.counted {h : History} (hb : h.Base) (hu : h.Uncrowded) : h.counted.Ok where
  allocated := hb.allocated
  ids := hb.ids
  opens o ho := by
    obtain ⟨hs, ha, hf, hl, hd⟩ := hb.opens o ho
    exact ⟨hs, ha, hf, hl, hd⟩
  request := hu.request
  few := hu.few
  counts i := by
    have hfew := hu.few i
    simp only [History.counted, pageref, hu.request]
    split
    · simp
      omega
    · rfl

theorem initial_ok (mem : Mem) : (initial mem).Ok where
  allocated _ hi := absurd hi (by simp [initial])
  ids i hi := by
    unfold maxopen at *
    simp [initial]
    omega
  opens _ ho := absurd ho (by simp [initial])
  request := rfl
  few _ := by simp [initial]
  counts _ := rfl

section
variable {h : History}

theorem Ok.clients_of_unused (hok : h.Ok) (hi : (h.fs.opentab i).fdRef ≤ 1) : h.clients i = 0 := by
  have hc := hok.counts i
  split at hc
  · omega
  · by_contra hne
    have ha := hok.allocated i (by omega)
    simp_all

theorem add_ne_self {w v : Word} (hv : v ≠ 0#32) : w + v ≠ w := by
  intro heq
  exact hv (by bv_omega)

/-- What the histories look like after an entry was handed out. -/
structure Handed (h : History) (t : Fs) (i : Nat) (h' : History) : Prop where
  fs : h'.fs = t
  allocated : h'.allocated i = true
  allocated' : ∀ j, h.allocated j = true → h'.allocated j = true
  clients : h'.clients = h.clients
  request : h'.request = h.request
  opens : ∀ o ∈ h'.opens, (o ∈ h.opens ∧ o.slot ≠ i) ∨
    ∃ o' ∈ h.opens, o'.slot = i ∧ o = { o' with since := o'.since + 1 }

theorem Ok.handed (hok : h.Ok) (ht : HandsOut h.fs t i) : Handed h t i (h.afterOpen t) := by
  have hi : (t.opentab i).fileid ≠ (h.fs.opentab i).fileid := by
    rw [ht.fileid]
    exact add_ne_self (by decide)
  have hj : ∀ j, j ≠ i → (t.opentab j).fileid = (h.fs.opentab j).fileid :=
    fun j hj => congrArg OpenFile.fileid (ht.others j hj)
  refine ⟨rfl, by simp [afterOpen, hi], fun j hj => by simp [afterOpen, hj], ?_, rfl, ?_⟩
  · funext j
    simp only [afterOpen]
    split
    · rename_i hz
      exact (hok.clients_of_unused (by omega)).symm
    · rfl
  · intro o ho
    simp only [afterOpen, List.mem_map] at ho
    obtain ⟨o', ho', rfl⟩ := ho
    by_cases hslot : o'.slot = i
    · exact .inr ⟨o', ho', hslot, by simp [hslot, hi]⟩
    · simp only [hj _ hslot, ne_eq, not_true, decide_false]
      exact .inl ⟨ho', hslot⟩

section
variable {h' : History} (hh : Handed h t i h') (hok : h.Ok) (ht : HandsOut h.fs t i)
include hh hok ht

/-- The records of the entry that was handed out are dead, the others as before. -/
theorem Handed.openOk (ho : o ∈ h'.opens) (hc : ∀ j, j ≠ i → n j = h.clients j) :
    ({ h' with clients := n } : History).OpenOk o := by
  obtain ⟨ho, hne⟩ | ⟨o', ho', hi, rfl⟩ := hh.opens o ho
  · obtain ⟨hs, ha, hf, hl, hd⟩ := hok.opens o ho
    have hsame : h'.fs.opentab o.slot = h.fs.opentab o.slot := by
      rw [hh.fs]
      exact ht.others _ hne
    refine ⟨hs, hh.allocated' _ ha, by simp only [hsame]; exact hf, ?_, ?_⟩
    · simp only [hsame, hc _ hne]
      exact hl
    · simp only [hc _ hne]
      exact hd
  · obtain ⟨hs, ha, hf, hl, hd⟩ := hok.opens o' ho'
    have h0 := hok.clients_of_unused ht.unused
    subst hi
    refine ⟨hs, hh.allocated, ?_, ?_, fun _ hz => by simp at hz⟩
    · simp only [hh.fs, ht.fileid, hf]
      rw [BitVec.ofNat_add, BitVec.mul_add, BitVec.add_assoc]
      rfl
    · intro hlive
      have hpos := (hl hlive).2.1
      omega

theorem Handed.base : h'.Base := by
  refine ⟨fun j hj => hh.allocated' j (hok.allocated j (hh.clients ▸ hj)), ?_,
    fun o ho => hh.openOk hok ht ho (n := h'.clients) fun j _ => congrFun hh.clients j⟩
  intro j hj
  have hid := hok.ids j hj
  rw [hh.fs]
  by_cases hji : j = i
  · subst hji
    rw [ht.fileid, BitVec.toNat_add]
    unfold maxopen at *
    simp
    omega
  · rw [ht.others j hji]
    exact hid

theorem Handed.addOpen : ((h'.setClients i (h'.clients i + 1)).addOpen i true).Base ∧ (h'.addOpen i false).Base := by
  have hb := hh.base hok ht
  have h0 : h'.clients i = 0 := by
    rw [hh.clients]
    exact hok.clients_of_unused ht.unused
  constructor
  · refine ⟨?_, hb.ids, ?_⟩
    · intro j hj
      by_cases hji : j = i
      · exact hji ▸ hh.allocated
      · simp only [History.addOpen, setClients, Function.update_of_ne hji] at hj
        exact hb.allocated j hj
    · intro o ho
      simp only [History.addOpen, List.mem_append, List.mem_singleton] at ho
      obtain ho | rfl := ho
      · obtain ⟨hs, ha, hf, hl, hd⟩ := hh.openOk hok ht ho (n := Function.update h'.clients i (h'.clients i + 1))
          fun j hj => by rw [Function.update_of_ne hj, hh.clients]
        exact ⟨hs, ha, hf, hl, hd⟩
      · refine ⟨ht.lt, hh.allocated, by simp [setClients, History.addOpen], fun _ => ⟨rfl, ?_, rfl⟩, fun hf => by simp at hf⟩
        simp [setClients, History.addOpen]
  · refine ⟨hb.allocated, hb.ids, ?_⟩
    intro o ho
    simp only [History.addOpen, List.mem_append, List.mem_singleton] at ho
    obtain ho | rfl := ho
    · obtain ⟨hs, ha, hf, hl, hd⟩ := hb.opens o ho
      exact ⟨hs, ha, hf, hl, hd⟩
    · exact ⟨ht.lt, hh.allocated, by simp [History.addOpen], fun hl => by simp at hl, fun _ _ => h0⟩

end

theorem Ok.setClients (hok : h.Ok) (hi : 0 < h.clients i) (hn : 0 < n) : (h.setClients i n).Base := by
  have hpos : ∀ j, 0 < Function.update h.clients i n j ↔ 0 < h.clients j := by
    intro j
    by_cases hji : j = i
    · subst hji
      simp [hi, hn]
    · simp [hji]
  refine ⟨fun j hj => hok.allocated j ((hpos j).1 hj), hok.ids, ?_⟩
  intro o ho
  obtain ⟨hs, ha, hf, hl, hd⟩ := hok.opens o ho
  refine ⟨hs, ha, hf, fun hlive => ⟨(hl hlive).1, (hpos _).2 (hl hlive).2.1, (hl hlive).2.2⟩, fun hdead hz => ?_⟩
  have h0 := hd hdead hz
  have hne := hpos o.slot
  simp only [History.setClients]
  omega

theorem Ok.last (hok : h.Ok) : ((h.setClients i 0).forget i).Base := by
  refine ⟨?_, hok.ids, ?_⟩
  · intro j hj
    by_cases hji : j = i
    · simp [History.forget, History.setClients, hji] at hj
    · simp only [History.forget, History.setClients, Function.update_of_ne hji] at hj
      exact hok.allocated j hj
  · intro o ho
    simp only [History.forget, List.mem_map] at ho
    obtain ⟨o', ho', rfl⟩ := ho
    obtain ⟨hs, ha, hf, hl, hd⟩ := hok.opens o' ho'
    by_cases hslot : o'.slot = i
    · simp only [if_pos hslot]
      exact ⟨hs, ha, hf, fun hl => by simp at hl, fun _ _ => by simp [History.forget, History.setClients, hslot]⟩
    · simp only [if_neg hslot]
      refine ⟨hs, ha, hf, ?_, ?_⟩
      · simpa [History.forget, History.setClients, hslot] using hl
      · simpa [History.forget, History.setClients, hslot] using hd

theorem Ok.base_of_same (hok : h.Ok) (ht : ∀ i, (t.opentab i).fileid = (h.fs.opentab i).fileid ∧
    (t.opentab i).file = (h.fs.opentab i).file) : ({ h with fs := t } : History).Base := by
  refine ⟨hok.allocated, fun i hi => ?_, fun o ho => ?_⟩
  · simp only [(ht i).1]
    exact hok.ids i hi
  · obtain ⟨hs, ha, hf, hl, hd⟩ := hok.opens o ho
    refine ⟨hs, ha, ?_, ?_, hd⟩
    · simp only [(ht o.slot).1]
      exact hf
    · simp only [(ht o.slot).2]
      exact hl

theorem afterOpen_of_same (heq : t.opentab = h.fs.opentab) : h.afterOpen t = { h with fs := t } := by
  simp [afterOpen, heq]

theorem Ok.step (hok : h.Ok) (hs : Step h h') (hu : h'.Uncrowded) : h'.Ok := by
  cases hs with
  | openFails hx =>
    refine Base.counted ?_ ⟨hu.request, hu.few⟩
    obtain ⟨-, heq⟩ | ⟨i, ht, -⟩ := (serveOpen_effect h.fs).ok hx
    · rw [afterOpen_of_same heq]
      exact hok.base_of_same fun i => by simp [heq]
    · exact (hok.handed ht).base hok ht
  | @openSent _ _ i t hx =>
    refine Base.counted ?_ ⟨hu.request, hu.few⟩
    obtain ⟨hpg, -⟩ | ⟨j, ht, hpg⟩ := (serveOpen_effect h.fs).ok hx
    · simp at hpg
    · obtain rfl : i = j := by simpa using hpg
      exact ((hok.handed ht).addOpen hok ht).1
  | @openUnsent _ _ i t hx =>
    refine Base.counted ?_ ⟨hu.request, hu.few⟩
    obtain ⟨hpg, -⟩ | ⟨j, ht, hpg⟩ := (serveOpen_effect h.fs).ok hx
    · simp at hpg
    · obtain rfl : i = j := by simpa using hpg
      exact ((hok.handed ht).addOpen hok ht).2
  | share hi => exact (hok.setClients hi (by omega)).counted ⟨hu.request, hu.few⟩
  | unshare hi => exact (hok.setClients (by omega) (by omega)).counted ⟨hu.request, hu.few⟩
  | last _ => exact hok.last.counted ⟨hu.request, hu.few⟩
  | arrive _ =>
    refine Base.counted ⟨hok.allocated, hok.ids, fun o ho => ?_⟩ ⟨hu.request, hu.few⟩
    obtain ⟨hs, ha, hf, hl, hd⟩ := hok.opens o ho
    exact ⟨hs, ha, hf, hl, hd⟩
  | finish =>
    refine Base.counted ⟨hok.allocated, hok.ids, fun o ho => ?_⟩ ⟨hu.request, hu.few⟩
    obtain ⟨hs, ha, hf, hl, hd⟩ := hok.opens o ho
    exact ⟨hs, ha, hf, hl, hd⟩
  | other ht => exact (hok.base_of_same ht).counted ⟨hu.request, hu.few⟩

end

def UncrowdedRuns (h h' : History) : Prop := Relation.ReflTransGen (fun h h' => Step h h' ∧ h'.Uncrowded) h h'

theorem UncrowdedRuns.ok (hok : h.Ok) (hr : UncrowdedRuns h h') : h'.Ok := by
  induction hr with
  | refl => exact hok
  | tail _ hs ih => exact ih.step hs.1 hs.2

/-! ## Ids identify opens -/

theorem exec_openfileLookup (id : Word) (s : Fs) :
    exec (openfileLookup id) s =
      (.ok (if (s.opentab (id.toNat % maxopen)).fdRef ≤ 1 ∨ (s.opentab (id.toNat % maxopen)).fileid ≠ id then
        .error (-eInval) else .ok (id.toNat % maxopen)), s) := by
  simp only [openfileLookup, exec_bind, exec_get]
  split
  · simp
  · simp

theorem OpenOk.slot_eq {h : History} (ho : h.OpenOk o) (hok : h.Ok) : o.id.toNat % maxopen = o.slot := by
  have hid := hok.ids o.slot ho.slot
  rw [ho.fileid, BitVec.toNat_add, BitVec.toNat_mul] at hid
  unfold maxopen at *
  simp at hid
  omega

theorem Ok.identifies {h : History} (hok : h.Ok) : h.Identifies := by
  refine ⟨?_, ?_, ?_⟩
  · intro o ho hlive
    have hoo := hok.opens o ho
    obtain ⟨h0, hpos, hfile⟩ := hoo.live hlive
    refine ⟨?_, hfile⟩
    have href := hok.counts o.slot
    rw [if_pos hoo.allocated] at href
    have hid := hoo.fileid
    rw [h0] at hid
    rw [exec_openfileLookup, hoo.slot_eq hok, if_neg]
    simp only [not_or, not_not]
    exact ⟨by omega, by simpa using hid⟩
  · intro o ho hdead hsince
    have hoo := hok.opens o ho
    rw [exec_openfileLookup, hoo.slot_eq hok, if_pos]
    by_cases h0 : o.since = 0
    · have hc := hoo.dead hdead h0
      have href := hok.counts o.slot
      rw [if_pos hoo.allocated, hc] at href
      exact .inl (by omega)
    · right
      rw [hoo.fileid]
      refine add_ne_self fun hz => ?_
      have hn := congrArg BitVec.toNat hz
      rw [BitVec.toNat_mul] at hn
      simp at hn
      omega
  · intro i r t hi hx
    obtain ⟨-, heq⟩ | ⟨j, ht, -⟩ := (serveOpen_effect h.fs).ok hx
    · rw [heq]
    · refine ht.others i ?_
      rintro rfl
      have h0 := hok.clients_of_unused ht.unused
      omega

end History

/-! ## Opening the root directory -/

theorem exec_load (a : Nat) (s : Fs) : exec (load a) s = (.ok (s.mem.read32 a), s) := rfl

theorem reqPath_of_nul {m : Mem} (h : m fsreq = 0) : reqPath m = [] := by
  have hrange : List.range (maxpathlen - 1) = 0 :: (List.range 1022).map Nat.succ :=
    List.range_succ_eq_map
  simp [reqPath, hrange, h]

/-- A path without elements names the root directory, and no directory is read for it. -/
theorem exec_fileOpen_nil (s : Fs) : exec (fileOpen []) s = (.ok (.ok sRoot), s) := rfl

def openedRoot (s : Fs) : Fs :=
  { s with opentab := fun j => if j = 0 then ⟨(s.opentab 0).fileid + 1024#32, sRoot, 0, 1⟩ else s.opentab j }

theorem exec_serveOpen_root {s : Fs} (hpath : s.mem fsreq = 0) (hmode : s.mem.read32 reqOmode = 0)
    (href : (s.opentab 0).fdRef ≤ 1) (hid : 0 ≤ ((s.opentab 0).fileid + 1024#32).toInt) :
    exec serveOpen s = (.ok (0, some 0), openedRoot s) := by
  have hrange : List.range maxopen = 0 :: (List.range 1023).map Nat.succ := List.range_succ_eq_map
  have hfind : (List.range maxopen).find? (fun i => (s.opentab i).fdRef ≤ 1) = some 0 := by
    rw [hrange, List.find?_cons_of_pos (by simpa using href)]
  have hneg : ¬ ((s.opentab 0).fileid + 1024#32).toInt < 0 := by omega
  have hfun : (fun j => if j = 0 then
      (⟨(s.opentab 0).fileid + 1024#32, sRoot, 0, 1⟩ : OpenFile) else
        if j = 0 then ⟨(s.opentab 0).fileid + 1024#32, (s.opentab 0).file, 0, 1⟩ else s.opentab j) =
      (openedRoot s).opentab := by
    funext j
    simp only [openedRoot]
    split <;> rfl
  have hcreat : ¬ (0 : Word) &&& oCreat ≠ 0 := by decide
  have htrunc : ¬ (0 : Word) &&& oTrunc ≠ 0 := by decide
  simp only [serveOpen, openfileAlloc, openPath, setOpen, exec_bind, exec_get, exec_modify, exec_pure, exec_load, hfind,
    hneg, hcreat, htrunc, if_false, if_true, reqPath_of_nul hpath, hmode, exec_fileOpen_nil, hfun]
  rfl

namespace History

def rootOpened : History :=
  ((((initial fun _ => 0).afterOpen (openedRoot (initial fun _ => 0).fs)).setClients 0 1).addOpen 0 true).counted

theorem rootOpened_step : Step (initial fun _ => 0) rootOpened := by
  have hx := exec_serveOpen_root (s := (initial fun _ => 0).fs) rfl (by decide) (by decide) (by decide)
  exact .openSent hx

theorem ids_identify_opens (mem : Mem) (hr : UncrowdedRuns (initial mem) h) : h.Identifies :=
  (hr.ok (initial_ok mem)).identifies

theorem ids_identify_opens_root : ∃ h, UncrowdedRuns (initial fun _ => 0) h ∧ h.opens.length = 1 ∧ h.Identifies := by
  have hu : rootOpened.Uncrowded := by
    refine ⟨rfl, fun i => ?_⟩
    simp only [rootOpened, counted, addOpen, setClients, afterOpen, initial, Function.update_apply]
    split <;> simp
  have hr : UncrowdedRuns (initial fun _ => 0) rootOpened := .single ⟨rootOpened_step, hu⟩
  exact ⟨_, hr, rfl, ids_identify_opens _ hr⟩

/-- The client sends its `Fd` page as a request and lets go of it: no client maps
the page, and the id is still accepted. -/
theorem request_page_keeps_id : ∃ h o, Runs (initial fun _ => 0) h ∧ h.opens = [o] ∧ o.live = false ∧ o.since = 0 ∧
    h.clients o.slot = 0 ∧ exec (openfileLookup o.id) h.fs = (.ok (.ok o.slot), h.fs) := by
  have harrive : Step rootOpened { rootOpened with request := some 0 }.counted := by
    refine .arrive fun i hi => ?_
    cases hi
    decide
  have hlast := Step.last (h := { rootOpened with request := some 0 }.counted) (i := 0) rfl
  refine ⟨_, _, ((Relation.ReflTransGen.single rootOpened_step).tail harrive).tail hlast, rfl, rfl, rfl, rfl, ?_⟩
  rw [exec_openfileLookup]
  rfl

end History

end Jos.Fs
