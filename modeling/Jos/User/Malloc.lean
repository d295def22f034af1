import Jos.Kern.Mmu
import Jos.Lib.Memory
import Jos.Lib.Triple

/-!
# The user heap (`lib/malloc.c`)

The heap is the range of pages from `mbegin` to `mend`, where nothing else
maps a page: `mapped` and `continued` are the page table, by page number, with
the bits `PTE_P` and `PTE_CONTINUED`. A page that is not marked holds its
reference word in its last four bytes. `mptr` can leave the range: past `mend`
the search goes on to the end of the address space and from there to page 0.
`tail` is not part of the library: it is set once `mptr` has stood in the last
page of the range.
-/

namespace Jos.Malloc

open Lib
open Function (update update_of_ne update_self)

def mbegin : Nat := 0x08000000
def mend : Nat := 0x10000000

def maxmalloc : Nat := 1024 * 1024

structure Heap where
  mptr : Nat
  mapped : Nat → Bool
  continued : Nat → Bool
  mem : Mem
  tail : Bool

/-- A failed assertion, an access to a page that is not mapped, a loop that
does not end. -/
inductive Crash where
  | assert
  | fault
  | spin

abbrev HeapM := M Heap Crash

namespace Heap

def setMptr (s : Heap) (a : Nat) : Heap :=
  { s with mptr := a, tail := s.tail || decide (mend - 4096 ≤ a) }

def nextPage (s : Heap) : Heap := { s.setMptr (s.mptr + 4096) with mptr := (s.mptr + 4096) % 2 ^ 32 }

def unmap (s : Heap) (p : Nat) : Heap :=
  { s with
    mapped := update s.mapped p false
    continued := update s.continued p false }

def map (s : Heap) (p : Nat) (cont : Bool) : Heap :=
  { s with
    mapped := update s.mapped p true
    continued := update s.continued p cont
    mem := s.mem.fill (4096 * p) 4096 0 }

def ref (s : Heap) (p : Nat) : Word := s.mem.read32 (4096 * p + 4092)

/-- The end address can wrap around, and then there is nothing to look at. -/
def isfree (s : Heap) (v n : Nat) : Bool :=
  (List.range (((v + n) % 2 ^ 32 - v + 4095) / 4096)).all fun k =>
    decide (v + 4096 * k < mend) && !s.mapped ((v + 4096 * k) / 4096)

end Heap

def setMptr (a : Nat) : HeapM Unit := modify (·.setMptr a)

/-- The kernel refuses addresses from `UTOP` on. -/
def sysPageUnmap (va : Nat) : HeapM Unit := modify fun s => if va < utop.toNat then s.unmap (va / 4096) else s

def loadRef (ref : Nat) : HeapM Word := do
  let s ← get
  if s.mapped (ref / 4096) = false then
    throw .fault
  return s.mem.read32 ref

def storeRef (ref : Nat) (w : Word) : HeapM Unit := do
  let s ← get
  if s.mapped (ref / 4096) = false then
    throw .fault
  set { s with mem := s.mem.write32 ref w }

/-- `free` from the page of `c` on: marked pages go, the first page that is not
marked loses a reference. -/
def freeFrom : Nat → Nat → HeapM Unit
  | 0, _ => throw .spin
  | k + 1, c => do
    if (← get).continued (c / 4096) then
      sysPageUnmap c
      if c + 4096 < mbegin ∨ mend ≤ c + 4096 then
        throw .assert
      freeFrom k (c + 4096)
    else
      let ref := c + 4096 - 4
      let w ← loadRef ref
      storeRef ref (w - 1)
      if w - 1 = 0 then
        sysPageUnmap c

def free (v : Nat) : HeapM Unit := do
  if v = 0 then
    return ()
  if v < mbegin ∨ mend ≤ v then
    throw .assert
  freeFrom (mend / 4096) (v / 4096 * 4096)

/-- The search for pages; `false` when it has wrapped around twice. -/
def findSpace (n : Nat) : Nat → Nat → HeapM Bool
  | 0, _ => throw .spin
  | k + 1, nwrap => do
    let s ← get
    if s.isfree s.mptr (n + 4) then
      return true
    modify (·.nextPage)
    if s.nextPage.mptr = mend then
      setMptr mbegin
      if nwrap + 1 = 2 then
        return false
      findSpace n k (nwrap + 1)
    else
      findSpace n k nwrap

def unmapDown (v : Nat) : Nat → HeapM Unit
  | 0 => sysPageUnmap v
  | i + 1 => do
    sysPageUnmap (v + 4096 * (i + 1))
    unmapDown v i

/-- Pages `i` to `i + k - 1` of a chunk at `v`; `sys_page_alloc` fails once
`avail` pages have been handed out, and from `UTOP` on. -/
def allocPages (v : Nat) : Nat → Nat → Nat → HeapM Bool
  | 0, _, _ => return true
  | k + 1, i, avail =>
    if avail = 0 ∨ utop.toNat ≤ v + 4096 * i then do
      unmapDown v i
      return false
    else do
      modify (·.map ((v + 4096 * i) / 4096) (decide (0 < k)))
      allocPages v k (i + 1) (avail - 1)

/-- The second half of `malloc`: a chunk on pages of its own. -/
def newPages (n avail : Nat) : HeapM Nat := do
  -- No search visits as many pages.
  if ¬ (← findSpace n (2 ^ 21) 0) then
    return 0
  let v := (← get).mptr
  let k := (n + 4 + 4095) / 4096
  if ¬ (← allocPages v k 0 avail) then
    return 0
  -- One reference for `mptr`, one for the chunk.
  storeRef (v + 4096 * k - 4) 2
  setMptr (v + n)
  return v

def malloc (n avail : Nat) : HeapM Nat := do
  if (← get).mptr = 0 then
    setMptr mbegin
  let n := (n + 3) / 4 * 4 % 2 ^ 32
  if maxmalloc ≤ n then
    return 0
  let mptr := (← get).mptr
  if mptr % 4096 ≠ 0 then
    let ref := (mptr + 4095) / 4096 * 4096 - 4
    if mptr / 4096 = (mptr + n + 3) / 4096 then
      storeRef ref ((← loadRef ref) + 1)
      setMptr (mptr + n)
      return mptr
    free mptr
    setMptr ((mptr + 4096) / 4096 * 4096)
  newPages n avail

/-! ## Runs -/

/-- A chunk that `malloc(n)` returned at `addr`. -/
structure Chunk where
  addr : Nat
  n : Nat

namespace Chunk

def Byte (c : Chunk) (x : Nat) : Prop := c.addr ≤ x ∧ x < c.addr + c.n

def size (c : Chunk) : Nat := (c.n + 3) / 4 * 4

def first (c : Chunk) : Nat := c.addr / 4096

def last (c : Chunk) : Nat := (c.addr + c.size + 3) / 4096

end Chunk

/-- The heap and the chunks not freed yet, in the order they were made. -/
structure State where
  heap : Heap
  live : List Chunk

def initial (mem : Mem) : State := ⟨⟨0, fun _ => false, fun _ => false, mem, false⟩, []⟩

inductive Call : State → State → Prop
  | malloc : n < maxmalloc → exec (malloc n avail) s = (.ok v, t) →
    Call ⟨s, live⟩ ⟨t, if v = 0 then live else live ++ [⟨v, n⟩]⟩
  | free : exec (free c.addr) s = (.ok (), t) → Call ⟨s, l ++ c :: l'⟩ ⟨t, l ++ l'⟩

/-- A call, or a store of the program into one of its chunks. -/
inductive Step : State → State → Prop
  | call : Call s t → Step s t
  | store : c ∈ live → c.Byte x →
    Step ⟨s, live⟩ ⟨{ s with mem := update s.mem x b }, live⟩

/-- The runs in which `mptr` stays below the last page of the range. -/
def Runs (s t : State) : Prop := Relation.ReflTransGen (fun s t => Step s t ∧ t.heap.tail = false) s t

/-- The reference word of the page `mptr` is in can still be incremented. -/
def State.Uncrowded (s : State) : Prop :=
  s.heap.mptr % 4096 ≠ 0 → (s.heap.ref (s.heap.mptr / 4096)).toNat < 2 ^ 32 - 1

/-- Those in which no reference word is incremented past its range. -/
def UncrowdedRuns (s t : State) : Prop :=
  Relation.ReflTransGen (fun s t => s.Uncrowded ∧ Step s t ∧ t.heap.tail = false) s t

/-- Live chunks are apart, in mapped pages and off the reference words. -/
structure State.Safe (s : State) : Prop where
  disjoint : s.live.Pairwise fun c c' => ∀ x, c.Byte x → ¬ c'.Byte x
  mapped : ∀ c ∈ s.live, ∀ x, c.Byte x → s.heap.mapped (x / 4096) = true
  refs : ∀ c ∈ s.live, ∀ x, c.Byte x → ∀ p, s.heap.mapped p = true → s.heap.continued p = false →
    x < 4096 * p + 4092 ∨ 4096 * p + 4096 ≤ x

/-- A call keeps the chunks that stay live, and unmaps none of their pages. -/
structure State.Spares (s t : State) : Prop where
  contents : ∀ c ∈ s.live, c ∈ t.live → ∀ x, c.Byte x → t.heap.mem x = s.heap.mem x
  unmapped : ∀ p, s.heap.mapped p = true → t.heap.mapped p = false → ∀ c ∈ t.live, ∀ x, c.Byte x → x / 4096 ≠ p

/-! ## The invariant -/

/-- `mptr` holds a reference of the page it is inside of. -/
def Heap.opened (s : Heap) (p : Nat) : Nat := if s.mptr % 4096 ≠ 0 ∧ s.mptr / 4096 = p then 1 else 0

def count (live : List Chunk) (p : Nat) : Nat := live.countP fun c => decide (c.last = p)

def HeapPage (p : Nat) : Prop := mbegin / 4096 ≤ p ∧ p < mend / 4096

instance : DecidablePred HeapPage := fun p => inferInstanceAs (Decidable (mbegin / 4096 ≤ p ∧ p < mend / 4096))

/-- Where a live chunk lies: a chunk over several pages starts one, and all its
pages but the last are marked. -/
structure Chunk.At (c : Chunk) (s : Heap) : Prop where
  aligned : c.addr % 4 = 0
  starts : c.first < c.last → c.addr % 4096 = 0
  inner : ∀ p, c.first ≤ p → p < c.last → s.mapped p = true ∧ s.continued p = true
  last : s.mapped c.last = true ∧ s.continued c.last = false

def Chunk.Apart (c c' : Chunk) : Prop := c.addr + c.size ≤ c'.addr ∨ c'.addr + c'.size ≤ c.addr

/-- The reference words count the live chunks, `mptr`, and the `spare`
references, which nothing accounts for. -/
structure Heap.Ok (s : Heap) (live : List Chunk) (spare : Nat → Nat) : Prop where
  aligned : s.mptr % 4 = 0
  opened : s.mptr % 4096 ≠ 0 → s.mapped (s.mptr / 4096) = true ∧ s.continued (s.mptr / 4096) = false
  chunks : ∀ c ∈ live, c.At s
  below : ∀ c ∈ live, s.mptr % 4096 ≠ 0 → c.last = s.mptr / 4096 → c.addr + c.size ≤ s.mptr
  apart : live.Pairwise Chunk.Apart
  refs : ∀ p, s.mapped p = true → s.continued p = false → (s.ref p).toNat = count live p + s.opened p + spare p
  kept : ∀ p, HeapPage p → s.mapped p = true → s.continued p = false → s.ref p ≠ 0
  owned : ∀ p, HeapPage p → s.mapped p = true → s.continued p = true → ∃ c ∈ live, c.first ≤ p ∧ p < c.last

def bump (spare : Nat → Nat) (q : Nat) : Nat → Nat := fun p => spare p + if q = p then 1 else 0

theorem Chunk.n_le_size (c : Chunk) : c.n ≤ c.size := by
  unfold size
  omega

theorem Chunk.size_mod (c : Chunk) : c.size % 4 = 0 := by
  unfold size
  omega

theorem Chunk.end_le {c : Chunk} (h : c.addr % 4 = 0) : c.addr + c.size ≤ 4096 * c.last + 4092 := by
  have hs := c.size_mod
  unfold last
  omega

theorem Chunk.last_le_end {c : Chunk} (h : c.addr % 4 = 0) : 4096 * c.last ≤ c.addr + c.size := by
  have hs := c.size_mod
  unfold last
  omega

theorem Chunk.first_le_last (c : Chunk) : c.first ≤ c.last := by
  unfold first last
  omega

theorem Chunk.page_of_byte {c : Chunk} (h : c.Byte x) : c.first ≤ x / 4096 ∧ x / 4096 ≤ c.last := by
  have hn := c.n_le_size
  obtain ⟨h₁, h₂⟩ := h
  unfold first last
  omega

theorem Chunk.At.mapped {c : Chunk} (h : c.At s) (hp : c.first ≤ p) (hp' : p ≤ c.last) : s.mapped p = true := by
  rcases Nat.lt_or_ge p c.last with hlt | hge
  · exact (h.inner p hp hlt).1
  · exact Nat.le_antisymm hp' hge ▸ h.last.1

theorem Chunk.At.congr {c : Chunk} (h : c.At s)
    (hp : ∀ p, c.first ≤ p → p ≤ c.last → t.mapped p = s.mapped p ∧ t.continued p = s.continued p) : c.At t := by
  refine ⟨h.aligned, h.starts, fun p h₁ h₂ => ?_, ?_⟩
  · obtain ⟨hm, hc⟩ := hp p h₁ (Nat.le_of_lt h₂)
    rw [hm, hc]
    exact h.inner p h₁ h₂
  · obtain ⟨hm, hc⟩ := hp c.last c.first_le_last (Nat.le_refl _)
    rw [hm, hc]
    exact h.last

theorem Chunk.At.out {c : Chunk} (h : c.At s) (hp : s.continued p = false) : p < c.first ∨ c.last ≤ p := by
  by_contra hin
  have hmark := (h.inner p (by omega) (by omega)).2
  rw [hp] at hmark
  cases hmark

theorem Chunk.Apart.of_pages {c c' : Chunk} (ha : c.addr % 4 = 0) (ha' : c'.addr % 4 = 0)
    (h : c.last < c'.first ∨ c'.last < c.first) : c.Apart c' := by
  have he := Chunk.end_le ha
  have he' := Chunk.end_le ha'
  unfold Chunk.first at h
  unfold Chunk.Apart
  omega

theorem count_pos (h : c ∈ live) : 0 < count live c.last :=
  List.countP_pos_iff.2 ⟨c, h, by simp⟩

theorem count_append (l l' : List Chunk) (p : Nat) : count (l ++ l') p = count l p + count l' p :=
  List.countP_append

theorem count_cons (c : Chunk) (l : List Chunk) (p : Nat) :
    count (c :: l) p = count l p + if c.last = p then 1 else 0 := by
  simp [count, List.countP_cons]

@[simp] theorem count_nil (p : Nat) : count [] p = 0 := rfl

theorem Heap.Ok.safe {s : State} (h : s.heap.Ok s.live spare) : s.Safe := by
  constructor
  · refine h.apart.imp fun {c c'} hle x hx hx' => ?_
    have hn := c.n_le_size
    have hn' := c'.n_le_size
    obtain ⟨h₁, h₂⟩ := hx
    obtain ⟨h₃, h₄⟩ := hx'
    rcases hle with hle | hle <;> omega
  · intro c hc x hx
    obtain ⟨h₁, h₂⟩ := Chunk.page_of_byte hx
    exact (h.chunks c hc).mapped h₁ h₂
  · intro c hc x hx p hm hcont
    have hat := h.chunks c hc
    obtain ⟨h₁, h₂⟩ := Chunk.page_of_byte hx
    have hend := Chunk.end_le hat.aligned
    have hn := c.n_le_size
    have hx' := hx.2
    by_cases hp : x / 4096 = p
    · -- The page of the byte is not marked, so it is the last of the chunk.
      have hout := hat.out hcont
      left
      have heq : p = c.last := by omega
      omega
    · omega

def Untouched (live : List Chunk) (s t : Heap) : Prop := ∀ c ∈ live, ∀ x, c.Byte x → t.mem x = s.mem x

/-! ## `free` -/

namespace Heap

def clear (s : Heap) (p q : Nat) : Heap :=
  { s with
    mapped := fun x => if p ≤ x ∧ x < q then false else s.mapped x
    continued := fun x => if p ≤ x ∧ x < q then false else s.continued x }

def drop (s : Heap) (q : Nat) : Heap :=
  if s.ref q - 1 = 0 then
    { s with mem := s.mem.write32 (4096 * q + 4092) (s.ref q - 1) }.unmap q
  else
    { s with mem := s.mem.write32 (4096 * q + 4092) (s.ref q - 1) }

theorem clear_self (s : Heap) (p : Nat) : s.clear p p = s := by
  have h : ∀ x, ¬ (p ≤ x ∧ x < p) := by
    intro x
    omega
  simp [clear, h]

theorem unmap_clear (s : Heap) (h : p < q) : (s.unmap p).clear (p + 1) q = s.clear p q := by
  simp only [clear, unmap, Heap.mk.injEq, true_and, and_true]
  constructor
  all_goals
    funext x
    by_cases hx : x = p
    · rw [if_neg (by omega), if_pos (by omega), hx, update_self]
    · have hiff : p + 1 ≤ x ∧ x < q ↔ p ≤ x ∧ x < q := by omega
      simp only [update_of_ne hx, hiff]

end Heap

section
variable {s : Heap} {E : Crash → Heap → Prop} (hE : s.mapped (a / 4096) = false → E .fault s)
include hE

theorem loadRef_ok : Triple (loadRef a) s (fun w t => w = s.mem.read32 a ∧ s = t) E := by
  refine .get_bind ?_
  exact .guard hE fun _ => .pure ⟨rfl, rfl⟩

theorem storeRef_ok : Triple (storeRef a w) s
      (fun _ t => t = { s with mem := s.mem.write32 a w } ∧ s.mapped (a / 4096) = true) E := by
  refine .get_bind ?_
  exact .guard hE fun hm => .set ⟨rfl, by simpa using hm⟩

end

theorem sysPageUnmap_ok {s : Heap} (h : 4096 * p < utop.toNat) :
    Triple (sysPageUnmap (4096 * p)) s (fun _ t => t = s.unmap p) E := by
  refine .modify ?_
  rw [if_pos h, Nat.mul_div_cancel_left p (by omega)]

/-- Marked pages from `p` to `q - 1`, then page `q`: the walk ends there unless
it leaves the range. -/
theorem freeFrom_eq {s : Heap} (hpq : p ≤ q) (hp : 4096 * p < mend)
    (hc : ∀ x, p ≤ x → x < q → s.continued x = true) (hq : s.continued q = false) :
    Triple (freeFrom k (4096 * p)) s (fun _ t => t = (s.clear p q).drop q)
      fun _ _ => ¬ (q < p + k ∧ mbegin ≤ 4096 * p ∧ 4096 * q < mend ∧ s.mapped q = true) := by
  have hpage : ∀ p, 4096 * p / 4096 = p := fun p => Nat.mul_div_cancel_left p (by omega)
  have htop : ∀ {p}, 4096 * p < mend → 4096 * p < utop.toNat := by
    intro p h
    rw [utop_toNat]
    unfold mend at h
    omega
  induction k generalizing p s with
  | zero => exact .throw (by omega)
  | succ k ih =>
    unfold freeFrom
    refine .get_bind ?_
    rw [hpage p]
    rcases Nat.lt_or_eq_of_le hpq with hlt | rfl
    · refine .ite (fun _ => ?_) fun hn => absurd (hc p (Nat.le_refl p) hlt) hn
      refine .bind (sysPageUnmap_ok (htop hp)) ?_
      rintro _ _ rfl
      refine .guard (fun _ => by omega) fun hin => ?_
      rw [← Heap.unmap_clear s hlt]
      refine (ih hlt (by omega) (fun x hx hx' => ?_) ?_).imp_error fun _ _ h hall => h ?_
      · have hne : x ≠ p := by omega
        exact (update_of_ne hne ..).trans (hc x (by omega) hx')
      · exact (update_of_ne (by omega) ..).trans hq
      · refine ⟨by omega, by omega, hall.2.2.1, ?_⟩
        exact (update_of_ne (by omega) ..).trans hall.2.2.2
    · refine .ite (fun h => absurd h (by simp [hq])) fun _ => ?_
      have hword : (4096 * p + 4096 - 4) / 4096 = p := by omega
      rw [Heap.clear_self]
      refine .bind (loadRef_ok fun h hall => ?_) ?_
      · rw [hword, hall.2.2.2] at h
        cases h
      rintro _ _ ⟨rfl, rfl⟩
      refine .bind (storeRef_ok fun h hall => ?_) ?_
      · rw [hword, hall.2.2.2] at h
        cases h
      rintro _ _ ⟨rfl, -⟩
      unfold Heap.drop
      refine .ite (fun h => (sysPageUnmap_ok (htop hp)).imp ?_) fun h => .pure (if_neg h).symm
      rintro _ _ rfl
      exact (if_pos h).symm

theorem free_eq {s : Heap} (h0 : v ≠ 0) (hpq : v / 4096 ≤ q)
    (hc : ∀ x, v / 4096 ≤ x → x < q → s.continued x = true) (hq : s.continued q = false) :
    Triple (free v) s (fun _ t => t = (s.clear (v / 4096) q).drop q)
      fun _ _ => ¬ (mbegin ≤ v ∧ 4096 * q < mend ∧ s.mapped q = true) := by
  unfold free
  refine .ite (fun h => absurd h h0) fun _ => .guard (fun h => ?_) fun h => ?_
  · unfold mend at h ⊢
    omega
  · rw [Nat.mul_comm]
    refine (freeFrom_eq hpq (by omega) hc hq).imp_error fun _ _ hE hall => hE ?_
    have hfuel : mend / 4096 = 65536 := by decide
    have hlow : mbegin = 4096 * 32768 := by decide
    have hend : mend = 4096 * 65536 := by decide
    exact ⟨by omega, by omega, hall.2.1, hall.2.2⟩

theorem Heap.ref_congr {s t : Heap} (h : ∀ x, x / 4096 = p → t.mem x = s.mem x) : t.ref p = s.ref p :=
  Mem.read32_congr fun x h₁ h₂ => h x (by omega)

section
variable (s : Heap)
include s

@[simp] theorem Heap.drop_mptr (q : Nat) : (s.drop q).mptr = s.mptr := by
  unfold drop
  split <;> rfl

@[simp] theorem Heap.drop_mem (q : Nat) : (s.drop q).mem = s.mem.write32 (4096 * q + 4092) (s.ref q - 1) := by
  unfold drop
  split <;> rfl

theorem Heap.setMptr_ref (a q : Nat) : (s.setMptr a).ref q = s.ref q := rfl

theorem Heap.drop_setMptr (q a : Nat) : (s.drop q).setMptr a = (s.setMptr a).drop q := by
  unfold drop
  rw [s.setMptr_ref a q]
  split <;> rfl

theorem Heap.drop_of_ne (h : p ≠ q) : (s.drop q).mapped p = s.mapped p ∧ (s.drop q).continued p = s.continued p := by
  unfold drop
  split
  · exact ⟨update_of_ne h .., update_of_ne h ..⟩
  · exact ⟨rfl, rfl⟩

theorem Heap.drop_self (h : (s.drop q).mapped q = true) : s.ref q - 1 ≠ 0 ∧ (s.drop q).continued q = s.continued q := by
  unfold drop at h ⊢
  by_cases hr : s.ref q - 1 = 0
  · rw [if_pos hr] at h
    simp [unmap] at h
  · rw [if_neg hr]
    exact ⟨hr, rfl⟩

theorem Heap.drop_of_more (h : 1 < (s.ref q).toNat) :
    (s.drop q).mapped = s.mapped ∧ (s.drop q).continued = s.continued := by
  unfold drop
  rw [if_neg]
  · exact ⟨rfl, rfl⟩
  · intro h0
    have hone : s.ref q = 1 := by
      rw [BitVec.sub_eq_iff_eq_add] at h0
      simpa using h0
    rw [hone] at h
    exact absurd h (by decide)

theorem Heap.drop_ref_self (q : Nat) : (s.drop q).ref q = s.ref q - 1 := by
  simp [ref]

theorem Heap.drop_ref_of_ne (h : p ≠ q) : (s.drop q).ref p = s.ref p := by
  refine ref_congr fun x hx => ?_
  rw [drop_mem]
  exact Mem.write32_of_outside (by omega)

end

theorem bump_self (spare : Nat → Nat) (q : Nat) : bump spare q q = spare q + 1 := by
  simp [bump]

theorem bump_of_ne (spare : Nat → Nat) (h : q ≠ p) : bump spare q p = spare p := by
  simp [bump, h]

namespace Heap.Ok

variable {s : Heap} {live : List Chunk} {spare : Nat → Nat}

theorem drop (h : s.Ok live (bump spare q)) (hm : s.mapped q = true) (hc : s.continued q = false) :
    (s.drop q).Ok live spare := by
  have hq := h.refs q hm hc
  rw [bump_self] at hq
  -- A page that chunks or `mptr` use keeps a reference.
  have huse : ∀ p, p ≠ q ∨ 0 < count live p + s.opened p →
      (s.drop q).mapped p = s.mapped p ∧ (s.drop q).continued p = s.continued p := by
    intro p hp
    by_cases hpq : p = q
    · subst hpq
      have hmore := s.drop_of_more (q := p) (by omega)
      rw [hmore.1, hmore.2]
      exact ⟨rfl, rfl⟩
    · exact s.drop_of_ne hpq
  have hmptr := s.drop_mptr q
  have hopen : ∀ p, (s.drop q).opened p = s.opened p := by simp [Heap.opened]
  refine ⟨by rw [hmptr]; exact h.aligned, fun ho => ?_, fun c hc' => ?_, by rw [hmptr]; exact h.below, h.apart,
    fun p hp hp' => ?_, fun p hin hp hp' => ?_, fun p hin hp hp' => ?_⟩
  · rw [hmptr] at ho ⊢
    have hpos : 0 < s.opened (s.mptr / 4096) := by simp [Heap.opened, ho]
    obtain ⟨h₁, h₂⟩ := huse (s.mptr / 4096) (.inr (by omega))
    rw [h₁, h₂]
    exact h.opened ho
  · have hat := h.chunks c hc'
    refine hat.congr fun p h₁ h₂ => huse p ?_
    rcases Nat.lt_or_eq_of_le h₂ with hlt | rfl
    · refine .inl fun hpq => ?_
      rcases hat.out hc with hlt' | hge <;> omega
    · have hpos := count_pos hc'
      exact .inr (by omega)
  · rw [hopen]
    by_cases hpq : p = q
    · subst hpq
      have h1 : (1 : Word).toNat = 1 := rfl
      rw [s.drop_ref_self, BitVec.toNat_sub_of_le]
      · omega
      · bv_omega
    · obtain ⟨h₁, h₂⟩ := s.drop_of_ne hpq
      rw [s.drop_ref_of_ne hpq, h.refs p (h₁ ▸ hp) (h₂ ▸ hp'), bump_of_ne spare (Ne.symm hpq)]
  · by_cases hpq : p = q
    · subst hpq
      rw [s.drop_ref_self]
      exact (s.drop_self hp).1
    · obtain ⟨h₁, h₂⟩ := s.drop_of_ne hpq
      rw [s.drop_ref_of_ne hpq]
      exact h.kept p hin (h₁ ▸ hp) (h₂ ▸ hp')
  · by_cases hpq : p = q
    · subst hpq
      rw [(s.drop_self hp).2, hc] at hp'
      cases hp'
    · obtain ⟨h₁, h₂⟩ := s.drop_of_ne hpq
      exact h.owned p hin (h₁ ▸ hp) (h₂ ▸ hp')

theorem ref_untouched (h : s.Ok live spare) (hm : s.mapped q = true) (hc : s.continued q = false)
    (ht : t.mem = s.mem.write32 (4096 * q + 4092) w) : Untouched live s t := by
  intro c hc' x hx
  have hsafe : State.Safe ⟨s, live⟩ := h.safe
  rw [ht]
  refine Mem.write32_of_outside ?_
  rcases hsafe.refs c hc' x hx q hm hc with h | h <;> omega

theorem inner_apart (h : s.Ok (l ++ c :: l') spare) (hc' : c' ∈ l ++ l') (h₁ : c'.first ≤ p) (h₂ : p ≤ c'.last) :
    ¬ (c.first ≤ p ∧ p < c.last) := by
  intro hin
  have hat := h.chunks c (by simp)
  have hat' := h.chunks c' (by
    rw [List.mem_append] at hc' ⊢
    exact hc'.imp id (List.mem_cons_of_mem _))
  have hapart : c'.Apart c ∨ c.Apart c' := by
    have hpair := List.pairwise_append.1 h.apart
    rcases List.mem_append.1 hc' with hl | hl
    · exact .inl (hpair.2.2 c' hl c (by simp))
    · exact .inr ((List.pairwise_cons.1 hpair.2.1).1 c' hl)
  -- A marked page is no chunk's last.
  have hlt : p < c'.last := by
    refine Nat.lt_of_le_of_ne h₂ fun heq => ?_
    have hl := hat'.last.2
    rw [← heq, (hat.inner p hin.1 hin.2).2] at hl
    cases hl
  have hlast := Chunk.last_le_end hat.aligned
  have hlast' := Chunk.last_le_end hat'.aligned
  have hstart := hat.starts (by omega)
  have hstart' := hat'.starts (by omega)
  unfold Chunk.Apart at hapart
  unfold Chunk.first at h₁ hin
  omega

theorem count_middle (l l' : List Chunk) (c : Chunk) (p : Nat) :
    count (l ++ c :: l') p = count (l ++ l') p + if c.last = p then 1 else 0 := by
  rw [count_append, count_append, count_cons]
  omega

theorem clear (h : s.Ok (l ++ c :: l') spare) : (s.clear c.first c.last).Ok (l ++ l') (bump spare c.last) := by
  have hsub : (l ++ l').Sublist (l ++ c :: l') := by simp
  have hat := h.chunks c (by simp)
  have hout : ∀ p, ¬ (c.first ≤ p ∧ p < c.last) →
      (s.clear c.first c.last).mapped p = s.mapped p ∧ (s.clear c.first c.last).continued p = s.continued p :=
    fun p hp => ⟨if_neg hp, if_neg hp⟩
  have hmap : ∀ p, (s.clear c.first c.last).mapped p = true →
      ¬ (c.first ≤ p ∧ p < c.last) ∧ s.mapped p = true := by
    intro p hp
    by_cases hin : c.first ≤ p ∧ p < c.last
    · simp [Heap.clear, hin] at hp
    · exact ⟨hin, (hout p hin).1 ▸ hp⟩
  refine ⟨h.aligned, fun ho => ?_, fun c' hc' => ?_, fun c' hc' => h.below c' (hsub.subset hc'), h.apart.sublist hsub,
    fun p hp hp' => ?_, fun p hheap hp hp' => ?_, fun p hheap hp hp' => ?_⟩
  · have hopen := h.opened ho
    obtain ⟨h₁, h₂⟩ := hout (s.mptr / 4096) fun hin => by
      rcases hat.out hopen.2 with hlt | hge <;> omega
    exact ⟨h₁.trans hopen.1, h₂.trans hopen.2⟩
  · exact (h.chunks c' (hsub.subset hc')).congr fun p h₁ h₂ => hout p (h.inner_apart hc' h₁ h₂)
  · obtain ⟨hin, hm⟩ := hmap p hp
    have hle := h.refs p hm ((hout p hin).2 ▸ hp')
    have hopen : (s.clear c.first c.last).opened p = s.opened p := rfl
    rw [count_middle] at hle
    rw [hopen]
    unfold bump
    exact hle.trans (by omega)
  · obtain ⟨hin, hm⟩ := hmap p hp
    exact h.kept p hheap hm ((hout p hin).2 ▸ hp')
  · obtain ⟨hin, hm⟩ := hmap p hp
    obtain ⟨c', hc', hown⟩ := h.owned p hheap hm ((hout p hin).2 ▸ hp')
    refine ⟨c', ?_, hown⟩
    rcases List.mem_append.1 hc' with hl | hl
    · exact List.mem_append_left _ hl
    · rcases List.mem_cons.1 hl with rfl | hl
      · exact absurd hown hin
      · exact List.mem_append_right _ hl

end Heap.Ok

theorem free_ok {s : Heap} (h : s.Ok (l ++ c :: l') spare) (h0 : c.addr ≠ 0) :
    Triple (free c.addr) s (fun _ t => t.Ok (l ++ l') spare ∧ Untouched (l ++ l') s t) fun _ _ => True := by
  have hat := h.chunks c (by simp)
  have hout : ¬ (c.first ≤ c.last ∧ c.last < c.last) := by omega
  have hm : (s.clear c.first c.last).mapped c.last = true := (if_neg hout).trans hat.last.1
  have hc : (s.clear c.first c.last).continued c.last = false := (if_neg hout).trans hat.last.2
  refine (free_eq h0 c.first_le_last (fun p h₁ h₂ => (hat.inner p h₁ h₂).2) hat.last.2).mono ?_ fun _ _ _ => trivial
  rintro _ _ rfl
  exact ⟨h.clear.drop hm hc, h.clear.ref_untouched hm hc (Heap.drop_mem ..)⟩

/-! ## `malloc` -/

namespace Heap.Ok

variable {s : Heap} {live : List Chunk} {spare : Nat → Nat}

/-- `mptr` moves to the start of a page and leaves its reference behind. -/
theorem advance (h : s.Ok live spare) (ha : a % 4096 = 0) :
    Heap.Ok { s with mptr := a, tail := b } live fun p => spare p + s.opened p := by
  have hopen : ∀ p, Heap.opened { s with mptr := a, tail := b } p = 0 := fun p => if_neg fun hn => hn.1 ha
  refine ⟨by dsimp only; omega, fun hn => absurd ha hn, fun c hc => (h.chunks c hc).congr fun _ _ _ => ⟨rfl, rfl⟩,
    fun c _ hn => absurd ha hn, h.apart, fun p hp hp' => ?_, h.kept, h.owned⟩
  rw [hopen]
  exact (h.refs p hp hp').trans (by omega)

theorem advance_aligned (h : s.Ok live spare) (hs : s.mptr % 4096 = 0) (ha : a % 4096 = 0) :
    Heap.Ok { s with mptr := a, tail := b } live spare := by
  have hopen : ∀ p, spare p + s.opened p = spare p := by simp [Heap.opened, hs]
  have hadv := h.advance (b := b) ha
  simp only [hopen] at hadv
  exact hadv

/-- A chunk is added that ends where `mptr` now is, and its reference is counted. -/
theorem added {c : Chunk} (h : s.Ok live spare) (hptr : u.mptr = c.addr + c.size) (hpage : (c.addr + c.size) / 4096 = c.last)
    (hnew : c.At u) (hat : ∀ c' ∈ live, c'.At u) (hapart : ∀ c' ∈ live, c'.Apart c)
    (hbefore : ∀ c' ∈ live, c'.last = c.last → c'.addr + c'.size ≤ c.addr)
    (hw : u.ref c.last = w) (hself : w.toNat = count live c.last + 1 + u.opened c.last + spare' c.last)
    (hold : ∀ p, p ≠ c.last → u.mapped p = true → u.continued p = false →
      s.mapped p = true ∧ s.continued p = false ∧ u.ref p = s.ref p ∧ s.opened p + spare p = spare' p)
    (howned : ∀ p, u.mapped p = true → u.continued p = true →
      (c.first ≤ p ∧ p < c.last) ∨ (s.mapped p = true ∧ s.continued p = true)) : u.Ok (live ++ [c]) spare' := by
  have hal := hnew.aligned
  have hsize := c.size_mod
  have hmem : ∀ {P : Chunk → Prop}, (∀ c' ∈ live, P c') → P c → ∀ c' ∈ live ++ [c], P c' := by
    intro P hl hc c' hc'
    rcases List.mem_append.1 hc' with hc' | hc'
    · exact hl c' hc'
    · exact List.mem_singleton.1 hc' ▸ hc
  refine ⟨by omega, fun _ => ?_, hmem hat hnew, ?_, ?_, fun p hp hp' => ?_, fun p hin hp hp' => ?_, fun p hin hp hp' => ?_⟩
  · rw [hptr, hpage]
    exact hnew.last
  · rw [hptr, hpage]
    exact hmem (fun c' hc' _ heq => Nat.le_add_right_of_le (hbefore c' hc' heq)) fun _ _ => Nat.le_refl _
  · refine List.pairwise_append.2 ⟨h.apart, List.pairwise_singleton .., fun c' hc' d hd => ?_⟩
    rw [List.mem_singleton.1 hd]
    exact hapart c' hc'
  · rw [count_append, count_cons, count_nil]
    by_cases hpc : p = c.last
    · subst hpc
      rw [if_pos rfl, hw, hself]
    · obtain ⟨hm, hc, hr, hsp⟩ := hold p hpc hp hp'
      have hopen : u.opened p = 0 := by simp [Heap.opened, hptr, hpage, Ne.symm hpc]
      rw [hr, h.refs p hm hc, hopen, if_neg (Ne.symm hpc)]
      omega
  · by_cases hpc : p = c.last
    · subst hpc
      intro h0
      have hzero : (0 : Word).toNat = 0 := rfl
      rw [← hw, h0] at hself
      omega
    · obtain ⟨hm, hc, hr, -⟩ := hold p hpc hp hp'
      rw [hr]
      exact h.kept p hin hm hc
  · rcases howned p hp hp' with hown | ⟨hm, hc⟩
    · exact ⟨c, by simp, hown⟩
    · obtain ⟨d, hd, hown⟩ := h.owned p hin hm hc
      exact ⟨d, List.mem_append_left _ hd, hown⟩

theorem share {c : Chunk} (h : s.Ok live spare) (ho : s.mptr % 4096 ≠ 0) (hc : c.addr = s.mptr)
    (hfit : c.first = c.last) (hr : (s.ref c.last).toNat < 2 ^ 32 - 1) :
    Heap.Ok (Heap.setMptr { s with mem := s.mem.write32 (4096 * c.last + 4092) (s.ref c.last + 1) } (c.addr + c.size))
      (live ++ [c]) spare := by
  have hal : c.addr % 4 = 0 := hc ▸ h.aligned
  have hend := Chunk.end_le hal
  have hlast : s.mptr / 4096 = c.last := by rw [← hfit, Chunk.first, hc]
  have hpage : (c.addr + c.size) / 4096 = c.last := by omega
  have hmod : (c.addr + c.size) % 4096 ≠ 0 := by omega
  have hopen := h.opened ho
  rw [hlast] at hopen
  -- The chunks of the page end before `mptr`, the others have no part in it.
  have hbefore : ∀ c' ∈ live, c'.last = c.last → c'.addr + c'.size ≤ c.addr := by
    intro c' hc' heq
    rw [hc]
    exact h.below c' hc' ho (heq.trans hlast.symm)
  refine h.added rfl hpage ⟨hal, by omega, fun p h₁ h₂ => by omega, hopen⟩
    (fun c' hc' => (h.chunks c' hc').congr fun _ _ _ => ⟨rfl, rfl⟩) (fun c' hc' => ?_) hbefore
    (Mem.read32_write32_self ..) ?_ ?_ fun p hp hp' => .inr ⟨hp, hp'⟩
  · by_cases heq : c'.last = c.last
    · exact .inl (hbefore c' hc' heq)
    · refine .of_pages (h.chunks c' hc').aligned hal ?_
      rcases (h.chunks c' hc').out hopen.2 with hlt | hge <;> omega
  · have hrefs := h.refs c.last hopen.1 hopen.2
    have h1 : (1 : Word).toNat = 1 := rfl
    rw [BitVec.toNat_add_of_lt (by omega)]
    simp only [Heap.opened, Heap.setMptr, hpage, hlast, ho, hmod, ne_eq, not_false_eq_true, and_self, if_true] at hrefs ⊢
    omega
  · intro p hpc hp hp'
    refine ⟨hp, hp', Mem.read32_write32_of_disjoint _ (by omega), ?_⟩
    simp [Heap.opened, hlast, Ne.symm hpc]

end Heap.Ok

/-- The search leaves `mptr` at the start of a page, and at free ones if it has
found any. -/
def Found (s : Heap) (n : Nat) (found : Bool) (t : Heap) : Prop :=
  ∃ a b, t = { s with mptr := a, tail := b } ∧ a % 4096 = 0 ∧ (found = true → s.isfree a (n + 4) = true)

theorem Heap.nextPage_mptr (s : Heap) : s.nextPage.mptr = (s.mptr + 4096) % 2 ^ 32 := rfl

theorem Heap.nextPage_mapped (s : Heap) : s.nextPage.mapped = s.mapped := by
  simp only [setMptr, nextPage]

theorem Heap.nextPage_setMptr (s : Heap) (a : Nat) :
    s.nextPage.setMptr a = { s with mptr := a, tail := (s.nextPage.setMptr a).tail } := by
  simp only [setMptr, nextPage]

theorem Heap.isfree_congr {s t : Heap} (h : t.mapped = s.mapped) (a n : Nat) : t.isfree a n = s.isfree a n := by
  unfold isfree
  rw [h]

theorem Found.of_moved {s u : Heap} (hu : u = { s with mptr := c, tail := d }) (h : Found u n found t) :
    Found s n found t := by
  obtain ⟨a, b, rfl, ha, hfree⟩ := h
  refine ⟨a, b, by rw [hu], ha, fun hf => ?_⟩
  rw [← Heap.isfree_congr (s := s) (t := u) (by rw [hu])]
  exact hfree hf

theorem findSpace_ok {s : Heap} (ha : s.mptr % 4096 = 0) :
    Triple (findSpace n k nwrap) s (fun found t => Found s n found t) fun _ _ => True := by
  induction k generalizing s nwrap with
  | zero => exact .throw trivial
  | succ k ih =>
    have hnext : s.nextPage = { s with mptr := s.nextPage.mptr, tail := s.nextPage.tail } := rfl
    have hwrap := s.nextPage_setMptr mbegin
    have hlow : (s.nextPage.setMptr mbegin).mptr % 4096 = 0 := Nat.mod_eq_zero_of_dvd ⟨32768, rfl⟩
    unfold findSpace
    refine .get_bind ?_
    refine .ite (fun hfree => .pure ⟨s.mptr, s.tail, rfl, ha, fun _ => hfree⟩) fun _ => ?_
    refine .modify_bind ?_
    refine .ite (fun hend => ?_) fun _ => ?_
    · refine .modify_bind ?_
      refine .ite (fun _ => .pure ⟨_, _, hwrap, hlow, nofun⟩) fun _ => ?_
      exact (ih hlow).imp (fun _ _ h => h.of_moved hwrap)
    · refine (ih (s := s.nextPage) ?_).imp (fun _ _ h => h.of_moved hnext)
      rw [s.nextPage_mptr]
      omega

/-- The pages from `p` to `q - 1` are mapped, all but the last marked. -/
structure Filled (s t : Heap) (p q : Nat) : Prop where
  mptr : t.mptr = s.mptr
  inside : ∀ x, p ≤ x → x < q → t.mapped x = true ∧ t.continued x = decide (x + 1 < q)
  outside : ∀ x, x < p ∨ q ≤ x → t.mapped x = s.mapped x ∧ t.continued x = s.continued x
  mem : ∀ x, x / 4096 < p ∨ q ≤ x / 4096 → t.mem x = s.mem x

/-- The user pages from `p` to `q - 1` are given back, and perhaps more of those from `q` to `r - 1`. -/
structure Emptied (s t : Heap) (p q r : Nat) : Prop where
  mptr : t.mptr = s.mptr
  inside : ∀ x, t.mapped x = true → s.mapped x = true ∧ ¬ (p ≤ x ∧ x < q ∧ 4096 * x < utop.toNat)
  outside : ∀ x, x < p ∨ r ≤ x → t.mapped x = s.mapped x ∧ t.continued x = s.continued x
  mem : ∀ x, x / 4096 < p ∨ r ≤ x / 4096 → t.mem x = s.mem x

section
variable {s : Heap} (hv : v % 4096 = 0)
include hv

theorem Emptied.unmap :
    Triple (sysPageUnmap v) s (fun _ t => Emptied s t (v / 4096) (v / 4096 + 1) (v / 4096 + 1)) E := by
  have hpage : 4096 * (v / 4096) = v := by omega
  refine .modify ?_
  split
  · refine ⟨rfl, fun x hx => ?_, fun x hx => ?_, fun _ _ => rfl⟩
    · by_cases h : x = v / 4096
      · simp [Heap.unmap, h] at hx
      · exact ⟨by simpa [Heap.unmap, h] using hx, by omega⟩
    · have hne : x ≠ v / 4096 := by omega
      simp [Heap.unmap, hne]
  · refine ⟨rfl, fun x hx => ⟨hx, fun hin => ?_⟩, fun _ _ => ⟨rfl, rfl⟩, fun _ _ => rfl⟩
    have heq : x = v / 4096 := by omega
    rw [heq, hpage] at hin
    exact absurd hin.2.2 ‹_›

theorem unmapDown_ok :
    Triple (unmapDown v i) s (fun _ t => Emptied s t (v / 4096) (v / 4096 + i + 1) (v / 4096 + i + 1)) E := by
  induction i generalizing s with
  | zero => exact Emptied.unmap hv
  | succ i ih =>
    have hpage : (v + 4096 * (i + 1)) / 4096 = v / 4096 + i + 1 := by omega
    have hfirst := Emptied.unmap (v := v + 4096 * (i + 1)) (s := s) (E := E) (by omega)
    rw [hpage] at hfirst
    refine .bind hfirst fun _ u hu => ih.imp (fun _ t h => ?_)
    refine ⟨h.mptr.trans hu.mptr, fun x hx => ?_, fun x hx => ?_, fun x hx => ?_⟩
    · obtain ⟨hm, hn⟩ := h.inside x hx
      obtain ⟨hm', hn'⟩ := hu.inside x hm
      exact ⟨hm', by omega⟩
    · obtain ⟨hm, hc⟩ := h.outside x (by omega)
      obtain ⟨hm', hc'⟩ := hu.outside x (by omega)
      exact ⟨hm.trans hm', hc.trans hc'⟩
    · exact (h.mem x (by omega)).trans (hu.mem x (by omega))

theorem allocPages_ok : Triple (allocPages v k i avail) s
      (fun done t => (done = true → Filled s t (v / 4096 + i) (v / 4096 + i + k)) ∧
        (done = false → Emptied s t (v / 4096) (v / 4096 + i + 1) (v / 4096 + i + k))) E := by
  induction k generalizing s i avail with
  | zero =>
    refine .pure ⟨fun _ => ?_, nofun⟩
    exact ⟨rfl, fun x h₁ h₂ => by omega, fun _ _ => ⟨rfl, rfl⟩, fun _ _ => rfl⟩
  | succ k ih =>
    unfold allocPages
    refine .ite (fun _ => ?_) fun hgo => ?_
    · refine .bind (unmapDown_ok hv) fun _ t h => .pure ⟨nofun, fun _ => ?_⟩
      exact ⟨h.mptr, h.inside, fun x hx => h.outside x (by omega), fun x hx => h.mem x (by omega)⟩
    · have hpage : (v + 4096 * i) / 4096 = v / 4096 + i := by omega
      refine .bind (.modify (Q := fun _ u => u = s.map (v / 4096 + i) (decide (0 < k))) (by rw [hpage])) ?_
      rintro _ _ rfl
      refine ih.imp (fun done t h => ⟨fun hd => ?_, fun hd => ?_⟩)
      · have hf := h.1 hd
        refine ⟨hf.mptr, fun x h₁ h₂ => ?_, fun x hx => ?_, fun x hx => ?_⟩
        · rcases Nat.lt_or_eq_of_le h₁ with hlt | rfl
          · obtain ⟨hm, hc⟩ := hf.inside x hlt (by omega)
            refine ⟨hm, hc.trans (decide_eq_decide.2 (by omega))⟩
          · obtain ⟨hm, hc⟩ := hf.outside (v / 4096 + i) (by omega)
            rw [hm, hc]
            simp [Heap.map]
        · have hne : x ≠ v / 4096 + i := by omega
          obtain ⟨hm, hc⟩ := hf.outside x (by omega)
          rw [hm, hc]
          simp [Heap.map, hne]
        · refine (hf.mem x (by omega)).trans (Mem.fill_of_outside ?_)
          omega
      · have he := h.2 hd
        refine ⟨he.mptr, fun x hx => ?_, fun x hx => ?_, fun x hx => ?_⟩
        · obtain ⟨hm, hn⟩ := he.inside x hx
          have hne : x ≠ v / 4096 + i := by omega
          exact ⟨by simpa [Heap.map, hne] using hm, by omega⟩
        · have hne : x ≠ v / 4096 + i := by omega
          obtain ⟨hm, hc⟩ := he.outside x (by omega)
          rw [hm, hc]
          simp [Heap.map, hne]
        · refine (he.mem x (by omega)).trans (Mem.fill_of_outside ?_)
          omega

end

theorem Heap.isfree_page {s : Heap} (h : s.isfree a (n + 4) = true) (ha : a % 4096 = 0) (hn : a + (n + 4) < 2 ^ 32)
    (h₁ : a / 4096 ≤ p) (h₂ : p < a / 4096 + (n + 4 + 4095) / 4096) : 4096 * p < mend ∧ s.mapped p = false := by
  unfold isfree at h
  rw [Nat.mod_eq_of_lt hn, Nat.add_sub_cancel_left] at h
  have hp := List.all_eq_true.1 h (p - a / 4096) (List.mem_range.2 (by omega))
  have hpage : (a + 4096 * (p - a / 4096)) / 4096 = p := by omega
  have haddr : a + 4096 * (p - a / 4096) = 4096 * p := by omega
  rw [hpage, haddr] at hp
  simpa using hp

namespace Heap.Ok

variable {s t : Heap} {live : List Chunk} {spare : Nat → Nat}

theorem chunk_apart (h : s.Ok live spare) (hc : c ∈ live) (hfree : ∀ p, b ≤ p → p < e → s.mapped p = false)
    (h₁ : c.first ≤ p) (h₂ : p ≤ c.last) : p < b ∨ e ≤ p := by
  by_contra hin
  have hm := (h.chunks c hc).mapped h₁ h₂
  rw [hfree p (by omega) (by omega)] at hm
  cases hm

theorem emptied (h : s.Ok live spare) (hfree : ∀ p, b ≤ p → p < e → s.mapped p = false) (he : Emptied s t b q e) :
    t.Ok live spare ∧ Untouched live s t := by
  have hout : ∀ p, s.mapped p = true → t.mapped p = s.mapped p ∧ t.continued p = s.continued p ∧ t.ref p = s.ref p := by
    intro p hp
    have hapart : p < b ∨ e ≤ p := by
      by_contra hin
      rw [hfree p (by omega) (by omega)] at hp
      cases hp
    obtain ⟨hm, hc⟩ := he.outside p hapart
    exact ⟨hm, hc, Heap.ref_congr fun x hx => he.mem x (hx ▸ hapart)⟩
  have hold : ∀ p, t.mapped p = true → s.mapped p = true := fun p hp => (he.inside p hp).1
  refine ⟨⟨by rw [he.mptr]; exact h.aligned, fun ho => ?_, fun c hc => ?_, by rw [he.mptr]; exact h.below, h.apart,
    fun p hp hp' => ?_, fun p hin hp hp' => ?_, fun p hin hp hp' => ?_⟩, fun c hc x hx => ?_⟩
  · rw [he.mptr] at ho ⊢
    have hopen := h.opened ho
    obtain ⟨hm, hc, -⟩ := hout _ hopen.1
    rw [hm, hc]
    exact hopen
  · exact (h.chunks c hc).congr fun p h₁ h₂ => he.outside p (h.chunk_apart hc hfree h₁ h₂)
  · obtain ⟨hm, hc, hr⟩ := hout p (hold p hp)
    have ho : t.opened p = s.opened p := by simp [Heap.opened, he.mptr]
    rw [ho, hr]
    exact h.refs p (hold p hp) (hc ▸ hp')
  · obtain ⟨hm, hc, hr⟩ := hout p (hold p hp)
    rw [hr]
    exact h.kept p hin (hold p hp) (hc ▸ hp')
  · obtain ⟨hm, hc, -⟩ := hout p (hold p hp)
    exact h.owned p hin (hold p hp) (hc ▸ hp')
  · obtain ⟨h₁, h₂⟩ := Chunk.page_of_byte hx
    exact he.mem x (h.chunk_apart hc hfree h₁ h₂)

/-- A chunk on new pages, with a reference for `mptr` and one for the chunk: the
first is spare if `mptr` does not come to lie inside the last page. -/
theorem filled {c : Chunk} (h : s.Ok live spare) (ha : s.mptr % 4096 = 0) (hc : c.addr = s.mptr)
    (hfree : ∀ p, c.first ≤ p → p < c.last + 1 → s.mapped p = false) (hf : Filled s t c.first (c.last + 1)) :
    Heap.Ok (Heap.setMptr { t with mem := t.mem.write32 (4096 * c.last + 4092) 2 } (c.addr + c.size)) (live ++ [c])
      (update spare c.last (if c.size % 4096 = 0 then 1 else 0)) := by
  have hal := h.aligned
  have hsize := c.size_mod
  have hfl := c.first_le_last
  have hpage : (c.addr + c.size) / 4096 = c.last := by
    unfold Chunk.last
    omega
  have hmod : (c.addr + c.size) % 4096 = c.size % 4096 := by omega
  have hlast := hf.inside c.last hfl (Nat.lt_succ_self _)
  have hnew : t.continued c.last = false := by simpa using hlast.2
  have hpages : ∀ c' ∈ live, c'.last < c.first ∨ c.last < c'.first := by
    intro c' hc'
    have hfl' := c'.first_le_last
    have hone := h.chunk_apart hc' hfree (Nat.le_refl _) hfl'
    have htwo := h.chunk_apart hc' hfree (p := max c.first c'.first)
    omega
  have hne : ∀ c' ∈ live, c'.last ≠ c.last := by
    intro c' hc'
    have hfl' := c'.first_le_last
    rcases hpages c' hc' with hlt | hlt <;> omega
  refine h.added rfl hpage ⟨hc ▸ hal, fun _ => hc ▸ ha, fun p h₁ h₂ => ?_, hlast.1, hnew⟩
    (fun c' hc' => (h.chunks c' hc').congr fun p h₁ h₂ => hf.outside p (h.chunk_apart hc' hfree h₁ h₂))
    (fun c' hc' => .of_pages (h.chunks c' hc').aligned (hc ▸ hal) (hpages c' hc'))
    (fun c' hc' heq => absurd heq (hne c' hc')) (Mem.read32_write32_self ..) ?_ (fun p hpc hp hp' => ?_) fun p hp hp' => ?_
  · obtain ⟨hm, hcont⟩ := hf.inside p h₁ (by omega)
    exact ⟨hm, hcont.trans (decide_eq_true (by omega))⟩
  · have hnone : count live c.last = 0 := List.countP_eq_zero.2 fun c' hc' => by simpa using hne c' hc'
    rw [hnone, update_self]
    simp only [Heap.opened, Heap.setMptr, hpage, hmod]
    by_cases h0 : c.size % 4096 = 0 <;> simp [h0]
  · -- A page that is not marked is the last new one, or was there before.
    have hapart : p < c.first ∨ c.last + 1 ≤ p := by
      by_contra hin
      have hin' := (hf.inside p (by omega) (by omega)).2
      rw [show t.continued p = false from hp'] at hin'
      have hno := of_decide_eq_false hin'.symm
      omega
    obtain ⟨hm, hc'⟩ := hf.outside p hapart
    refine ⟨hm ▸ hp, hc' ▸ hp', (Mem.read32_write32_of_disjoint _ (by omega)).trans ?_, ?_⟩
    · exact Heap.ref_congr fun x hx => hf.mem x (hx ▸ hapart)
    · simp [Heap.opened, ha, update_of_ne hpc]
  · by_cases hpc : c.first ≤ p ∧ p < c.last + 1
    · have hlt := of_decide_eq_true ((hf.inside p hpc.1 hpc.2).2.symm.trans hp')
      exact .inl ⟨hpc.1, by omega⟩
    · obtain ⟨hm, hc'⟩ := hf.outside p (by omega)
      exact .inr ⟨hm ▸ hp, hc' ▸ hp'⟩

theorem filled_untouched {c : Chunk} (h : s.Ok live spare)
    (hfree : ∀ p, c.first ≤ p → p < c.last + 1 → s.mapped p = false) (hf : Filled s t c.first (c.last + 1)) :
    Untouched live s (Heap.setMptr { t with mem := t.mem.write32 (4096 * c.last + 4092) 2 } a) := by
  intro c' hc' x hx
  obtain ⟨h₁, h₂⟩ := Chunk.page_of_byte hx
  have hapart := h.chunk_apart hc' hfree h₁ h₂
  have hfl := c.first_le_last
  refine (Mem.write32_of_outside ?_).trans (hf.mem x hapart)
  omega

theorem forget (h : s.Ok (live ++ [c]) spare) (hout : ∀ p, c.first ≤ p → p ≤ c.last → ¬ HeapPage p) :
    s.Ok live (bump spare c.last) := by
  have hsub : live.Sublist (live ++ [c]) := by simp
  refine ⟨h.aligned, h.opened, fun c' hc' => h.chunks c' (hsub.subset hc'),
    fun c' hc' => h.below c' (hsub.subset hc'), h.apart.sublist hsub, fun p hp hp' => ?_, h.kept, fun p hin hp hp' => ?_⟩
  · have hrefs := h.refs p hp hp'
    rw [count_append, count_cons, count_nil] at hrefs
    unfold bump
    omega
  · obtain ⟨d, hd, hown⟩ := h.owned p hin hp hp'
    rcases List.mem_append.1 hd with hd | hd
    · exact ⟨d, hd, hown⟩
    · rw [List.mem_singleton.1 hd] at hown
      exact absurd hin (hout p hown.1 (by omega))

end Heap.Ok

/-- What `malloc` leaves, `v` its result: when `tidy`, there are no more spare
references in the heap than before. -/
def Given (live : List Chunk) (spare : Nat → Nat) (tidy : Prop) (n : Nat) (s : Heap) (v : Nat) (t : Heap) : Prop :=
  Untouched live s t ∧ ∃ spare', t.Ok (if v = 0 then live else live ++ [⟨v, n⟩]) spare' ∧
    (v = 0 ∨ tidy → ∀ p, HeapPage p → spare' p ≤ spare p)

section
variable {s : Heap} (h : s.Ok live spare)
include h

theorem newPages_ok (ha : s.mptr % 4096 = 0) (hn : (n + 3) / 4 * 4 < maxmalloc) :
    Triple (newPages ((n + 3) / 4 * 4) avail) s
      (fun v t => Given live spare ((n + 3) / 4 * 4 % 4096 ≠ 0) n s v t) fun _ _ => True := by
  refine .bind (findSpace_ok ha) ?_
  rintro found _ ⟨a, b, rfl, ha', hfree⟩
  generalize hu : { s with mptr := a, tail := b } = u
  have hptr : u.mptr = a := hu ▸ rfl
  have hok : u.Ok live spare := hu ▸ h.advance_aligned ha ha'
  have hmem : ∀ {t : Heap}, Untouched live u t → Untouched live s t := by
    intro t ht
    rw [← hu] at ht
    exact ht
  refine .ite (fun _ => .pure ⟨hmem fun _ _ _ _ => rfl, spare, hok, fun _ _ _ => Nat.le_refl _⟩) fun hfound => ?_
  have hfree := hfree (by simpa using hfound)
  refine .get_bind ?_
  by_cases hwrap : a + ((n + 3) / 4 * 4 + 4) < 2 ^ 32
  · refine .bind (allocPages_ok (hptr ▸ ha')) fun done t hd => ?_
    -- The chunk that the pages are for.
    generalize hc : Chunk.mk a n = c
    have haddr : c.addr = a := hc ▸ rfl
    have hsize : c.size = (n + 3) / 4 * 4 := hc ▸ rfl
    have hend : u.mptr / 4096 + 0 + ((n + 3) / 4 * 4 + 4 + 4095) / 4096 = c.last + 1 := by
      rw [hptr, Chunk.last, haddr, hsize]
      omega
    have hfirst : u.mptr / 4096 = c.first := by rw [hptr, Chunk.first, haddr]
    rw [hend, Nat.add_zero, hfirst] at hd
    have hfree' : ∀ p, c.first ≤ p → p < c.last + 1 → u.mapped p = false := by
      intro p h₁ h₂
      rw [← hfirst, hptr] at h₁
      rw [← hend, hptr] at h₂
      have hnone := (Heap.isfree_page hfree ha' hwrap h₁ h₂).2
      rw [← hu]
      exact hnone
    refine .ite (fun hno => .pure ?_) fun hdone => ?_
    · have he := hd.2 (by simpa using hno)
      obtain ⟨hok', hun⟩ := hok.emptied hfree' he
      exact ⟨hmem hun, spare, hok', fun _ _ _ => Nat.le_refl _⟩
    · have hf := hd.1 (by simpa using hdone)
      have href : u.mptr + 4096 * (((n + 3) / 4 * 4 + 4 + 4095) / 4096) - 4 = 4096 * c.last + 4092 := by omega
      rw [href]
      refine .bind (storeRef_ok fun _ => trivial) ?_
      rintro _ _ ⟨rfl, -⟩
      refine .bind (.modify (Q := fun _ t' => t' =
        Heap.setMptr { t with mem := t.mem.write32 (4096 * c.last + 4092) 2 } (c.addr + c.size)) ?_) ?_
      · rw [haddr, hsize, hptr]
      rintro _ _ rfl
      refine .pure ⟨hmem (hok.filled_untouched hfree' hf), ?_⟩
      have hnew := hok.filled (hptr ▸ ha') (haddr.trans hptr.symm) hfree' hf
      by_cases h0 : u.mptr = 0
      · -- Page 0: the caller takes the result for a failure.
        have hlow : ∀ p, p ≤ c.last → ¬ HeapPage p := by
          intro p hp hheap
          unfold maxmalloc at hn
          unfold HeapPage mbegin at hheap
          omega
        rw [if_pos h0]
        refine ⟨_, hnew.forget fun p _ hp => hlow p hp, fun _ p hheap => ?_⟩
        have hne : p ≠ c.last := fun heq => hlow p (Nat.le_of_eq heq) hheap
        rw [bump_of_ne _ (Ne.symm hne), update_of_ne hne]
      · rw [if_neg h0, show Chunk.mk u.mptr n = c by rw [hptr, hc]]
        refine ⟨_, hnew, fun htidy p _ => ?_⟩
        by_cases hp : p = c.last
        · rw [hp, update_self, if_neg (hsize ▸ htidy.resolve_left h0)]
          exact Nat.zero_le _
        · rw [update_of_ne hp]
  · -- The addresses wrap around, where no page can be mapped.
    have htop : utop.toNat ≤ u.mptr + 4096 * 0 := by
      rw [hptr, utop_toNat]
      unfold maxmalloc at hn
      omega
    obtain ⟨k, hk⟩ : ∃ k, ((n + 3) / 4 * 4 + 4 + 4095) / 4096 = k + 1 := ⟨((n + 3) / 4 * 4 + 4095 + 4) / 4096 - 1, by omega⟩
    dsimp only
    rw [hk]
    unfold allocPages
    rw [if_pos (.inr htop)]
    have hsame : Triple (unmapDown u.mptr 0) u (fun _ t => u = t) fun _ _ => True :=
      .modify (if_neg (Nat.not_lt.2 htop)).symm
    refine .bind (.bind hsame fun _ t ht => .pure (Q := fun done t => done = false ∧ u = t) ⟨rfl, ht⟩) ?_
    rintro _ _ ⟨rfl, rfl⟩
    exact .ite (fun _ => .pure ⟨hmem fun _ _ _ _ => rfl, spare, hok, fun _ _ _ => Nat.le_refl _⟩)
      fun hno => absurd nofun hno

theorem sharePage_ok (ho : s.mptr % 4096 ≠ 0) (hfit : s.mptr / 4096 = (s.mptr + (n + 3) / 4 * 4 + 3) / 4096)
    (hr : (s.ref (s.mptr / 4096)).toNat < 2 ^ 32 - 1) :
    Triple (do
        storeRef ((s.mptr + 4095) / 4096 * 4096 - 4) ((← loadRef ((s.mptr + 4095) / 4096 * 4096 - 4)) + 1)
        setMptr (s.mptr + (n + 3) / 4 * 4)
        return s.mptr) s (fun v t => Given live spare tidy n s v t) fun _ _ => True := by
  have hopen := h.opened ho
  have hlast : Chunk.last ⟨s.mptr, n⟩ = s.mptr / 4096 := hfit.symm
  have href : (s.mptr + 4095) / 4096 * 4096 - 4 = 4096 * (s.mptr / 4096) + 4092 := by omega
  have h0 : s.mptr ≠ 0 := fun h0 => ho (by rw [h0])
  rw [href]
  refine .bind (loadRef_ok fun _ => trivial) ?_
  rintro _ _ ⟨rfl, rfl⟩
  refine .bind (storeRef_ok fun _ => trivial) ?_
  rintro _ _ ⟨rfl, -⟩
  refine .modify_bind ?_
  refine .pure ⟨h.ref_untouched hopen.1 hopen.2 rfl, spare, ?_, fun _ _ _ => Nat.le_refl _⟩
  have hshare := h.share (c := ⟨s.mptr, n⟩) ho rfl hfit (hlast ▸ hr)
  rw [hlast] at hshare
  rw [if_neg h0]
  exact hshare

theorem nextPage_ok (ho : s.mptr % 4096 ≠ 0) (hn : (n + 3) / 4 * 4 < maxmalloc) : Triple (do
        free s.mptr
        setMptr ((s.mptr + 4096) / 4096 * 4096)
        newPages ((n + 3) / 4 * 4) avail) s
      (fun v t => Given live spare ((n + 3) / 4 * 4 % 4096 ≠ 0) n s v t) fun _ _ => True := by
  have hopen := h.opened ho
  have h0 : s.mptr ≠ 0 := fun h0 => ho (by rw [h0])
  refine .bind ((free_eq h0 (Nat.le_refl _) (fun x h₁ h₂ => by omega) hopen.2).imp_error fun _ _ _ => trivial) ?_
  rintro _ _ rfl
  rw [Heap.clear_self]
  generalize hq : s.mptr / 4096 = q at hopen
  generalize hnext : (s.mptr + 4096) / 4096 * 4096 = a
  have hanext : a % 4096 = 0 := by omega
  have hadv : Heap.Ok (s.setMptr a) live (bump spare q) := by
    have hspare : (fun p => spare p + s.opened p) = bump spare q := by
      funext p
      simp [bump, Heap.opened, ho, hq]
    exact hspare ▸ h.advance hanext
  refine .bind (.modify (Q := fun _ t => t = (s.setMptr a).drop q) (s.drop_setMptr q a)) ?_
  rintro _ _ rfl
  have hun := hadv.ref_untouched hopen.1 hopen.2 ((s.setMptr a).drop_mem q)
  have hdrop := hadv.drop hopen.1 hopen.2
  refine (newPages_ok hdrop ?_ hn).imp (fun _ t hg => ?_)
  · rw [Heap.drop_mptr]
    exact hanext
  · exact ⟨fun c hc x hx => (hg.1 c hc x hx).trans (hun c hc x hx), hg.2⟩

end

/-- The request goes into the page `mptr` is inside of. -/
def Heap.Fits (s : Heap) (n : Nat) : Prop :=
  s.mptr % 4096 ≠ 0 ∧ s.mptr / 4096 = (s.mptr + (n + 3) / 4 * 4 + 3) / 4096

theorem malloc_ok {s : Heap} (h : s.Ok live spare) (hn : n + 3 < 2 ^ 32)
    (hr : s.mptr % 4096 ≠ 0 → (s.ref (s.mptr / 4096)).toNat < 2 ^ 32 - 1) :
    Triple (malloc n avail) s
      (fun v t => Given live spare (s.Fits n ∨ (n + 3) / 4 * 4 % 4096 ≠ 0) n s v t) fun _ _ => True := by
  have hsize : (n + 3) / 4 * 4 % 2 ^ 32 = (n + 3) / 4 * 4 := by omega
  unfold malloc
  refine .get_bind ?_
  refine have hrest : ∀ u : Heap, u.Ok live spare → u.mem = s.mem → (¬ u.Fits n → ¬ s.Fits n) →
      (u.mptr % 4096 ≠ 0 → (u.ref (u.mptr / 4096)).toNat < 2 ^ 32 - 1) → Triple _ u _ _ := ?_
    .ite (fun h0 => .bind (.modify (Q := fun _ u => u = s.setMptr mbegin) rfl) fun _ u hu => ?_)
      fun h0 => hrest s h rfl id hr
  · intro u h hmem hfits hr
    have hgiven : ∀ {tidy : Prop}, (s.Fits n ∨ (n + 3) / 4 * 4 % 4096 ≠ 0 → tidy) → ∀ v t,
        Given live spare tidy n u v t → Given live spare (s.Fits n ∨ (n + 3) / 4 * 4 % 4096 ≠ 0) n s v t := by
      rintro tidy ht v t ⟨hun, spare', hok, hle⟩
      exact ⟨fun c hc x hx => (hun c hc x hx).trans (congrFun hmem x), spare', hok, fun hv => hle (hv.imp id ht)⟩
    dsimp only
    rw [hsize]
    refine .ite (fun _ => .pure ⟨fun _ _ _ _ => congrFun hmem _, spare, h, fun _ _ _ => Nat.le_refl _⟩) fun hmax => ?_
    refine .get_bind ?_
    refine .ite (fun ho => .ite (fun hfit => ?_) fun hfit => ?_) fun ha => ?_
    · exact (sharePage_ok h ho hfit (hr ho)).imp (hgiven fun ht => ht)
    · exact (nextPage_ok h ho (by omega)).imp (hgiven fun ht => ht.resolve_left (hfits fun hf => hfit hf.2))
    · exact (newPages_ok h (by simpa using ha) (by omega)).imp (hgiven fun ht => ht.resolve_left (hfits fun hf => ha hf.1))
  · rw [hu]
    have hs : s.mptr % 4096 = 0 := by rw [h0]
    refine hrest _ (h.advance_aligned hs (by decide)) rfl (fun _ hf => hf.1 hs) fun ho => absurd ?_ ho
    exact Nat.mod_eq_zero_of_dvd ⟨32768, rfl⟩

/-! ## Runs keep the chunks -/

def State.Ok (s : State) : Prop := (∃ spare, s.heap.Ok s.live spare) ∧ ∀ c ∈ s.live, c.addr ≠ 0

theorem initial_ok (mem : Mem) : (initial mem).Ok := by
  refine ⟨⟨0, rfl, fun h => absurd rfl h, nofun, nofun, .nil, nofun, nofun, nofun⟩, nofun⟩

theorem live_ne_zero {live : List Chunk} (h : ∀ c ∈ live, c.addr ≠ 0) :
    ∀ c ∈ if v = 0 then live else live ++ [⟨v, n⟩], c.addr ≠ 0 := by
  intro c hc
  split at hc
  · exact h c hc
  · rename_i hv
    rcases List.mem_append.1 hc with hc | hc
    · exact h c hc
    · rw [List.mem_singleton.1 hc]
      exact hv

theorem Call.ok (h : Call s t) (hok : s.Ok) (hr : s.Uncrowded) :
    t.Ok ∧ ∀ c ∈ s.live, c ∈ t.live → ∀ x, c.Byte x → t.heap.mem x = s.heap.mem x := by
  obtain ⟨⟨spare, hok⟩, h0⟩ := hok
  cases h with
  | malloc hn hexec =>
    have hlt : maxmalloc < 2 ^ 32 - 3 := by decide
    obtain ⟨hun, spare', hok', -⟩ := (malloc_ok hok (by omega) hr).ok hexec
    exact ⟨⟨⟨spare', hok'⟩, live_ne_zero h0⟩, fun c hc _ => hun c hc⟩
  | free hexec =>
    obtain ⟨hok', hun⟩ := (free_ok hok (h0 _ (by simp))).ok hexec
    refine ⟨⟨⟨spare, hok'⟩, fun c hc => h0 c ?_⟩, fun c _ hc => hun c hc⟩
    rw [List.mem_append] at hc ⊢
    exact hc.imp id (List.mem_cons_of_mem _)

theorem State.Ok.safe {s : State} (h : s.Ok) : s.Safe := by
  obtain ⟨⟨_, hok⟩, -⟩ := h
  exact hok.safe

theorem Call.spares (h : Call s t) (hok : s.Ok) (hr : s.Uncrowded) : s.Spares t := by
  obtain ⟨hok', hun⟩ := h.ok hok hr
  refine ⟨hun, fun p _ hp c hc x hx hxp => ?_⟩
  have hm := hok'.safe.mapped c hc x hx
  rw [hxp, hp] at hm
  cases hm

theorem Heap.Ok.store {s : Heap} (h : s.Ok live spare) (hc : c ∈ live) (hx : c.Byte x) :
    Heap.Ok { s with mem := update s.mem x b } live spare := by
  have hsafe : State.Safe ⟨s, live⟩ := h.safe
  have href : ∀ p, s.mapped p = true → s.continued p = false →
      Heap.ref { s with mem := update s.mem x b } p = s.ref p := by
    intro p hp hp'
    refine Mem.read32_congr fun y h₁ h₂ => update_of_ne (fun hy => ?_) ..
    subst hy
    rcases hsafe.refs c hc y hx p hp hp' with h | h <;> omega
  refine ⟨h.aligned, h.opened, fun c hc => (h.chunks c hc).congr fun _ _ _ => ⟨rfl, rfl⟩, h.below, h.apart,
    fun p hp hp' => ?_, fun p hin hp hp' => ?_, h.owned⟩
  · rw [href p hp hp']
    exact h.refs p hp hp'
  · rw [href p hp hp']
    exact h.kept p hin hp hp'

theorem Step.ok (h : Step s t) (hok : s.Ok) (hr : s.Uncrowded) : t.Ok := by
  cases h with
  | call h => exact (h.ok hok hr).1
  | store hc hx =>
    obtain ⟨⟨spare, hok⟩, h0⟩ := hok
    exact ⟨⟨spare, hok.store hc hx⟩, h0⟩

theorem UncrowdedRuns.ok (h : UncrowdedRuns s t) (hok : s.Ok) : t.Ok := by
  induction h with
  | refl => exact hok
  | tail _ hstep ih => exact hstep.2.1.ok ih hstep.1

/-- While no reference word runs over, live chunks are apart, mapped and off the
reference words, and a call leaves those it does not free alone. -/
theorem heap_chunks_safe (h : UncrowdedRuns (initial mem) s) :
    s.Safe ∧ ∀ t, Call s t → s.Uncrowded → t.heap.tail = false → s.Spares t := by
  have hok := h.ok (initial_ok mem)
  exact ⟨hok.safe, fun t hcall hr _ => hcall.spares hok hr⟩

def first : Heap := (exec (malloc 4 1) (initial fun _ => 0).heap).2

theorem exec_first : exec (malloc 4 1) (initial fun _ => 0).heap = (.ok mbegin, first) :=
  Prod.ext rfl rfl

/-- A first chunk of four bytes. -/
theorem heap_chunks_safe_first :
    UncrowdedRuns (initial fun _ => 0) ⟨first, [⟨mbegin, 4⟩]⟩ ∧ State.Safe ⟨first, [⟨mbegin, 4⟩]⟩ := by
  have hcall : Call (initial fun _ => 0) ⟨first, [⟨mbegin, 4⟩]⟩ := .malloc (by decide) exec_first
  have hruns : UncrowdedRuns (initial fun _ => 0) ⟨first, [⟨mbegin, 4⟩]⟩ :=
    .single ⟨fun h => absurd rfl h, .call hcall, rfl⟩
  exact ⟨hruns, (heap_chunks_safe hruns).1⟩

/-! ## A reference word that runs over -/

theorem exec_loadRef {s : Heap} (hm : s.mapped (a / 4096) = true) : exec (loadRef a) s = (.ok (s.mem.read32 a), s) := by
  simp [loadRef, exec_bind, hm]

theorem exec_storeRef {s : Heap} (hm : s.mapped (a / 4096) = true) :
    exec (storeRef a w) s = (.ok (), { s with mem := s.mem.write32 a w }) := by
  simp [storeRef, exec_bind, hm]

theorem exec_malloc_zero {s : Heap} (hp : s.mptr = mbegin + 4) (hm : s.mapped 32768 = true) :
    exec (malloc 0 0) s = (.ok (mbegin + 4),
      Heap.setMptr { s with mem := s.mem.write32 (4096 * 32768 + 4092) (s.ref 32768 + 1) } (mbegin + 4)) := by
  have h0 : s.mptr ≠ 0 := by
    rw [hp]
    decide
  unfold malloc
  rw [exec_bind_ok (exec_get s), if_neg h0]
  dsimp only
  rw [if_neg (by decide), exec_bind_ok (exec_get s), hp, if_pos (by decide), if_pos (by decide)]
  rw [exec_bind_ok (exec_loadRef hm), exec_bind_ok (exec_storeRef hm)]
  rfl

theorem exec_free_small {s : Heap} (hm : s.mapped 32768 = true) (hc : s.continued 32768 = false) :
    exec (free (mbegin + 4)) s = (.ok (), s.drop 32768) := by
  have hpage : (mbegin + 4) / 4096 = 32768 := by decide
  have hfree := free_eq (v := mbegin + 4) (q := 32768) (by decide) (by decide) (fun x h₁ h₂ => by omega) hc
  obtain ⟨_, _, hexec, rfl⟩ := (hfree.never fun _ _ hn => hn ⟨by decide, by decide, hm⟩).returns
  rwa [hpage, Heap.clear_self] at hexec

theorem empty_chunks (k : Nat) : ∃ s, Runs (initial fun _ => 0) s ∧
    s.live = ⟨mbegin, 4⟩ :: List.replicate k ⟨mbegin + 4, 0⟩ ∧ s.heap.tail = false ∧ s.heap.mptr = mbegin + 4 ∧
    s.heap.mapped 32768 = true ∧ s.heap.continued 32768 = false ∧ s.heap.ref 32768 = 2 + BitVec.ofNat 32 k := by
  induction k with
  | zero =>
    have hcall : Call (initial fun _ => 0) ⟨first, [⟨mbegin, 4⟩]⟩ := .malloc (by decide) exec_first
    exact ⟨_, .single ⟨.call hcall, rfl⟩, rfl, rfl, rfl, rfl, rfl, by decide⟩
  | succ k ih =>
    obtain ⟨⟨s, live⟩, hruns, rfl, htail, hp, hm, hc, href⟩ := ih
    have hcall : Call ⟨s, ⟨mbegin, 4⟩ :: List.replicate k ⟨mbegin + 4, 0⟩⟩ _ := .malloc (by decide) (exec_malloc_zero hp hm)
    refine ⟨_, hruns.tail ⟨.call hcall, ?_⟩, ?_, ?_, rfl, hm, hc, ?_⟩
    · simpa [Heap.setMptr] using ⟨htail, by decide⟩
    · rw [if_neg (by decide), List.replicate_succ']
      rfl
    · simpa [Heap.setMptr] using ⟨htail, by decide⟩
    · refine (Mem.read32_write32_self ..).trans ?_
      rw [href, BitVec.ofNat_add, BitVec.add_assoc]
      rfl

/-- `2 ^ 32 - 1` empty chunks take the reference word around; freeing one of
them then unmaps the page of the first chunk. -/
theorem reference_word_wraps : ∃ s, Runs (initial fun _ => 0) s ∧ ¬ s.Safe := by
  obtain ⟨k, hk⟩ : ∃ k, 2 + BitVec.ofNat 32 (k + 1) = (1 : Word) := ⟨2 ^ 32 - 2, by decide⟩
  obtain ⟨⟨s, live⟩, hruns, rfl, htail, hp, hm, hc, href⟩ := empty_chunks (k + 1)
  have hcall : Call ⟨s, ⟨mbegin, 4⟩ :: List.replicate (k + 1) ⟨mbegin + 4, 0⟩⟩
      ⟨s.drop 32768, [⟨mbegin, 4⟩] ++ List.replicate k ⟨mbegin + 4, 0⟩⟩ :=
    .free (l := [⟨mbegin, 4⟩]) (exec_free_small hm hc)
  have hlast : s.ref 32768 - 1 = 0 := by
    rw [href, hk]
    decide
  have hdrop : s.drop 32768 = { s with mem := s.mem.write32 (4096 * 32768 + 4092) (s.ref 32768 - 1) }.unmap 32768 :=
    if_pos hlast
  refine ⟨_, hruns.tail ⟨.call hcall, ?_⟩, fun hsafe => ?_⟩
  · rw [hdrop]
    exact htail
  · have hmapped := hsafe.mapped ⟨mbegin, 4⟩ (by simp) mbegin ⟨Nat.le_refl _, by decide⟩
    rw [hdrop] at hmapped
    simp [Heap.unmap, mbegin] at hmapped

end Jos.Malloc
