import Jos.User.MallocRuns
import Jos.Net.Server

/-!
# The heap of the network server and its request pages (`net/serv.c`, `lib/malloc.c`)

The pages at which `serve` receives requests are in the range of the heap. A page
that arrives replaces what is mapped at its address; `received` says which pages
came that way. `malloc` leaves mapped pages alone, but the addresses of buffers
that are not in use are free to it.
-/

namespace Jos.NsHeap

open Lib Malloc Server

/-! ## Runs -/

structure Ns where
  heap : Heap
  live : List Chunk
  server : Server
  received : Nat → Bool

/-- A page from the sender takes the place of page `p`; `bytes` is what it holds
and `cont` its bit `PTE_CONTINUED`. -/
def receive (h : Heap) (p : Nat) (cont : Bool) (bytes : Nat → BitVec 8) : Heap :=
  { h with
    mapped := Function.update h.mapped p true
    continued := Function.update h.continued p cont
    mem := fun x => if x / 4096 = p then bytes (x % 4096) else h.mem x }

/-- What `ipc_recv` does with the page of a message. -/
def Ns.arrive (s : Ns) (va : Nat) (m : Server.Message) (bytes : Nat → BitVec 8) : Ns :=
  if m.perm &&& pteP = 0 then s
  else { s with
    heap := receive s.heap (va / 4096) (m.perm &&& 0x200#32 ≠ 0) bytes
    received := Function.update s.received (va / 4096) true }

/-- A step of the server; `ok` is a condition on each `malloc(n)`. -/
inductive Step (ok : Heap → Nat → Prop) : Ns → Ns → Prop
  | malloc : n < 2 ^ 32 → ok s.heap n → exec (malloc n avail) s.heap = (.ok v, h) →
    Step ok s { s with heap := h, live := if v = 0 then s.live else s.live ++ [⟨v, n⟩] }
  | free : s.live = l ++ c :: l' → exec (free c.addr) s.heap = (.ok (), h) →
    Step ok s { s with heap := h, live := l ++ l' }
  | store : c ∈ s.live → c.Byte x → s.heap.mapped (x / 4096) = true →
    Step ok s { s with heap := { s.heap with mem := Function.update s.heap.mem x b } }
  | get : s.server.pc = .loop → getBuffer s.server.buse = some (va, buse) →
    Step ok s { s with server := { s.server with buse := buse, pc := .recv va } }
  | message : s.server.pc = .recv va →
    Step ok s { s.arrive va m bytes with server := handle s.server va m }
  | timer : s.server.pc = .timer va →
    Step ok s { s with server := { s.server with buse := putBuffer s.server.buse va, pc := .loop } }
  | finish : s.server.pc.Yields → s.server.threads = l ++ a :: l' →
    Step ok s { s with
      server := { s.server with buse := putBuffer s.server.buse a.req, threads := l ++ l' }
      heap := s.heap.unmap (a.req / 4096)
      received := Function.update s.received (a.req / 4096) false }

def Runs (ok : Heap → Nat → Prop) : Ns → Ns → Prop := Relation.ReflTransGen (Step ok)

/-- Before the first `malloc` and the first request. -/
structure Fresh (s : Ns) : Prop where
  mptr : s.heap.mptr = 0
  pages : ∀ p, HeapPage p → s.heap.mapped p = false
  live : s.live = []
  server : s.server = Server.start
  received : ∀ p, s.received p = false

def rounded (n : Nat) : Nat := (n + 3) / 4 * 4 % 2 ^ 32

/-- Page `p` has bytes of a live chunk, its reference word, or is otherwise mapped by `malloc`. -/
def Ns.HeapsOwn (s : Ns) (p : Nat) : Prop :=
  (∃ c ∈ s.live, c.addr / 4096 ≤ p ∧ p ≤ (c.addr + rounded c.n + 3) / 4096) ∨
    (HeapPage p ∧ s.heap.mapped p = true ∧ s.received p = false)

/-- A request that arrives or ends does not touch the heap's pages. -/
structure Ns.Safe (s : Ns) : Prop where
  arrive : s.server.pc = .recv va → ¬ s.HeapsOwn (va / 4096)
  finish : a ∈ s.server.threads → ¬ s.HeapsOwn (a.req / 4096)

def next (h : Heap) : Nat := if h.mptr = 0 then mbegin else (h.mptr + 4095) / 4096 * 4096

/-- Free pages for a chunk of `m` bytes, from `b` on and below `REQVA`. -/
def FreeBelow (h : Heap) (b m : Nat) : Prop :=
  ∃ a, a % 4096 = 0 ∧ b ≤ a ∧ a + (m + 4) ≤ reqva ∧ h.isfree a (m + 4) = true

/-- The search from `b` on ends below `REQVA`: there, or at the end of the range
and then from its start. -/
def Room (h : Heap) (b m : Nat) : Prop :=
  FreeBelow h b m ∨
    ((∀ a, a % 4096 = 0 → b ≤ a → a < mend → h.isfree a (m + 4) = false) ∧ FreeBelow h mbegin m)

/-- `malloc(n)` returns 0, goes on in the page that it has begun, or has room below `REQVA`. -/
def StaysBelow (h : Heap) (n : Nat) : Prop :=
  maxmalloc ≤ rounded n ∨
    (h.mptr % 4096 ≠ 0 ∧ h.mptr / 4096 = (h.mptr + rounded n + 3) / 4096) ∨ Room h (next h) (rounded n)

/-! ## The invariant -/

def firstPage : Nat := 65515

theorem reqva_eq : reqva = 4096 * firstPage := by decide

/-- The heap's pages are below `REQVA`. -/
structure Below (h : Heap) (received : Nat → Bool) : Prop where
  ptr : h.mptr = 0 ∨ (mbegin ≤ h.mptr ∧ h.mptr ≤ reqva)
  opened : h.mptr % 4096 ≠ 0 → h.continued (h.mptr / 4096) = false
  pages : ∀ p, HeapPage p → h.mapped p = true → received p = false → p < firstPage

structure Ns.Ok (s : Ns) : Prop where
  below : Below s.heap s.received
  live : ∀ c ∈ s.live, (c.addr + rounded c.n + 3) / 4096 < firstPage
  recv : s.server.pc = .recv va → firstPage ≤ va / 4096
  timer : s.server.pc = .timer va → firstPage ≤ va / 4096
  threads : ∀ a ∈ s.server.threads, firstPage ≤ a.req / 4096

theorem Ns.Ok.safe {s : Ns} (h : s.Ok) : s.Safe := by
  have hown : ∀ {p}, firstPage ≤ p → ¬ s.HeapsOwn p := by
    rintro p hp (⟨c, hc, -, hle⟩ | ⟨hin, hm, hr⟩)
    · have := h.live c hc
      omega
    · have := h.below.pages p hin hm hr
      omega
  exact ⟨fun hpc => hown (h.recv hpc), fun ha => hown (h.threads _ ha)⟩

theorem Fresh.ok {s : Ns} (h : Fresh s) : s.Ok := by
  refine ⟨⟨.inl h.mptr, fun hne => absurd (by rw [h.mptr]) hne, fun p hin hm => ?_⟩, ?_, ?_, ?_, ?_⟩
  · rw [h.pages p hin] at hm
    cases hm
  · rw [h.live]
    simp
  · rw [h.server]
    simp [Server.start]
  · rw [h.server]
    simp [Server.start]
  · rw [h.server]
    simp [Server.start]

/-! ## `free` -/

/-- No page is mapped or marked that was not before. -/
structure Shrinks (s t : Heap) : Prop where
  mptr : t.mptr = s.mptr
  mapped : t.mapped p = true → s.mapped p = true
  continued : t.continued p = true → s.continued p = true

theorem Shrinks.refl (s : Heap) : Shrinks s s := ⟨rfl, id, id⟩

theorem Shrinks.trans (h : Shrinks s t) (h' : Shrinks t u) : Shrinks s u :=
  ⟨h'.mptr.trans h.mptr, fun hp => h.mapped (h'.mapped hp), fun hp => h.continued (h'.continued hp)⟩

theorem Shrinks.unmap (s : Heap) (q : Nat) : Shrinks s (s.unmap q) := by
  refine ⟨rfl, fun {p} hp => ?_, fun {p} hp => ?_⟩
  · by_cases hq : p = q
    · simp [Heap.unmap, hq] at hp
    · simpa [Heap.unmap, hq] using hp
  · by_cases hq : p = q
    · simp [Heap.unmap, hq] at hp
    · simpa [Heap.unmap, hq] using hp

theorem Shrinks.below (h : Shrinks s t) (hs : Below s received) : Below t received := by
  refine ⟨h.mptr ▸ hs.ptr, fun ho => ?_, fun p hin hm hr => hs.pages p hin (h.mapped hm) hr⟩
  rw [h.mptr] at ho ⊢
  rw [← Bool.not_eq_true]
  exact fun hc => absurd (h.continued hc) (by simp [hs.opened ho])

theorem sysPageUnmap_shrinks (v : Nat) (s : Heap) : Triple (Malloc.sysPageUnmap v) s (fun _ t => Shrinks s t) E := by
  refine .modify ?_
  split
  · exact .unmap s _
  · exact .refl s

theorem freeFrom_shrinks (k c : Nat) (s : Heap) :
    Triple (freeFrom k c) s (fun _ t => Shrinks s t) fun _ _ => True := by
  induction k generalizing c s with
  | zero => exact .throw trivial
  | succ k ih =>
    unfold freeFrom
    refine .get_bind ?_
    refine .ite (fun _ => .bind (sysPageUnmap_shrinks c s) fun _ t ht => ?_) fun _ => ?_
    · refine .guard (fun _ => trivial) fun _ => ?_
      exact (ih (c + 4096) t).imp (fun _ _ h => ht.trans h)
    · refine .bind (loadRef_ok fun _ => trivial) ?_
      rintro _ _ ⟨rfl, rfl⟩
      refine .bind (storeRef_ok fun _ => trivial) ?_
      rintro _ _ ⟨rfl, -⟩
      refine .ite (fun _ => (sysPageUnmap_shrinks c _).imp (fun _ _ h => ?_)) fun _ => .pure ?_
      · exact ⟨h.mptr, h.mapped, h.continued⟩
      · exact ⟨rfl, id, id⟩

theorem free_shrinks (v : Nat) (s : Heap) : Triple (free v) s (fun _ t => Shrinks s t) fun _ _ => True := by
  unfold free
  refine .ite (fun _ => .pure (.refl s)) fun _ => .guard (fun _ => trivial) fun _ => ?_
  exact freeFrom_shrinks ..

/-! ## The search -/

theorem isfree_congr_of_le {s t : Heap} (h : ∀ p, a / 4096 ≤ p → t.mapped p = s.mapped p) (n : Nat) :
    t.isfree a n = s.isfree a n := by
  unfold Heap.isfree
  congr 1
  funext k
  rw [h _ (by omega)]

theorem isfree_mono {s t : Heap} (h : ∀ p, t.mapped p = true → s.mapped p = true) (hf : s.isfree a n = true) :
    t.isfree a n = true := by
  unfold Heap.isfree at hf ⊢
  rw [List.all_eq_true] at hf ⊢
  intro k hk
  have hpage := hf k hk
  simp only [Bool.and_eq_true, Bool.not_eq_true'] at hpage ⊢
  refine ⟨hpage.1, ?_⟩
  rw [← Bool.not_eq_true]
  exact fun hm => absurd (h _ hm) (by simp [hpage.2])

theorem findSpace_first {s : Heap} (ha : a % 4096 = 0) (hs : s.mptr % 4096 = 0) (hle : s.mptr ≤ a) (hend : a < mend)
    (hfree : s.isfree a (n + 4) = true) :
    Triple (findSpace n k nwrap) s (fun found t => found = true ∧ s.mptr ≤ t.mptr ∧ t.mptr ≤ a) fun _ _ => True := by
  have hmend : mend = 4096 * 65536 := by decide
  induction k generalizing s with
  | zero => exact .throw trivial
  | succ k ih =>
    unfold findSpace
    refine .get_bind ?_
    refine .ite (fun _ => .pure ⟨rfl, Nat.le_refl _, hle⟩) fun hno => ?_
    have hlt : s.mptr < a := by
      rcases Nat.lt_or_eq_of_le hle with hlt | heq
      · exact hlt
      · exact absurd (heq ▸ hfree) hno
    have hnext : s.nextPage.mptr = s.mptr + 4096 := by
      rw [s.nextPage_mptr]
      omega
    refine .modify_bind ?_
    refine .ite (fun hwrap => by omega) fun _ => ?_
    refine (ih (by omega) (by omega) ?_).imp (fun _ t h => ⟨h.1, by omega, h.2.2⟩)
    rw [Heap.isfree_congr s.nextPage_mapped]
    exact hfree

/-- Without free pages up to the end of the range it goes on from the start. -/
theorem findSpace_wraps {s : Heap} (ha : a % 4096 = 0) (hs : s.mptr % 4096 = 0) (hlt : s.mptr < mend)
    (hnone : ∀ b, b % 4096 = 0 → s.mptr ≤ b → b < mend → s.isfree b (n + 4) = false)
    (hle : mbegin ≤ a) (hend : a < mend) (hfree : s.isfree a (n + 4) = true) :
    Triple (findSpace n k 0) s (fun found t => found = true ∧ mbegin ≤ t.mptr ∧ t.mptr ≤ a) fun _ _ => True := by
  have hmend : mend = 4096 * 65536 := by decide
  induction k generalizing s with
  | zero => exact .throw trivial
  | succ k ih =>
    unfold findSpace
    refine .get_bind ?_
    refine .ite (fun hyes => ?_) fun _ => ?_
    · rw [hnone s.mptr hs (Nat.le_refl _) hlt] at hyes
      cases hyes
    have hnext : s.nextPage.mptr = s.mptr + 4096 := by
      rw [s.nextPage_mptr]
      omega
    refine .modify_bind ?_
    refine .ite (fun _ => ?_) fun hgo => ?_
    · refine .modify_bind ?_
      refine .ite (fun h => absurd h (by decide)) fun _ => ?_
      refine findSpace_first ha (by decide : mbegin % 4096 = 0) hle hend ?_
      exact (Heap.isfree_congr (s := s) rfl a (n + 4)).trans hfree
    · refine ih (by omega) (by omega) (fun b hb hb' hb'' => ?_) ?_
      · rw [Heap.isfree_congr s.nextPage_mapped]
        exact hnone b hb (by omega) hb''
      · rw [Heap.isfree_congr s.nextPage_mapped]
        exact hfree

theorem findSpace_room {s : Heap} (hs : s.mptr % 4096 = 0) (hlow : mbegin ≤ s.mptr) (hhigh : s.mptr ≤ reqva)
    (h : Room s s.mptr m) :
    Triple (findSpace m k 0) s (fun found t => found = true ∧ Found s m found t ∧ mbegin ≤ t.mptr ∧
      t.mptr + (m + 4) ≤ reqva) fun _ _ => True := by
  have hend : reqva < mend := by decide
  rcases h with ⟨a, ha, hle, hroom, hfree⟩ | ⟨hnone, a, ha, hle, hroom, hfree⟩
  · refine ((findSpace_ok hs).and (findSpace_first ha hs hle (by omega) hfree)).mono ?_ fun _ _ _ => trivial
    rintro found t ⟨hfound, rfl, h₁, h₂⟩
    exact ⟨rfl, hfound, by omega, by omega⟩
  · refine ((findSpace_ok hs).and (findSpace_wraps ha hs (by omega) hnone hle (by omega) hfree)).mono ?_
      fun _ _ _ => trivial
    rintro found t ⟨hfound, rfl, h₁, h₂⟩
    exact ⟨rfl, hfound, by omega, by omega⟩

/-! ## `malloc` -/

/-- What `malloc` returns: 0, or a chunk of `m` bytes below `REQVA`. -/
def Lower (m v : Nat) : Prop := v = 0 ∨ (v + m + 3) / 4096 < firstPage

theorem newPages_below {s : Heap} (hs : Below s received) (ha : s.mptr % 4096 = 0) (hlow : mbegin ≤ s.mptr)
    (hhigh : s.mptr ≤ reqva) (hm : m % 4 = 0) (h : Room s s.mptr m) :
    Triple (newPages m avail) s (fun v t => Lower m v ∧ Below t received) fun _ _ => True := by
  have hreq := reqva_eq
  unfold newPages
  refine .bind (findSpace_room ha hlow hhigh h) ?_
  rintro _ _ ⟨rfl, ⟨a, b, rfl, ha', -⟩, hlow', hroom⟩
  refine .ite (fun hno => absurd rfl hno) fun _ => ?_
  refine .get_bind ?_
  dsimp only at hlow' hroom ⊢
  refine .bind (allocPages_ok ha') fun done t hd => .ite (fun hno => .pure ⟨.inl rfl, ?_⟩) fun hdone => ?_
  · have he := hd.2 (by simpa using hno)
    have hle : a ≤ reqva := by omega
    refine ⟨.inr (by rw [he.mptr]; exact ⟨hlow', hle⟩), fun ho => ?_, fun p hin hp hr => ?_⟩
    · rw [he.mptr] at ho
      exact absurd ha' ho
    · exact hs.pages p hin (he.inside p hp).1 hr
  · have hf := hd.1 (by simpa using hdone)
    refine .bind (storeRef_ok fun _ => trivial) ?_
    rintro _ _ ⟨rfl, -⟩
    refine .bind (.modify (Q := fun _ u => u.mptr = a + m ∧ u.mapped = t.mapped ∧ u.continued = t.continued)
      ⟨rfl, rfl, rfl⟩) ?_
    rintro _ u ⟨hptr, hmapped, hcont⟩
    refine .pure ⟨.inr (by omega), .inr ⟨by omega, by omega⟩, fun ho => ?_, fun p hin hp hr => ?_⟩
    · rw [hptr] at ho ⊢
      rw [hcont, (hf.inside _ (by omega) (by omega)).2]
      exact decide_eq_false (by omega)
    · rw [hmapped] at hp
      by_contra hge
      rw [(hf.outside p (.inr (by omega))).1] at hp
      exact hge (hs.pages p hin hp hr)

theorem drop_mapped {s : Heap} (h : (s.drop q).mapped p = true) : s.mapped p = true := by
  unfold Heap.drop at h
  split at h
  · exact (Shrinks.unmap _ q).mapped h
  · exact h

theorem Room.drop {s t : Heap} (h : Room s b m) (hb : 4096 * q < b) (hle : ∀ p, t.mapped p = true → s.mapped p = true)
    (heq : ∀ p, p ≠ q → t.mapped p = s.mapped p) : Room t b m := by
  rcases h with ⟨a, ha, hba, hroom, hfree⟩ | ⟨hnone, a, ha, hba, hroom, hfree⟩
  · exact .inl ⟨a, ha, hba, hroom, isfree_mono hle hfree⟩
  · refine .inr ⟨fun c hc hbc hce => ?_, a, ha, hba, hroom, isfree_mono hle hfree⟩
    rw [isfree_congr_of_le (s := s) fun p hp => heq p (by omega)]
    exact hnone c hc hbc hce

theorem malloc_below {s : Heap} (hs : Below s received) (h : StaysBelow s n) :
    Triple (malloc n avail) s (fun v t => Lower (rounded n) v ∧ Below t received) fun _ _ => True := by
  have hreq := reqva_eq
  have hbegin : mbegin = 4096 * 32768 := by decide
  have hsize : rounded n % 4 = 0 := by
    unfold rounded
    omega
  unfold malloc
  refine .get_bind ?_
  refine have hrest : ∀ u : Heap, Below u received → mbegin ≤ u.mptr → u.mptr ≤ reqva →
      (maxmalloc ≤ rounded n ∨ (u.mptr % 4096 ≠ 0 ∧ u.mptr / 4096 = (u.mptr + rounded n + 3) / 4096) ∨
        Room u ((u.mptr + 4095) / 4096 * 4096) (rounded n)) → Triple _ u _ _ := ?_
    .ite (fun h0 => .bind (.modify (Q := fun _ u => u = s.setMptr mbegin) rfl) fun _ u hu => ?_)
      fun h0 => hrest s hs (hs.ptr.resolve_left h0).1 (hs.ptr.resolve_left h0).2 ?_
  · intro u hu hlow hhigh hor
    change Triple (if maxmalloc ≤ rounded n then _ else _) u _ _
    refine .ite (fun _ => .pure ⟨.inl rfl, hu⟩) fun hmax => ?_
    refine .get_bind ?_
    refine .ite (fun ho => .ite (fun hfit => ?_) fun hfit => ?_) fun ha => ?_
    · -- The chunk shares the page.
      change u.mptr / 4096 = (u.mptr + rounded n + 3) / 4096 at hfit
      refine .bind (loadRef_ok fun _ => trivial) ?_
      rintro _ _ ⟨rfl, rfl⟩
      refine .bind (storeRef_ok fun _ => trivial) ?_
      rintro _ _ ⟨rfl, -⟩
      refine .bind (.modify (Q := fun _ t => t.mptr = u.mptr + rounded n ∧ t.mapped = u.mapped ∧
        t.continued = u.continued) ⟨rfl, rfl, rfl⟩) ?_
      rintro _ t ⟨hptr, hmapped, hcont⟩
      have hpage : (u.mptr + rounded n) / 4096 = u.mptr / 4096 := by omega
      refine .pure ⟨.inr ?_, .inr ⟨?_, ?_⟩, fun _ => ?_, fun p hin hm hr => hu.pages p hin (hmapped ▸ hm) hr⟩
      · omega
      · omega
      · omega
      · rw [hptr, hpage, hcont]
        exact hu.opened ho
    · -- The page is given up.
      have hroom := (hor.resolve_left hmax).resolve_left fun hc => hfit hc.2
      have hnext : (u.mptr + 4095) / 4096 * 4096 = (u.mptr + 4096) / 4096 * 4096 := by omega
      rw [hnext] at hroom
      refine .bind ((free_eq (by omega) (Nat.le_refl _) (fun x hx hx' => by omega) (hu.opened ho)).imp_error fun _ _ _ => trivial) ?_
      rintro _ _ rfl
      rw [Heap.clear_self]
      refine .modify_bind ?_
      have hal : (u.mptr + 4096) / 4096 * 4096 % 4096 = 0 := Nat.mul_mod_left ..
      refine newPages_below ⟨.inr ⟨?_, ?_⟩, fun hno => absurd hal hno, fun p hin hm hr => ?_⟩ hal ?_ ?_ hsize
        (hroom.drop (q := u.mptr / 4096) (by omega) (fun p hm => drop_mapped hm) fun p hne => (u.drop_of_ne hne).1)
      · change mbegin ≤ (u.mptr + 4096) / 4096 * 4096
        omega
      · change (u.mptr + 4096) / 4096 * 4096 ≤ reqva
        omega
      · exact hu.pages p hin (drop_mapped hm) hr
      · change mbegin ≤ (u.mptr + 4096) / 4096 * 4096
        omega
      · change (u.mptr + 4096) / 4096 * 4096 ≤ reqva
        omega
    · have ha : u.mptr % 4096 = 0 := by simpa using ha
      have hroom := (hor.resolve_left hmax).resolve_left fun hc => hc.1 ha
      rw [show (u.mptr + 4095) / 4096 * 4096 = u.mptr by omega] at hroom
      exact newPages_below hu ha hlow hhigh hsize hroom
  · subst hu
    have hle : mbegin ≤ reqva := by decide
    unfold StaysBelow next at h
    rw [if_pos h0, h0] at h
    refine hrest _ ⟨.inr ⟨Nat.le_refl _, hle⟩, fun hno => absurd (by decide : mbegin % 4096 = 0) hno, hs.pages⟩
      (Nat.le_refl _) hle ?_
    rcases h with h | ⟨hno, -⟩ | h
    · exact .inl h
    · exact absurd (Nat.zero_mod _) hno
    · change _ ∨ _ ∨ Room s ((mbegin + 4095) / 4096 * 4096) (rounded n)
      rw [show (mbegin + 4095) / 4096 * 4096 = mbegin by decide]
      exact .inr (.inr h)
  · unfold StaysBelow next at h
    rwa [if_neg h0] at h

/-! ## Steps and runs -/

theorem getBuffer_page (h : getBuffer buse = some (va, buse')) : firstPage ≤ va / 4096 := by
  obtain ⟨i, -, heq⟩ := Option.map_eq_some_iff.mp h
  obtain ⟨rfl, -⟩ := Prod.mk.inj heq
  have hreq := reqva_eq
  unfold bufferVa
  omega

theorem Below.receive (h : Below s received) (hp : firstPage ≤ p) :
    Below (NsHeap.receive s p cont bytes) (Function.update received p true) := by
  have hreq := reqva_eq
  refine ⟨h.ptr, fun ho => ?_, fun q hin hm hr => ?_⟩
  · have hle : s.mptr ≤ reqva := by
      rcases h.ptr with h0 | h0
      · omega
      · exact h0.2
    have hne : s.mptr / 4096 ≠ p := by
      change s.mptr % 4096 ≠ 0 at ho
      omega
    exact (Function.update_of_ne hne ..).trans (h.opened ho)
  · by_cases hq : q = p
    · subst hq
      rw [Function.update_self] at hr
      cases hr
    · change Function.update s.mapped p true q = true at hm
      rw [Function.update_of_ne hq] at hm hr
      exact h.pages q hin hm hr

theorem Below.unmap (h : Below s received) (p : Nat) : Below (s.unmap p) (Function.update received p false) := by
  have hs := Shrinks.below (.unmap s p) h
  refine ⟨hs.ptr, hs.opened, fun q hin hm hr => ?_⟩
  by_cases hq : q = p
  · subst hq
    simp [Heap.unmap] at hm
  · rw [Function.update_of_ne hq] at hr
    exact hs.pages q hin hm hr

theorem Ns.Ok.handle {s : Ns} (h : s.Ok) (hpc : s.server.pc = .recv va) (m : Server.Message) :
    (∀ va', (handle s.server va m).pc = .recv va' → firstPage ≤ va' / 4096) ∧
    (∀ va', (handle s.server va m).pc = .timer va' → firstPage ≤ va' / 4096) ∧
    ∀ a ∈ (handle s.server va m).threads, firstPage ≤ a.req / 4096 := by
  have hva := h.recv hpc
  have hthreads := h.threads
  unfold Server.handle
  split_ifs
  · refine ⟨by simp, fun va' hva' => ?_, hthreads⟩
    cases hva'
    exact hva
  · exact ⟨by simp, by simp, hthreads⟩
  · refine ⟨by simp, by simp, fun a ha => ?_⟩
    rcases List.mem_append.mp ha with ha | ha
    · exact hthreads a ha
    · rw [List.mem_singleton] at ha
      subst ha
      exact hva
  · exact ⟨by simp, by simp, hthreads⟩

theorem Step.ok {s t : Ns} (h : Step StaysBelow s t) (hs : s.Ok) : t.Ok := by
  cases h with
  | malloc _ hstays hexec =>
    obtain ⟨hlower, hbelow⟩ := (malloc_below hs.below hstays).ok hexec
    refine ⟨hbelow, fun c hc => ?_, hs.recv, hs.timer, hs.threads⟩
    dsimp only at hc
    split at hc
    · exact hs.live c hc
    · rename_i hne
      rcases List.mem_append.mp hc with hc | hc
      · exact hs.live c hc
      · rw [List.mem_singleton] at hc
        subst hc
        exact hlower.resolve_left hne
  | @free _ l c l' _ hlive hexec =>
    refine ⟨((free_shrinks _ _).ok hexec).below hs.below, fun c' hc => hs.live c' ?_, hs.recv, hs.timer, hs.threads⟩
    rw [hlive]
    rcases List.mem_append.mp hc with hc | hc
    · exact List.mem_append_left _ hc
    · exact List.mem_append_right _ (List.mem_cons_of_mem _ hc)
  | store => exact ⟨⟨hs.below.ptr, hs.below.opened, hs.below.pages⟩, hs.live, hs.recv, hs.timer, hs.threads⟩
  | get _ hget =>
    refine ⟨hs.below, hs.live, fun hpc => ?_, fun hpc => (by cases hpc), hs.threads⟩
    cases hpc
    exact getBuffer_page hget
  | @message _ va m bytes hpc =>
    obtain ⟨hrecv, htimer, hthreads⟩ := hs.handle hpc m
    refine ⟨?_, ?_, fun h => hrecv _ h, fun h => htimer _ h, hthreads⟩
    · unfold Ns.arrive
      split
      · exact hs.below
      · exact hs.below.receive (hs.recv hpc)
    · unfold Ns.arrive
      split
      · exact hs.live
      · exact hs.live
  | timer hpc => exact ⟨hs.below, hs.live, fun hpc => (by cases hpc), fun hpc => (by cases hpc), hs.threads⟩
  | @finish _ l a l' hyields hthreads =>
    refine ⟨hs.below.unmap _, hs.live, hs.recv, hs.timer, fun a' ha => hs.threads a' ?_⟩
    rw [hthreads]
    rcases List.mem_append.mp ha with ha | ha
    · exact List.mem_append_left _ ha
    · exact List.mem_append_right _ (List.mem_cons_of_mem _ ha)

theorem Runs.ok {s t : Ns} (h : Runs StaysBelow s t) (hs : s.Ok) : t.Ok := by
  induction h with
  | refl => exact hs
  | tail _ hstep ih => exact hstep.ok ih

/-- As long as `malloc` finds its pages below `REQVA`, requests leave the heap alone. -/
theorem requests_spare_heap {s t : Ns} (hs : Fresh s) (h : Runs StaysBelow s t) : t.Safe :=
  (h.ok hs.ok).safe

def waiting : Ns := ⟨first, [⟨mbegin, 4⟩], ⟨Function.update (fun _ => false) 0 true, .recv (bufferVa 0), []⟩, fun _ => false⟩

def fresh : Ns := ⟨(initial fun _ => 0).heap, [], Server.start, fun _ => false⟩

theorem fresh_fresh : Fresh fresh := ⟨rfl, fun _ _ => rfl, rfl, rfl, fun _ => rfl⟩

theorem requests_spare_heap_waiting : waiting.Safe := by
  have hmalloc : Step StaysBelow fresh ⟨first, [⟨mbegin, 4⟩], Server.start, fun _ => false⟩ :=
    .malloc (s := fresh) (n := 4) (by decide) (.inr (.inr (.inl ⟨mbegin, by decide, Nat.le_refl _, by decide, by decide⟩)))
      exec_first
  refine requests_spare_heap fresh_fresh ((Relation.ReflTransGen.single hmalloc).tail ?_)
  exact .get rfl rfl

/-! ## Up to `REQVA` -/

/-- `mptr` is at page `q` and all pages from `e` on are free. -/
structure Ahead (s : Heap) (q e : Nat) : Prop where
  ptr : s.mptr = 4096 * q ∨ (s.mptr = 0 ∧ q = 32768)
  low : 32768 ≤ q
  le : q ≤ e
  close : e ≤ q + 1
  seen : q < e → s.mapped q = true
  free : ∀ p, e ≤ p → p < 65536 → s.mapped p = false

theorem allocPages_done (hk : k ≤ avail) (hv : v + 4096 * (i + k) ≤ utop.toNat) (s : Heap) :
    Triple (allocPages v k i avail) s (fun done _ => done = true) fun _ _ => False := by
  induction k generalizing i avail s with
  | zero => exact .pure rfl
  | succ k ih =>
    unfold allocPages
    refine .ite (fun h => by omega) fun _ => .bind (.modify (Q := fun _ _ => True) trivial) fun _ t _ => ?_
    exact ih (by omega) (by omega) t

/-- A chunk of `k` pages right at the free ones. -/
structure Got (t : Heap) (e k : Nat) : Prop where
  ahead : Ahead t (e + k) (e + k + 1)
  marked : ∀ x, e ≤ x → x < e + k → t.continued x = true
  last : t.continued (e + k) = false
  ref : t.ref (e + k) = 2

theorem isfree_of_pages {s : Heap} (ha : a % 4096 = 0) (hn : a + n < 2 ^ 32)
    (h : ∀ p, a / 4096 ≤ p → 4096 * p < a + n → 4096 * p < mend ∧ s.mapped p = false) : s.isfree a n = true := by
  unfold Heap.isfree
  rw [List.all_eq_true]
  intro k hk
  rw [List.mem_range, Nat.mod_eq_of_lt hn] at hk
  have hpage : (a + 4096 * k) / 4096 = a / 4096 + k := by omega
  obtain ⟨h₁, h₂⟩ := h (a / 4096 + k) (by omega) (by omega)
  rw [hpage, h₂]
  simp only [Bool.not_false, Bool.and_true, decide_eq_true_eq]
  omega

section
variable {s : Heap} (h : Ahead s q e)
include h

theorem findSpace_ahead (hp : s.mptr = 4096 * q) (hk' : k < 256) (he : e + k < 65536) :
    Triple (findSpace (4096 * k) (2 ^ 21) 0) s (fun found t => found = true ∧ ∃ b, t = { s with mptr := 4096 * e, tail := b })
      fun _ _ => False := by
  have hmend : mend = 4096 * 65536 := by decide
  have hbegin : mbegin = 4096 * 32768 := by decide
  have hlow := h.low
  have hle := h.le
  have hclose := h.close
  have hal : s.mptr % 4096 = 0 := by omega
  have hfree : s.isfree (4096 * e) (4096 * k + 4) = true :=
    isfree_of_pages (by omega) (by omega) fun p h₁ h₂ => ⟨by omega, h.free p (by omega) (by omega)⟩
  have hfuel : (mend - s.mptr) / 4096 + 32768 * (1 - 0) ≤ 2 ^ 21 := by omega
  have hrange := findSpace_range (n := 4096 * k) (E := fun _ _ => False) hal ⟨by omega, by omega⟩ (Nat.zero_le 1) hfuel
  refine (((findSpace_ok hal).and (findSpace_first (by omega) hal (by omega) (by omega) hfree)).and hrange).mono ?_
    fun _ _ h => h.2
  rintro found t ⟨⟨⟨a, b, rfl, ha, hyes⟩, rfl, h₁, h₂⟩, -⟩
  refine ⟨rfl, b, ?_⟩
  dsimp only at h₁ h₂
  -- Between `mptr` and page `e` there is at most one page, and it is mapped.
  by_cases hae : a = 4096 * e
  · rw [hae]
  · have hq : q < e := by omega
    have hunmapped := (Heap.isfree_page (p := q) (hyes rfl) ha (by omega) (by omega) (by omega)).2
    rw [h.seen hq] at hunmapped
    cases hunmapped

theorem newPages_ahead (hp : s.mptr = 4096 * q) (hk : 0 < k) (hk' : k < 256)
    (he : e + k < 65536) : Triple (newPages (4096 * k) (k + 1)) s (fun v t => v = 4096 * e ∧ Got t e k) fun _ _ => False := by
  have hpages : (4096 * k + 4 + 4095) / 4096 = k + 1 := by omega
  have hdone : ∀ u, Triple (allocPages (4096 * e) (k + 1) 0 (k + 1)) u (fun done _ => done = true) fun _ _ => False := by
    refine allocPages_done (Nat.le_refl _) ?_
    rw [utop_toNat]
    omega
  have hlow := h.low
  have hle := h.le
  unfold newPages
  refine .bind (findSpace_ahead h hp hk' he) ?_
  rintro _ _ ⟨rfl, b, rfl⟩
  refine .ite (fun hno => absurd rfl hno) fun _ => ?_
  refine .get_bind ?_
  dsimp only
  rw [hpages]
  refine .bind (((allocPages_ok (E := fun _ _ => False) (by omega)).and (hdone _)).imp_error fun _ _ h => h.2) ?_
  rintro _ t ⟨hd, rfl⟩
  refine .ite (fun hno => absurd rfl hno) fun _ => ?_
  have hf := hd.1 rfl
  rw [Nat.mul_div_cancel_left _ (by omega), Nat.add_zero] at hf
  have hword : (4096 * e + 4096 * (k + 1) - 4) / 4096 = e + k := by omega
  refine .bind (storeRef_ok fun hno => ?_) ?_
  · rw [hword, (hf.inside (e + k) (by omega) (by omega)).1] at hno
    cases hno
  rintro _ _ ⟨rfl, -⟩
  refine .modify_bind ?_
  refine .pure ⟨rfl, ⟨.inl ?_, by omega, by omega, Nat.le_refl _, fun _ => ?_, fun p h₁ h₂ => ?_⟩, fun x h₁ h₂ => ?_, ?_, ?_⟩
  · change 4096 * e + 4096 * k = 4096 * (e + k)
    omega
  · exact (hf.inside (e + k) (by omega) (by omega)).1
  · exact (hf.outside p (.inr (by omega))).1.trans (h.free p (by omega) h₂)
  · exact (hf.inside x h₁ (by omega)).2.trans (decide_eq_true (by omega))
  · exact (hf.inside (e + k) (by omega) (by omega)).2.trans (decide_eq_false (by omega))
  · change Mem.read32 (t.mem.write32 (4096 * e + 4096 * (k + 1) - 4) 2) (4096 * (e + k) + 4092) = 2
    rw [show 4096 * e + 4096 * (k + 1) - 4 = 4096 * (e + k) + 4092 by omega, Mem.read32_write32_self]

theorem exec_malloc_ahead (hk : 0 < k) (hk' : k < 256) (he : e + k < 65536) :
    ∃ t, exec (malloc (4096 * k) (k + 1)) s = (.ok (4096 * e), t) ∧ Got t e k := by
  have hsize : (4096 * k + 3) / 4 * 4 % 2 ^ 32 = 4096 * k := by omega
  have hlow := h.low
  have hrun : Triple (malloc (4096 * k) (k + 1)) s (fun v t => v = 4096 * e ∧ Got t e k) fun _ _ => False := by
    unfold malloc
    refine .get_bind ?_
    refine have hrest : ∀ u : Heap, Ahead u q e → u.mptr = 4096 * q → Triple _ u _ _ := ?_
      .ite (fun h0 => .bind (.modify (Q := fun _ u => u = s.setMptr mbegin) rfl) fun _ u hu => ?_)
        fun h0 => hrest s h (h.ptr.resolve_right fun hc => h0 hc.1)
    · intro u hu hptr
      dsimp only
      rw [hsize]
      refine .ite (fun hmax => by unfold maxmalloc at hmax; omega) fun _ => ?_
      refine .get_bind ?_
      refine .ite (fun hno => by omega) fun _ => ?_
      exact newPages_ahead hu hptr hk hk' he
    · subst hu
      have hq : q = 32768 := by
        rcases h.ptr with hp | hp
        · omega
        · exact hp.2
      subst hq
      exact hrest _ ⟨.inl rfl, h.low, h.le, h.close, h.seen, h.free⟩ rfl
  obtain ⟨v, t, hexec, rfl, hgot⟩ := hrun.returns
  exact ⟨t, hexec, hgot⟩

end

theorem exec_free_ahead {t : Heap} (h : Got t e k) (hk : 0 < k) (he : e + k < 65536) (hlow : 32768 ≤ e) :
    ∃ u, exec (free (4096 * e)) t = (.ok (), u) ∧ Ahead u (e + k) (e + k + 1) := by
  have hmend : mend = 4096 * 65536 := by decide
  have hbegin : mbegin = 4096 * 32768 := by decide
  have hpage : 4096 * e / 4096 = e := Nat.mul_div_cancel_left _ (by omega)
  have hmapped : t.mapped (e + k) = true := h.ahead.seen (by omega)
  have hfree := free_eq (s := t) (v := 4096 * e) (q := e + k) (by omega) (by omega)
    (fun x h₁ h₂ => h.marked x (by omega) h₂) h.last
  obtain ⟨_, u, hexec, rfl⟩ := (hfree.imp_error fun _ _ hno => hno ⟨by omega, by omega, hmapped⟩).returns
  refine ⟨_, hexec, ?_⟩
  have hmore : 1 < ((t.clear e (e + k)).ref (e + k)).toNat := by
    change 1 < (t.ref (e + k)).toNat
    rw [h.ref]
    decide
  have hkept := ((t.clear e (e + k)).drop_of_more hmore).1
  have hout : ∀ p, e + k ≤ p → ((t.clear e (e + k)).drop (e + k)).mapped p = t.mapped p := by
    intro p hp
    rw [hkept]
    exact if_neg (by omega)
  rw [hpage]
  refine ⟨.inl ?_, h.ahead.low, h.ahead.le, h.ahead.close, fun _ => ?_, fun p h₁ h₂ => ?_⟩
  · rw [Heap.drop_mptr]
    exact h.ahead.ptr.resolve_right fun hc => by omega
  · rw [hout _ (Nat.le_refl _)]
    exact hmapped
  · rw [hout p (by omega)]
    exact h.ahead.free p h₁ h₂

def quiet (h : Heap) (live : List Chunk) : Ns := ⟨h, live, Server.start, fun _ => false⟩

/-- Chunks of 254 pages, one after the other, each freed at once. -/
theorem chunks_run (j : Nat) (hj : j ≤ 128) : ∃ h q, Runs (fun _ _ => True) fresh (quiet h []) ∧
    Ahead h q (32768 + 255 * j) := by
  induction j with
  | zero => exact ⟨_, 32768, .refl, .inr ⟨rfl, rfl⟩, Nat.le_refl _, Nat.le_refl _, by decide, fun h => by omega, fun _ _ _ => rfl⟩
  | succ j ih =>
    obtain ⟨h, q, hrun, hahead⟩ := ih (by omega)
    obtain ⟨t, hmalloc, hgot⟩ := exec_malloc_ahead (k := 254) hahead (by decide) (by decide) (by omega)
    obtain ⟨u, hfree, hnext⟩ := exec_free_ahead hgot (by decide) (by omega) (by omega)
    let c : Chunk := ⟨4096 * (32768 + 255 * j), 4096 * 254⟩
    have hone : Step (fun _ _ => True) (quiet h []) (quiet t [c]) := by
      have hstep : Step (fun _ _ => True) (quiet h []) _ := .malloc (by decide) trivial hmalloc
      rwa [if_neg (by omega)] at hstep
    have hlive : (quiet t [c]).live = [] ++ c :: [] := rfl
    have htwo : Step (fun _ _ => True) (quiet t [c]) (quiet u []) := .free hlive hfree
    refine ⟨u, 32768 + 255 * j + 254, (hrun.tail hone).tail htwo, ?_⟩
    rw [show 32768 + 255 * (j + 1) = 32768 + 255 * j + 254 + 1 by omega]
    exact hnext

/-- In the end `malloc` returns a chunk over the first two of these pages, and
the next request arrives there. -/
theorem request_replaces_chunk : ∃ s t, Fresh s ∧ Runs (fun _ _ => True) s t ∧ ¬ t.Safe := by
  obtain ⟨h, q, hrun, hahead⟩ := chunks_run 128 (Nat.le_refl _)
  obtain ⟨t, hmalloc, -⟩ := exec_malloc_ahead (k := 108) hahead (by decide) (by decide) (by decide)
  have hone : Step (fun _ _ => True) (quiet h []) (quiet t [⟨4096 * (32768 + 255 * 128), 4096 * 108⟩]) :=
    Step.malloc (s := quiet h []) (by decide) trivial hmalloc
  refine ⟨fresh, _, fresh_fresh, (hrun.tail hone).tail (.get rfl rfl), fun hsafe => ?_⟩
  exact hsafe.arrive rfl (.inl ⟨_, List.mem_singleton_self _, by decide, by decide⟩)

end Jos.NsHeap
