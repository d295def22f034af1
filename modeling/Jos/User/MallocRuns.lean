import Jos.User.Malloc

/-!
# Long runs of the heap

A program that asks for chunks of any size, frees them and stores into them,
for as long as it likes. As long as sizes round up within 32 bits and `mptr`
does not give up the last page of the range, `malloc` returns, with NULL or
with memory of the heap, and `mptr` stays in the range. As long as no chunk on
pages of its own takes up whole pages, the reference words count the live
chunks and the page that is being filled.
-/

namespace Jos.Malloc

open Lib

/-- A step of a program; `P` is a condition on each `malloc(n)` and its result. -/
inductive Asks (P : State → Nat → Nat → Prop) : State → State → Prop
  | malloc : n < 2 ^ 32 → P ⟨s, live⟩ n v → exec (malloc n avail) s = (.ok v, t) →
    Asks P ⟨s, live⟩ ⟨t, if v = 0 then live else live ++ [⟨v, n⟩]⟩
  | free : exec (free c.addr) s = (.ok (), t) → Asks P ⟨s, l ++ c :: l'⟩ ⟨t, l ++ l'⟩
  | store : c ∈ live → c.Byte x → s.mapped (x / 4096) = true →
    Asks P ⟨s, live⟩ ⟨{ s with mem := Function.update s.mem x b }, live⟩

def AskRuns (P : State → Nat → Nat → Prop) : State → State → Prop := Relation.ReflTransGen (Asks P)

/-- Before the first `malloc`; the program has its own pages outside the heap. -/
structure State.Fresh (s : State) : Prop where
  mptr : s.heap.mptr = 0
  live : s.live = []
  heap : ∀ p, HeapPage p → s.heap.mapped p = false

theorem initial_fresh (mem : Mem) : (initial mem).Fresh := ⟨rfl, rfl, fun _ _ => rfl⟩

/-! ## Where `mptr` is -/

/-- The memory that `malloc(n)` promises at `v`, with room for a reference word. -/
structure Usable (n v : Nat) (t : Heap) : Prop where
  low : mbegin ≤ v
  high : v + n + 4 ≤ mend
  mapped : ∀ x, v ≤ x → x < v + n → t.mapped (x / 4096) = true

def Heap.InRange (s : Heap) : Prop := mbegin ≤ s.mptr ∧ s.mptr < mend

/-- The size is not rounded up to zero, and `mptr` does not give up the last
page of the range for it. -/
def Stays (s : Heap) (n : Nat) : Prop :=
  n + 3 < 2 ^ 32 ∧ ((n + 3) / 4 * 4 < maxmalloc → s.mptr % 4096 ≠ 0 → mend - 4096 ≤ s.mptr → s.Fits n)

theorem storeRef_mptr (a : Nat) (w : Word) : Keeps Heap.mptr (storeRef a w) := by
  intro s
  unfold storeRef
  rw [exec_bind_ok (exec_get s)]
  split <;> rfl

theorem freeFrom_mptr (k c : Nat) : Keeps Heap.mptr (freeFrom k c) := by
  have hunmap : ∀ va, Keeps Heap.mptr (sysPageUnmap va) := fun va => .modify fun s => by split <;> rfl
  induction k generalizing c with
  | zero => exact .throw
  | succ k ih =>
    refine .bind .get fun s => .ite (.bind (hunmap c) fun _ => .ite (.bind .throw fun _ => ih _) (ih _)) ?_
    refine .bind (.bind .get fun s => .ite (.bind .throw fun _ => .pure) .pure) fun w => ?_
    exact .bind (storeRef_mptr _ _) fun _ => .ite (hunmap c) .pure

theorem free_mptr (v : Nat) : Keeps Heap.mptr (free v) := by
  have hwalk := freeFrom_mptr (mend / 4096) (v / 4096 * 4096)
  exact .ite .pure (.ite (.bind .throw fun _ => hwalk) hwalk)

/-- The search goes around the range at most twice. -/
theorem findSpace_range {s : Heap} (ha : s.mptr % 4096 = 0) (hs : s.InRange) (hw : nwrap ≤ 1)
    (hk : (mend - s.mptr) / 4096 + 32768 * (1 - nwrap) ≤ k) :
    Triple (findSpace n k nwrap) s (fun _ t => t.InRange) E := by
  have hlow : mbegin = 4096 * 32768 := by decide
  have hend : mend = 4096 * 65536 := by decide
  induction k generalizing s nwrap with
  | zero =>
    have h₂ := hs.2
    omega
  | succ k ih =>
    obtain ⟨h₁, h₂⟩ := hs
    have hnext : s.nextPage.mptr = s.mptr + 4096 := by
      rw [s.nextPage_mptr]
      omega
    unfold findSpace
    refine .get_bind ?_
    refine .ite (fun _ => .pure ⟨h₁, h₂⟩) fun _ => ?_
    refine .modify_bind ?_
    refine .ite (fun hwrap => ?_) fun hgo => ?_
    · have hin : (s.nextPage.setMptr mbegin).InRange := by
        change mbegin ≤ mbegin ∧ mbegin < mend
        omega
      refine .modify_bind ?_
      refine .ite (fun _ => .pure hin) fun htwice => ih ?_ hin (by omega) ?_
      · change mbegin % 4096 = 0
        omega
      · change (mend - mbegin) / 4096 + _ ≤ k
        omega
    · rw [hnext] at hgo
      refine ih (by omega) ⟨by omega, by omega⟩ hw ?_
      rw [hnext]
      omega

theorem newPages_range {s : Heap} (ha : s.mptr % 4096 = 0) (hs : s.InRange) (hn : (n + 3) / 4 * 4 < maxmalloc) :
    Triple (newPages ((n + 3) / 4 * 4) avail) s (fun v t => (v = 0 ∨ Usable n v t) ∧ t.InRange) E := by
  have hfuel : (mend - s.mptr) / 4096 + 32768 * (1 - 0) ≤ 2 ^ 21 := by
    have hend : mend = 4096 * 65536 := by decide
    omega
  have hfound := (findSpace_ok ha).and (findSpace_range (n := (n + 3) / 4 * 4) (E := E) ha hs (Nat.zero_le 1) hfuel)
  refine .bind (hfound.imp_error fun _ _ h => h.2) ?_
  rintro found u ⟨⟨a, b, rfl, ha', hfree⟩, hin⟩
  refine .ite (fun _ => .pure ⟨.inl rfl, hin⟩) fun hfound => ?_
  have hfree := hfree (by simpa using hfound)
  refine .get_bind ?_
  obtain ⟨hlow, hhigh⟩ := hin
  dsimp only at hlow hhigh ⊢
  unfold maxmalloc at hn
  have hend : mend = 4096 * 65536 := by decide
  -- The last of the pages is below `mend`.
  have hlast := (Heap.isfree_page (p := (a + (n + 3) / 4 * 4 + 3) / 4096) hfree ha' (by omega) (by omega) (by omega)).1
  refine .bind (allocPages_ok ha') fun done t hd => .ite (fun hno => .pure ⟨.inl rfl, ?_⟩) fun hdone => ?_
  · have he := hd.2 (by simpa using hno)
    unfold Heap.InRange
    rw [he.mptr]
    exact ⟨hlow, hhigh⟩
  · have hf := hd.1 (by simpa using hdone)
    refine .bind (storeRef_ok fun hno => ?_) ?_
    · rw [(hf.inside _ (by omega) (by omega)).1] at hno
      cases hno
    rintro _ _ ⟨rfl, -⟩
    refine .bind (.modify (Q := fun _ u => u.mptr = a + (n + 3) / 4 * 4 ∧ u.mapped = t.mapped) ⟨rfl, rfl⟩) ?_
    rintro _ u ⟨hptr, hmapped⟩
    refine .pure ⟨.inr ⟨hlow, by omega, fun x h₁ h₂ => ?_⟩, ?_⟩
    · rw [hmapped]
      exact (hf.inside _ (by omega) (by omega)).1
    · unfold Heap.InRange
      omega

/-- The page that `mptr` is inside of can be used. -/
def Heap.Open (s : Heap) : Prop :=
  s.mptr % 4096 ≠ 0 → s.mapped (s.mptr / 4096) = true ∧ s.continued (s.mptr / 4096) = false

/-- `malloc` in the range can only stop at a page that `mptr` is inside of. -/
theorem malloc_range {s : Heap} (hs : s.mptr = 0 ∨ s.InRange) (hst : Stays s n) :
    Triple (malloc n avail) s (fun v t => (v = 0 ∨ Usable n v t) ∧ t.InRange) fun _ _ => ¬ s.Open := by
  have hbegin : mbegin = 4096 * 32768 := by decide
  have hend : mend = 4096 * 65536 := by decide
  have hsize : (n + 3) / 4 * 4 % 2 ^ 32 = (n + 3) / 4 * 4 := by
    have hn := hst.1
    omega
  unfold malloc
  refine .get_bind ?_
  refine have hrest : ∀ u : Heap, u.InRange → (s.Open → u.Open) →
      ((n + 3) / 4 * 4 < maxmalloc → u.mptr % 4096 ≠ 0 → mend - 4096 ≤ u.mptr → u.Fits n) → Triple _ u _ _ := ?_
    .ite (fun h0 => .bind (.modify (Q := fun _ u => u = s.setMptr mbegin) rfl) fun _ u hu => ?_)
      fun h0 => hrest s (hs.resolve_left h0) id hst.2
  · rintro u hin hopen hfits
    dsimp only
    rw [hsize]
    refine .ite (fun _ => .pure ⟨.inl rfl, hin⟩) fun hmax => ?_
    have hmax : (n + 3) / 4 * 4 < maxmalloc := by omega
    refine .get_bind ?_
    obtain ⟨h₁, h₂⟩ := hin
    refine .ite (fun ho => .ite (fun hfit => ?_) fun hfit => ?_) fun ha => ?_
    · -- The chunk shares the page.
      have hword : ((u.mptr + 4095) / 4096 * 4096 - 4) / 4096 = u.mptr / 4096 := by omega
      have hE : u.mapped (((u.mptr + 4095) / 4096 * 4096 - 4) / 4096) = false → ¬ s.Open := by
        intro hno ho'
        rw [hword, (hopen ho' ho).1] at hno
        cases hno
      refine .bind (loadRef_ok hE) ?_
      rintro _ _ ⟨rfl, rfl⟩
      refine .bind (storeRef_ok hE) ?_
      rintro _ _ ⟨rfl, hm⟩
      rw [hword] at hm
      refine .bind (.modify (Q := fun _ t => t.mptr = u.mptr + (n + 3) / 4 * 4 ∧ t.mapped = u.mapped) ⟨rfl, rfl⟩) ?_
      rintro _ t ⟨hptr, hmapped⟩
      refine .pure ⟨.inr ⟨h₁, by omega, fun x hx hx' => ?_⟩, ?_⟩
      · rw [hmapped, show x / 4096 = u.mptr / 4096 by omega]
        exact hm
      · unfold Heap.InRange
        omega
    · -- The page is given up; it is not the last.
      have hnot : u.mptr < mend - 4096 := by
        by_contra hge
        exact hfit (hfits hmax ho (by omega)).2
      have hfree : Triple (free u.mptr) u (fun _ t => t.mptr = u.mptr) fun _ _ => ¬ s.Open := by
        by_cases ho' : s.Open
        · obtain ⟨hm, hc⟩ := hopen ho' ho
          refine (free_eq (by omega) (Nat.le_refl _) (fun x hx hx' => by omega) hc).mono ?_ fun _ _ hE => ?_
          · rintro _ _ rfl
            rw [Heap.clear_self, Heap.drop_mptr]
          · exact absurd ⟨h₁, by omega, hm⟩ hE
        · exact ((free_mptr u.mptr).triple u).imp_error fun _ _ _ => ho'
      refine .bind hfree fun _ t _ => ?_
      refine .bind (.modify (Q := fun _ t => t.mptr = (u.mptr + 4096) / 4096 * 4096) rfl) fun _ t ht => ?_
      exact newPages_range (by omega) ⟨by omega, by omega⟩ hmax
    · exact newPages_range (by simpa using ha) ⟨h₁, h₂⟩ hmax
  · have hptr : u.mptr = mbegin := hu ▸ rfl
    have hal : u.mptr % 4096 = 0 := by omega
    exact hrest u ⟨by omega, by omega⟩ (fun _ ho => absurd hal ho) fun _ ho => absurd hal ho

theorem AskRuns.range (h : AskRuns P s t) (hP : ∀ s n v, P s n v → Stays s.heap n)
    (hs : s.heap.mptr = 0 ∨ s.heap.InRange) : t.heap.mptr = 0 ∨ t.heap.InRange := by
  induction h with
  | refl => exact hs
  | tail _ hstep ih =>
    cases hstep with
    | malloc _ hp hexec => exact .inr ((malloc_range ih (hP _ _ _ hp)).ok hexec).2
    | free hexec =>
      unfold Heap.InRange
      rw [(free_mptr _).eq_of_exec hexec]
      exact ih
    | store _ _ _ => exact ih

/-! ## What the reference words count -/

theorem State.Fresh.ok {s : State} (h : s.Fresh) :
    ∃ spare, s.heap.Ok s.live spare ∧ ∀ p, HeapPage p → spare p = 0 := by
  have hopen : ∀ p, s.heap.opened p = 0 := by simp [Heap.opened, h.mptr]
  have hno : ∀ {p}, HeapPage p → s.heap.mapped p ≠ true := by
    intro p hp hm
    rw [h.heap p hp] at hm
    cases hm
  have hal : s.heap.mptr % 4096 = 0 := by rw [h.mptr]
  refine ⟨fun p => if s.heap.mapped p = true then (s.heap.ref p).toNat else 0,
    ⟨by omega, fun ho => absurd hal ho, ?_, ?_, ?_, fun p hp _ => ?_, fun p hin hp => absurd hp (hno hin),
      fun p hin hp => absurd hp (hno hin)⟩, fun p hp => if_neg (hno hp)⟩
  · simp [h.live]
  · simp [h.live]
  · simp [h.live]
  · rw [hopen, if_pos hp, h.live, count_nil]
    omega

/-- The heap goes on as it should while reference words have room; a `malloc`
that is tidy leaves no more spare references. -/
theorem Asks.ok {s t : State} (h : Asks P s t) (hP : ∀ s n v, P s n v → n + 3 < 2 ^ 32 ∧ s.Uncrowded)
    (hok : s.heap.Ok s.live spare) (h0 : ∀ c ∈ s.live, c.addr ≠ 0) :
    (∀ c ∈ t.live, c.addr ≠ 0) ∧ ∃ spare', t.heap.Ok t.live spare' ∧
      ((∀ s n v, P s n v → v = 0 ∨ s.heap.Fits n ∨ (n + 3) / 4 * 4 % 4096 ≠ 0) →
        ∀ p, HeapPage p → spare' p ≤ spare p) := by
  cases h with
  | malloc _ hp hexec =>
    obtain ⟨hn, hr⟩ := hP _ _ _ hp
    obtain ⟨-, spare', hok', hle⟩ := (malloc_ok hok hn hr).ok hexec
    exact ⟨live_ne_zero h0, spare', hok', fun htidy => hle (htidy _ _ _ hp)⟩
  | free hexec =>
    obtain ⟨hok', -⟩ := (free_ok hok (h0 _ (by simp))).ok hexec
    refine ⟨fun c hc => h0 c ?_, spare, hok', fun _ _ _ => Nat.le_refl _⟩
    rw [List.mem_append] at hc ⊢
    exact hc.imp id (List.mem_cons_of_mem _)
  | store hc hx _ => exact ⟨h0, spare, hok.store hc hx, fun _ _ _ => Nat.le_refl _⟩

theorem AskRuns.ok {s t : State} (h : AskRuns P s t) (hP : ∀ s n v, P s n v → n + 3 < 2 ^ 32 ∧ s.Uncrowded)
    (hs : s.Fresh) :
    (∀ c ∈ t.live, c.addr ≠ 0) ∧ ∃ spare, t.heap.Ok t.live spare ∧
      ((∀ s n v, P s n v → v = 0 ∨ s.heap.Fits n ∨ (n + 3) / 4 * 4 % 4096 ≠ 0) →
        ∀ p, HeapPage p → spare p = 0) := by
  induction h with
  | refl =>
    obtain ⟨spare, hok, hzero⟩ := hs.ok
    exact ⟨by simp [hs.live], spare, hok, fun _ => hzero⟩
  | tail _ hstep ih =>
    obtain ⟨h0, spare, hok, hzero⟩ := ih
    obtain ⟨h0', spare', hok', hle⟩ := hstep.ok hP hok h0
    refine ⟨h0', spare', hok', fun htidy p hp => ?_⟩
    have hz := hzero htidy p hp
    have hl := hle htidy p hp
    omega

/-! ## Usable memory -/

/-- In a run that stays in the range `malloc` returns NULL or usable memory and
leaves `mptr` in the range, and it returns if no reference word has run over. -/
theorem malloc_usable (h0 : s₀.Fresh) (h : AskRuns (fun s n _ => Stays s.heap n) s₀ s) (hst : Stays s.heap n)
    (avail : Nat) :
    (∀ v t, exec (malloc n avail) s.heap = (.ok v, t) → (v = 0 ∨ Usable n v t) ∧ t.InRange) ∧
      (AskRuns (fun s n _ => Stays s.heap n ∧ s.Uncrowded) s₀ s →
        ∃ v t, exec (malloc n avail) s.heap = (.ok v, t)) := by
  have hrange : Triple (malloc n avail) s.heap _ _ :=
    malloc_range (h.range (fun _ _ _ hp => hp) (.inl h0.mptr)) hst
  refine ⟨fun v t hexec => hrange.ok hexec, fun hruns => ?_⟩
  obtain ⟨-, spare, hok, -⟩ := hruns.ok (fun _ _ _ hp => ⟨hp.1.1, hp.2⟩) h0
  obtain ⟨v, t, hexec, -⟩ := (hrange.never fun _ _ hE => hE hok.opened).returns
  exact ⟨v, t, hexec⟩

/-- The first request of a program. -/
theorem malloc_usable_first :
    Stays (initial fun _ => 0).heap 100 ∧ ∃ v t, exec (malloc 100 1) (initial fun _ => 0).heap = (.ok v, t) ∧
      (v = 0 ∨ Usable 100 v t) ∧ t.InRange := by
  have hst : Stays (initial fun _ => 0).heap 100 := ⟨by decide, fun _ ho => absurd rfl ho⟩
  obtain ⟨husable, hreturns⟩ := malloc_usable (initial_fresh fun _ => 0) .refl hst 1
  obtain ⟨v, t, hexec⟩ := hreturns .refl
  exact ⟨hst, v, t, hexec, husable v t hexec⟩

/-- From `mend` on the search runs up to the end of the address space and finds page 0. -/
theorem findSpace_around {s : Heap} (hp : s.mptr = 4096 * j) (hj : mend / 4096 ≤ j) (hj' : j < 2 ^ 20)
    (hn : n + 4 < 4096) (h0 : s.mapped 0 = false) (hk : 2 ^ 20 - j < k) :
    Triple (findSpace n k nwrap) s (fun found t => found = true ∧ t.mptr = 0 ∧ t.mapped = s.mapped) E := by
  have hend : mend = 4096 * 65536 := by decide
  induction k generalizing s j with
  | zero => omega
  | succ k ih =>
    have hone : ∀ v, v + (n + 4) < 2 ^ 32 → ((v + (n + 4)) % 2 ^ 32 - v + 4095) / 4096 = 1 := by omega
    have hused : s.isfree s.mptr (n + 4) = false := by
      rw [Heap.isfree, hone s.mptr (by omega)]
      simp [show ¬ s.mptr < mend by omega]
    have hptr : s.nextPage.mptr = (4096 * j + 4096) % 2 ^ 32 := by rw [s.nextPage_mptr, hp]
    unfold findSpace
    refine .get_bind ?_
    refine .ite (fun hfree => absurd (hused.symm.trans hfree) Bool.false_ne_true) fun _ => ?_
    refine .modify_bind ?_
    refine .ite (fun hwrap => absurd (hptr.symm.trans hwrap) (by omega)) fun _ => ?_
    rcases Nat.lt_or_ge (j + 1) (2 ^ 20) with hlt | hge
    · have hptr' : s.nextPage.mptr = 4096 * (j + 1) := by omega
      rw [← s.nextPage_mapped] at h0 ⊢
      exact ih hptr' (by omega) hlt h0 (by omega)
    · -- The pointer wraps around.
      have hzero : s.nextPage.mptr = 0 := by omega
      obtain ⟨k, rfl⟩ : ∃ k', k = k' + 1 := ⟨k - 1, by omega⟩
      have hfree : s.nextPage.isfree s.nextPage.mptr (n + 4) = true := by
        rw [Heap.isfree_congr s.nextPage_mapped, hzero, Heap.isfree, hone 0 (by omega)]
        simp [h0, show 0 < mend by omega]
      unfold findSpace
      refine .get_bind ?_
      exact .ite (fun _ => .pure ⟨rfl, hzero, s.nextPage_mapped⟩) fun hno => absurd hfree hno

/-- A request that the last page of the range has no room for takes `mptr` to
page 0, unless that is mapped: the caller gets NULL, and a page is gone. -/
theorem malloc_leaves_range {s : Heap} (ho : s.mptr % 4096 ≠ 0) (hlast : s.mptr / 4096 = 65535) (hopen : s.Open)
    (hn : (n + 3) / 4 * 4 + 4 < 4096) (hfit : ¬ s.Fits n) (h0 : s.mapped 0 = false) :
    ∃ t, exec (malloc n 1) s = (.ok 0, t) ∧ t.mptr = (n + 3) / 4 * 4 ∧ t.mapped 0 = true := by
  have hend : mend = 4096 * 65536 := by decide
  have hsize : (n + 3) / 4 * 4 % 2 ^ 32 = (n + 3) / 4 * 4 := by omega
  obtain ⟨hm, hc⟩ := hopen ho
  rw [hlast] at hm hc
  suffices h : Triple (malloc n 1) s (fun v t => v = 0 ∧ t.mptr = (n + 3) / 4 * 4 ∧ t.mapped 0 = true)
      fun _ _ => False by
    obtain ⟨v, t, hexec, rfl, hpost⟩ := h.returns
    exact ⟨t, hexec, hpost⟩
  unfold malloc
  refine .get_bind ?_
  refine .ite (fun hz => absurd hz (by omega)) fun _ => ?_
  dsimp only
  rw [hsize]
  refine .ite (fun hmax => absurd hmax (by unfold maxmalloc; omega)) fun _ => ?_
  refine .get_bind ?_
  refine .ite (fun _ => .ite (fun hf => absurd ⟨ho, hf⟩ hfit) fun _ => ?_) fun ha => absurd ho ha
  have hfree := free_eq (s := s) (v := s.mptr) (q := 65535) (by omega) (by omega) (fun x h₁ h₂ => by omega) hc
  refine .bind (hfree.never fun _ _ hE => hE ⟨by unfold mbegin; omega, by omega, hm⟩) ?_
  rintro _ _ rfl
  rw [hlast, Heap.clear_self]
  have hzero : (s.drop 65535).mapped 0 = false := (s.drop_of_ne (by omega)).1.trans h0
  have hnext : (s.mptr + 4096) / 4096 * 4096 = 4096 * 65536 := by omega
  rw [hnext]
  refine .bind (.modify (Q := fun _ u => u.mptr = 4096 * 65536 ∧ u.mapped 0 = false) ⟨rfl, hzero⟩) ?_
  rintro _ u ⟨hptr, hzero⟩
  refine .bind (findSpace_around hptr (by decide) (by decide) hn hzero (by decide)) ?_
  rintro _ u ⟨rfl, hptr, -⟩
  refine .ite (fun hno => absurd rfl hno) fun _ => ?_
  refine .get_bind ?_
  dsimp only
  have hone : ((n + 3) / 4 * 4 + 4 + 4095) / 4096 = 1 := by omega
  rw [hptr, hone]
  have halloc : Triple (allocPages 0 1 0 1) u (fun done t => done = true ∧ t.mapped 0 = true) fun _ _ => False := by
    unfold allocPages
    refine .ite (fun h => absurd h (by decide)) fun _ => ?_
    exact .bind (.modify (Q := fun _ t => t.mapped 0 = true) (by simp [Heap.map])) fun _ t ht => .pure ⟨rfl, ht⟩
  refine .bind halloc ?_
  rintro _ t ⟨rfl, hmapped⟩
  refine .ite (fun hno => absurd rfl hno) fun _ => .bind (storeRef_ok fun hno => ?_) ?_
  · exact absurd (hno.symm.trans hmapped) Bool.false_ne_true
  rintro _ _ ⟨rfl, -⟩
  refine .bind (.modify (Q := fun _ t => t.mptr = (n + 3) / 4 * 4 ∧ t.mapped 0 = true) ⟨?_, hmapped⟩) ?_
  · exact Nat.zero_add _
  · exact fun _ t ht => .pure ⟨rfl, ht⟩

theorem malloc_congr (h : (n + 3) / 4 * 4 % 2 ^ 32 = (m + 3) / 4 * 4 % 2 ^ 32) (avail : Nat) :
    malloc n avail = malloc m avail := by
  unfold malloc
  rw [h]

/-- `2 ^ 32 - 1` bytes are rounded up to none: the request succeeds. -/
theorem huge_request_succeeds : ∃ v t, exec (malloc (2 ^ 32 - 1) 1) (initial fun _ => 0).heap = (.ok v, t) ∧
    v ≠ 0 ∧ ¬ Usable (2 ^ 32 - 1) v t := by
  rw [malloc_congr (m := 0) (by decide)]
  refine ⟨mbegin, (exec (malloc 0 1) (initial fun _ => 0).heap).2, Prod.ext rfl rfl, by decide, fun h => ?_⟩
  exact absurd h.high (by decide)

/-! ## Leaks -/

/-- The requests that `mptr` has its reference back from: none of whole pages
gets pages of its own. -/
def Tidy (s : State) (n v : Nat) : Prop :=
  n < maxmalloc ∧ s.Uncrowded ∧ (v = 0 ∨ s.heap.Fits n ∨ (n + 3) / 4 * 4 % 4096 ≠ 0)

/-- The reference words count the live chunks and the page that is being filled;
without chunks no other page is left. -/
theorem malloc_no_leak (h0 : s₀.Fresh) (h : AskRuns Tidy s₀ s) :
    (∀ p, HeapPage p → s.heap.mapped p = true → s.heap.continued p = false →
      (s.heap.ref p).toNat = count s.live p + s.heap.opened p) ∧
    (s.live = [] → ∀ p q, HeapPage p → s.heap.mapped p = true → HeapPage q → s.heap.mapped q = true → p = q) := by
  have hlt : maxmalloc < 2 ^ 32 - 3 := by decide
  obtain ⟨-, spare, hok, hzero⟩ := h.ok (fun _ _ _ hp => ⟨by have hn := hp.1; omega, hp.2.1⟩) h0
  have hzero := hzero fun _ _ _ hp => hp.2.2
  have hrefs : ∀ p, HeapPage p → s.heap.mapped p = true → s.heap.continued p = false →
      (s.heap.ref p).toNat = count s.live p + s.heap.opened p := by
    intro p hp hm hc
    rw [hok.refs p hm hc, hzero p hp, Nat.add_zero]
  refine ⟨hrefs, fun hnil => ?_⟩
  have hfill : ∀ p, HeapPage p → s.heap.mapped p = true → p = s.heap.mptr / 4096 := by
    intro p hp hm
    cases hc : s.heap.continued p with
    | true =>
      obtain ⟨c, hmem, -⟩ := hok.owned p hp hm hc
      rw [hnil] at hmem
      cases hmem
    | false =>
      have href := hrefs p hp hm hc
      have hkept := hok.kept p hp hm hc
      rw [hnil, count_nil, Nat.zero_add, Heap.opened] at href
      split at href
      · rename_i ho
        exact ho.2.symm
      · exact absurd (BitVec.eq_of_toNat_eq href) hkept
  intro p q hp hm hq hm'
  rw [hfill p hp hm, hfill q hq hm']

/-- A chunk of four bytes: one for the chunk, one for the page being filled. -/
theorem malloc_no_leak_first :
    AskRuns Tidy (initial fun _ => 0) ⟨first, [⟨mbegin, 4⟩]⟩ ∧ (first.ref 32768).toNat = 2 := by
  have hask : Asks Tidy (initial fun _ => 0) ⟨first, [⟨mbegin, 4⟩]⟩ :=
    .malloc (by decide) ⟨by decide, fun ho => absurd rfl ho, .inr (.inr (by decide))⟩ exec_first
  have hruns : AskRuns Tidy (initial fun _ => 0) ⟨first, [⟨mbegin, 4⟩]⟩ := .single hask
  refine ⟨hruns, ?_⟩
  exact (malloc_no_leak (initial_fresh _) hruns).1 32768 (by decide) rfl rfl

/-- A chunk of one page is made and freed, and then another. -/
def paged : Heap := (exec (malloc 4096 2) (initial fun _ => 0).heap).2

def pagedFreed : Heap := (exec (free mbegin) paged).2

def pagedAgain : Heap := (exec (malloc 4096 2) pagedFreed).2

def pagedAgainFreed : Heap := (exec (free (mbegin + 8192)) pagedAgain).2

/-- Each leaves a page behind: `mptr` is not inside it, and its reference stays. -/
theorem page_sized_chunks_leak : ∃ s, AskRuns (fun _ n _ => n < maxmalloc) (initial fun _ => 0) s ∧ s.live = [] ∧
    ∃ p q, p ≠ q ∧ HeapPage p ∧ s.heap.mapped p = true ∧ HeapPage q ∧ s.heap.mapped q = true := by
  have h₁ : exec (malloc 4096 2) (initial fun _ => 0).heap = (.ok mbegin, paged) := Prod.ext rfl rfl
  have h₂ : exec (free mbegin) paged = (.ok (), pagedFreed) := Prod.ext rfl rfl
  have h₃ : exec (malloc 4096 2) pagedFreed = (.ok (mbegin + 8192), pagedAgain) := Prod.ext rfl rfl
  have h₄ : exec (free (mbegin + 8192)) pagedAgain = (.ok (), pagedAgainFreed) := Prod.ext rfl rfl
  have ask : ∀ {s t v}, v ≠ 0 → exec (malloc 4096 2) s = (.ok v, t) →
      Asks (fun _ n _ => n < maxmalloc) ⟨s, []⟩ ⟨t, [⟨v, 4096⟩]⟩ := by
    intro s t v hv h
    have hask : Asks (fun _ n _ => n < maxmalloc) ⟨s, []⟩ _ := .malloc (by decide) (by decide) h
    rwa [if_neg hv] at hask
  have give : ∀ {s t v}, exec (free v) s = (.ok (), t) →
      Asks (fun _ n _ => n < maxmalloc) ⟨s, [⟨v, 4096⟩]⟩ ⟨t, []⟩ :=
    fun h => .free (c := ⟨_, 4096⟩) (l := []) h
  refine ⟨⟨pagedAgainFreed, []⟩, ?_, rfl, 32769, 32771, by decide, by decide, ?_, by decide, ?_⟩
  · exact .tail (.tail (.tail (.single (ask (by decide) h₁)) (give h₂)) (ask (by decide) h₃)) (give h₄)
  · decide +kernel
  · decide +kernel

end Jos.Malloc
