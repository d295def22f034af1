import Jos.Kern.WalkLaws
import Jos.Kern.Env

/-!
# Creating and releasing an address space

`env_setup_vm` adds a directory, `region_alloc` and the loader fill it, and
`env_free` takes it away again, all keeping the invariant of memory.
-/

namespace Jos

open Lib

/-- Memory between two operations: the invariant, no page in flight, and no
count about to wrap. -/
structure Steady {ι : Type} [Fintype ι] (P : Platform) (dirs : ι → Option Nat) (s : Pmap) : Prop where
  ok : ∃ l, MemOk P dirs [] ∅ l s
  bounded : Bounded dirs s.mem

section
variable {ι : Type} [Fintype ι] [DecidableEq ι] {P : Platform} {dirs : ι → Option Nat} {s : Pmap}

theorem ofNat_page (p : Nat) : BitVec.ofNat 32 (p * pgsize) = page2pa p := by
  apply BitVec.eq_of_toNat_eq
  simp only [page2pa, pgsize, BitVec.toNat_ofNat, BitVec.toNat_shiftLeft, Nat.shiftLeft_eq]
  omega

/-! ## `env_setup_vm` -/

def dirWords (m : Mem) (kernPgdir p : Nat) : Mem :=
  let m1 := m.writeWords (p * pgsize) (fun _ => 0#32) (List.range pdxUtop)
  let m2 := m1.writeWords (p * pgsize) (fun i => m1.read32 (kernPgdir + 4 * i))
    (List.range' pdxUtop (npdentries - pdxUtop))
  m2.write32 (p * pgsize + 4 * pdx uvpt) (page2pa p ||| pteP ||| pteU)

theorem writeWords_page_of_ne {m : Mem} {w : Nat → Word} (hl : ∀ i ∈ l, i < 1024) (h : a / pgsize ≠ p) :
    m.writeWords (p * pgsize) w l a = m a := by
  refine Mem.writeWords_of_outside fun i hi => ?_
  have := hl i hi
  unfold pgsize at *
  omega

theorem mem_upper_iff : d ∈ List.range' pdxUtop (npdentries - pdxUtop) ↔ ¬ Own d ∧ d < 1024 := by
  rw [List.mem_range'_1]
  unfold Own pdxUtop npdentries
  omega

theorem dirWords_of_ne {m : Mem} (h : a / pgsize ≠ p) : dirWords m k p a = m a := by
  unfold dirWords
  rw [write32_page_of_ne (pdx_lt _) h, writeWords_page_of_ne (fun i hi => (mem_upper_iff.mp hi).2) h,
    writeWords_page_of_ne (fun i hi => Own.lt (List.mem_range.mp hi)) h]

theorem not_own_uvpt : ¬ Own (pdx uvpt) := by decide

theorem MemOk.self_table {ι : Type} [Fintype ι] {P : Platform} {dirs : ι → Option Nat} {i : ι} {s : Pmap}
    (h : MemOk P dirs pend held l s) (hq : dirs i = some q) :
    tableOf dirs s.mem i (pdx uvpt) = some q := by
  have hlt := Nat.lt_of_lt_of_le (h.pool_lt (h.dir_pool hq)) s.layout.npages_le
  rw [tableOf, h.shared hq not_own_uvpt (pdx_lt _), Platform.upper, if_pos rfl, BitVec.or_assoc,
    BitVec.or_comm pteP, ← BitVec.or_assoc]
  exact entryPage_pack hlt (by decide)

theorem dirWords_own {m : Mem} (ho : Own d) : (dirWords m k p).read32 (p * pgsize + 4 * d) = 0#32 := by
  have hne : pdx uvpt ≠ d := by
    rintro rfl
    exact not_own_uvpt ho
  unfold dirWords
  rw [Mem.read32_write32_index, if_neg hne, Mem.read32_writeWords,
    if_neg (fun h => (mem_upper_iff.mp h).1 ho), Mem.read32_writeWords, if_pos (List.mem_range.mpr ho)]

theorem dirWords_upper {m : Mem} (ho : ¬ Own d) (hd : d < 1024) (hpk : kq ≠ p) :
    (dirWords m (kq * pgsize) p).read32 (p * pgsize + 4 * d) =
      if d = pdx uvpt then page2pa p ||| pteP ||| pteU else m.read32 (kq * pgsize + 4 * d) := by
  unfold dirWords
  rw [Mem.read32_write32_index]
  by_cases hdu : d = pdx uvpt
  · rw [if_pos hdu.symm, if_pos hdu]
  · rw [if_neg (Ne.symm hdu), if_neg hdu, Mem.read32_writeWords, if_pos (mem_upper_iff.mpr ⟨ho, hd⟩)]
    refine read32_page_congr (fun a ha => writeWords_page_of_ne ?_ ?_) hd
    · exact fun i hi => Own.lt (List.mem_range.mp hi)
    · rw [ha]
      exact hpk

theorem exec_envSetupVm (hf : s.pageFreeList = some p) (hp : p < s.layout.npages) (hp0 : p ≠ 0)
    (hk : s.layout.kernPgdir = kq * pgsize) (hpk : kq ≠ p) :
    exec envSetupVm s = (.ok (some (p * pgsize)), { (s.take p).incref p with
      mem := dirWords (s.take p).mem (kq * pgsize) p }) := by
  have ha : p * pgsize ≠ 0 := by
    unfold pgsize
    omega
  have hkva : exec (page2kva p) ((s.take p).incref p) = (.ok (p * pgsize), (s.take p).incref p) :=
    exec_page2kva hp
  have hd : ∀ i ∈ List.range' pdxUtop (npdentries - pdxUtop),
      ∀ j ∈ List.range' pdxUtop (npdentries - pdxUtop),
      p * pgsize + 4 * i + 4 ≤ kq * pgsize + 4 * j ∨ kq * pgsize + 4 * j + 4 ≤ p * pgsize + 4 * i := by
    intro i hi j hj
    have h1 := (mem_upper_iff.mp hi).2
    have h2 := (mem_upper_iff.mp hj).2
    unfold pgsize
    omega
  have hst : p * pgsize + 4 * pdx uvpt ≠ 0 := by omega
  unfold envSetupVm
  simp only [exec_bind, exec_pageAlloc_true hf hp, exec_modify, hkva, exec_forM_store ha, exec_get]
  have hkp : (s.take p).layout.kernPgdir = kq * pgsize := hk
  simp only [Pmap.incref_layout, hkp, exec_forM_copy ha _ hd, exec_store hst, exec_pure, ofNat_page]
  rfl

/-- A new directory with nothing mapped below `UTOP`. -/
structure NewSpace (P : Platform) (dirs : ι → Option Nat) (i : ι) (q : Nat) (s s' : Pmap) : Prop where
  steady : Steady P (Function.update dirs i (some q)) s'
  pool : P.pool q
  empty : Own d → pdeOf (Function.update dirs i (some q)) s'.mem i d = 0#32
  frame : a / pgsize ≠ q → s'.mem a = s.mem a
  length : ∀ l, MemOk P dirs [] ∅ l s → ∃ l', l = q :: l' ∧ MemOk P (Function.update dirs i (some q)) [] ∅ l' s'

theorem NewSpace.touches (h : NewSpace P dirs i q s s') (hok : MemOk P dirs [] ∅ l s) :
    Touches dirs i s.mem s'.mem := by
  obtain ⟨l', rfl, -⟩ := h.length l hok
  refine hok.touches fun a ha => .inr ?_
  have hpage : a / pgsize = q := by
    by_contra hne
    exact ha (h.frame hne)
  have huses := (hok.counted.free_iff.mp (List.mem_cons_self (a := q) (l := l'))).2.1
  rw [hpage]
  exact count_eq_zero.mp (Nat.eq_zero_of_add_eq_zero_right huses)

theorem envSetupVm_ok (h : Steady P dirs s) (hi : dirs i = none) :
    Triple envSetupVm s
      (fun r s' => (r = none ∧ s' = s) ∨ ∃ q, r = some (q * pgsize) ∧ NewSpace P dirs i q s s')
      (fun _ _ => False) := by
  obtain ⟨l, hok⟩ := h.ok
  cases hf : s.pageFreeList with
  | none =>
    refine .of_ok (?_ : exec envSetupVm s = (.ok none, s)) (.inl ⟨rfl, rfl⟩)
    simp [envSetupVm, exec_bind, exec_pageAlloc_none hf]
  | some p =>
    obtain ⟨hpool, hfresh, _, _⟩ := hok.head_unused hf
    have hpk : P.kq ≠ p := by
      rintro rfl
      exact P.kq_kept hpool
    have hk : s.layout.kernPgdir = P.kq * pgsize := by rw [hok.layout_eq, P.kernPgdir_eq]
    have key : ∀ l, MemOk P dirs [] ∅ l s → ∃ l', l = p :: l' ∧
        MemOk P (Function.update dirs i (some p)) [] ∅ l' { (s.take p).incref p with
          mem := dirWords (s.take p).mem (P.kq * pgsize) p } ∧
        ∀ a, refs (Function.update dirs i (some p)) (dirWords (s.take p).mem (P.kq * pgsize) p) a =
          refs dirs s.mem a + if p = a then 1 else 0 := by
      intro l hok
      obtain ⟨l', rfl, htake, hsame⟩ := hok.take_same hf
      have hfresh' : ∀ r : Ref ι Own, target dirs (s.take p).mem r ≠ some p := by
        intro r
        rw [hsame.target_eq]
        exact hfresh r
      have hinc := htake.incref hpool (List.nodup_cons.mp hok.counted.chain.nodup).1 (fun r _ => hfresh' r)
      rw [Finset.erase_insert (Finset.notMem_empty p)] at hinc
      have hupper : ∀ d, ¬ Own d → d < 1024 →
          (dirWords (s.take p).mem (P.kq * pgsize) p).read32 (p * pgsize + 4 * d) = P.upper p d := by
        intro d ho hd
        rw [dirWords_upper ho hd hpk]
        unfold Platform.upper
        split
        · rfl
        · refine read32_page_congr (fun a ha => ?_) hd
          exact htake.frozen (by rw [ha]; exact P.kq_kept)
      obtain ⟨hnew, hr⟩ := hinc.newDir hi hfresh' (by simp) (dirWords (s.take p).mem (P.kq * pgsize) p)
        (fun a ha => dirWords_of_ne ha) (fun d ho => dirWords_own ho) hupper
      refine ⟨l', rfl, hnew, fun a => (hr a).trans ?_⟩
      rw [Pmap.incref_mem, hsame.refs_eq]
    obtain ⟨l', _, hnew, hr⟩ := key l hok
    refine .of_ok (exec_envSetupVm hf (hok.pool_lt hpool) (Nat.pos_iff_ne_zero.mp (P.pool_pos hpool)) hk hpk)
      (.inr ⟨p, rfl, ⟨⟨l', hnew⟩, fun a => ?_⟩, hpool, fun ho => ?_, fun ha => ?_, fun l hl => ?_⟩)
    · have h0 : refs dirs s.mem p = 0 := count_eq_zero.mpr hfresh
      have h1 := h.bounded a
      refine (hr a).trans_le ?_
      split
      · subst_vars
        omega
      · omega
    · rw [pdeOf_some (Function.update_self ..)]
      exact dirWords_own ho
    · exact (dirWords_of_ne ha).trans (fill_page_of_ne ha)
    · obtain ⟨l', hl', hnew', _⟩ := key l hl
      exact ⟨l', hl', hnew'⟩

/-! ## Filling an address space -/

theorem insertFresh_ok (h : MemOk P dirs [] {p} l s) (hb : Bounded dirs s.mem) (h0 : refs dirs s.mem p = 0)
    (hq : dirs i = some q) (hva : va < utop) (hperm : UserPerm perm) :
    Triple (pageInsert (q * pgsize) p va perm) s
      (fun r s' => (r = 0 ∧ Steady P dirs s' ∧ Inserted P dirs {p} i va p perm s s') ∨
        (r = -eNoMem ∧ s' = s ∧ s.pageFreeList = none))
      (fun _ _ => False) := by
  refine (pageInsert_ok h hq hva (fun _ => hb) (.inl (Finset.mem_singleton_self p)) hperm).imp ?_
  rintro r s' (⟨rfl, hins⟩ | ⟨rfl, hs, hnone, -⟩)
  · obtain ⟨l', hok, -⟩ := hins.ok
    rw [Finset.erase_singleton] at hok
    refine .inl ⟨rfl, ⟨⟨l', hok⟩, fun a => ?_⟩, hins⟩
    by_cases hap : a = p
    · rw [hap, hins.refs_fresh hva h0]
      decide
    · have h1 := hins.refs_le a hap
      have h2 := hb a
      omega
  · exact .inr ⟨rfl, hs, hnone⟩

theorem allocInsert_ok (h : Steady P dirs s) (hq : dirs i = some q) (hva : va < utop) (hperm : UserPerm perm)
    (hf : s.pageFreeList = some p) :
    Triple (pageInsert (q * pgsize) p va perm) (s.unlink p)
      (fun r s' => (r = 0 ∧ Steady P dirs s' ∧ Inserted P dirs {p} i va p perm (s.unlink p) s') ∨
        (r = -eNoMem ∧ (s.unlink p).pageFreeList = none))
      (fun _ _ => False) := by
  obtain ⟨l, hok⟩ := h.ok
  obtain ⟨_, hfresh, _, _⟩ := hok.head_unused hf
  obtain ⟨l', _, hun⟩ := hok.unlink hf
  exact (insertFresh_ok hun h.bounded (count_eq_zero.mpr hfresh) hq hva hperm).imp (fun _ _ hr => hr.imp_right fun hn => ⟨hn.1, hn.2.2⟩)

theorem userPerm_WU : UserPerm (pteW ||| pteU) := by decide

theorem lt_utop_of_lt {start fin : Word} (h : start < fin) (hf : fin ≤ utop) : start < utop := by
  bv_omega

/-- The loop takes and maps a page, address after address. -/
theorem regionAllocLoop_rule {I : Word → Pmap → Prop} (hq : dirs i = some q) (hf : fin ≤ utop)
    (hstep : ∀ {a s t p}, a < fin → I a s → refs dirs s.mem p = 0 → p < 65536 → Steady P dirs t →
      Inserted P dirs {p} i a p (pteW ||| pteU) (s.unlink p) t → I (a + 4096) t)
    (h : Steady P dirs s) (hi : I start s) :
    Triple (regionAllocLoop (q * pgsize) fin hf start) s (fun _ s' => Steady P dirs s' ∧ ∃ a, ¬ a < fin ∧ I a s')
      (fun _ _ => True) := by
  induction hn : fin.toNat - start.toNat using Nat.strong_induction_on generalizing start s with
  | _ n ih =>
    rw [regionAllocLoop]
    split
    · rename_i hlt
      obtain ⟨l, hok⟩ := h.ok
      cases hfl : s.pageFreeList with
      | none =>
        refine .ok_bind (exec_pageAlloc_none hfl) ?_
        exact .throw trivial
      | some p =>
        obtain ⟨hpool, hfresh, -, -⟩ := hok.head_unused hfl
        refine .ok_bind (exec_pageAlloc_false hfl) ?_
        refine .bind ((allocInsert_ok h hq (lt_utop_of_lt hlt hf) userPerm_WU hfl).imp_error (fun _ _ hx => hx.elim)) fun r t ht => .ite (fun _ => .throw trivial) fun hr => ?_
        obtain ⟨-, hst, hins⟩ := ht.resolve_right (fun hx => hr (by rw [hx.1]; decide))
        have hnext := regionAlloc_step hlt hf
        rw [BitVec.lt_def] at hlt
        exact ih _ (by omega) hst (hstep (BitVec.lt_def.mpr hlt) hi (count_eq_zero.mpr hfresh)
          (Nat.lt_of_lt_of_le (hok.pool_lt hpool) s.layout.npages_le) hst hins) rfl
    · rename_i hlt
      exact .pure ⟨h, start, hlt, hi⟩

theorem regionAllocLoop_ok (h : Steady P dirs s) (hq : dirs i = some q) (hf : fin ≤ utop) :
    Triple (regionAllocLoop (q * pgsize) fin hf start) s (fun _ s' => Steady P dirs s') (fun _ _ => True) :=
  (regionAllocLoop_rule (I := fun _ _ => True) hq hf (fun _ _ _ _ _ _ => trivial) h trivial).imp (fun _ _ hx => hx.1)

theorem regionAlloc_ok (h : Steady P dirs s) (hq : dirs i = some q) (va len : Word) :
    Triple (regionAlloc (q * pgsize) va len) s (fun _ s' => Steady P dirs s') (fun _ _ => True) := by
  unfold regionAlloc
  by_cases hf : roundup (va + len) 4096 ≤ utop
  · rw [dif_pos hf]
    exact regionAllocLoop_ok h hq hf
  · rw [dif_neg hf]
    exact .throw trivial

omit [DecidableEq ι] in
theorem vstoreBytes_steady (h : Steady P dirs s) (hq : dirs i = some q) (va : Word) (n : Nat)
    (b : Nat → BitVec 8) :
    Triple (vstoreBytes (q * pgsize) va n b) s (fun _ s' => Steady P dirs s') (fun _ _ => True) := by
  obtain ⟨l, hok⟩ := h.ok
  exact (vstoreBytes_ok hok hq va n b).imp (fun _ _ hx => ⟨⟨l, hx.1⟩, hx.2.bounded h.bounded⟩)

theorem loadSegment_ok (h : Steady P dirs s) (hq : dirs i = some q) (ph : Proghdr) :
    Triple (loadSegment (q * pgsize) ph) s (fun _ s' => Steady P dirs s') (fun _ _ => True) := by
  unfold loadSegment
  by_cases ht : ph.type = elfProgLoad
  · rw [if_pos ht]
    by_cases hsz : ph.filesz ≤ ph.memsz
    · rw [if_pos hsz]
      refine .bind (regionAlloc_ok h hq ph.va ph.memsz) fun _ t ht => ?_
      refine .bind (vstoreBytes_steady ht hq ph.va _ _) fun _ u hu => ?_
      exact vstoreBytes_steady hu hq ph.va _ _
    · rw [if_neg hsz]
      exact .throw trivial
  · rw [if_neg ht]
    exact .pure h

/-! ## `env_free` -/

theorem pgaddr_lt_utop (ho : Own d) (hk : t < 1024) : pgaddr d t 0 < utop := by
  rw [BitVec.lt_def, utop_toNat, pgaddr_toNat ho.lt hk]
  unfold Own pdxUtop at ho
  omega

omit [DecidableEq ι] in
theorem pageDecref_steady (h : MemOk P dirs [p] ∅ l s) (hb : ∀ a, refs dirs s.mem a ≤ 65535) :
    Triple (pageDecref p) s (fun _ s' => Steady P dirs s' ∧ s'.mem = s.mem) (fun _ _ => False) := by
  have hu : uses (target dirs s.mem : Ref ι Own → Option Nat) [] p < 65536 := by
    have := hb p
    unfold refs at this
    simp only [uses, List.count_nil, Nat.add_zero]
    omega
  obtain ⟨hstuck, l', hok, _⟩ := h.drop hu
  refine .of_ok (exec_pageDecref hstuck) ⟨⟨⟨l', hok⟩, ?_⟩, Pmap.drop_mem⟩
  intro a
  rw [Pmap.drop_mem]
  exact hb a

/-- What clearing a table leaves: the directories as they were, and the first
entries of the table naming nothing. -/
structure Clearing (P : Platform) (dirs : ι → Option Nat) (i : ι) (d : Nat) (s : Pmap) (rem : List Nat)
    (t : Pmap) : Prop where
  steady : Steady P dirs t
  pde : ∀ j d', d' < 1024 → pdeOf dirs t.mem j d' = pdeOf dirs s.mem j d'
  cleared : ∀ k, k < 1024 → k ∉ rem → entryPage (pteOf dirs t.mem i d k) = none
  within : t.mem a ≠ s.mem a → IsSpace dirs s.mem i (a / pgsize)

omit [Fintype ι] [DecidableEq ι] in
theorem IsSpace.mono (h : IsSpace dirs m' i p)
    (ht : ∀ {d pt}, Own d → tableOf dirs m' i d = some pt → tableOf dirs m i d = some pt) : IsSpace dirs m i p :=
  h.imp_right fun ⟨d, ho, hd⟩ => ⟨d, ho, ht ho hd⟩

theorem clearEntry_ok (h : Clearing P dirs i d s (k :: rem) t) (hq : dirs i = some q) (ho : Own d)
    (hk : k < 1024) (ht : tableOf dirs s.mem i d = some pt) :
    Triple (do if (← load (pt * pgsize + 4 * k)) &&& pteP = pteP then pageRemove (q * pgsize) (pgaddr d k 0))
      t (fun _ u => Clearing P dirs i d s rem u) (fun _ _ => False) := by
  obtain ⟨l, hok⟩ := h.steady.ok
  have ht' : tableOf dirs t.mem i d = some pt := by
    unfold tableOf
    rw [h.pde i d ho.lt]
    exact ht
  have hd : pdx (pgaddr d k 0) = d := pdx_pgaddr ho.lt hk
  have hkx : ptx (pgaddr d k 0) = k := ptx_pgaddr ho.lt hk
  refine .bind (.of_ok (exec_load _)
    (Q := fun w u => w = pteOf dirs t.mem i d k ∧ t = u) ⟨(pteOf_some ht').symm, rfl⟩) ?_
  rintro _ _ ⟨rfl, rfl⟩
  by_cases hp : pteOf dirs t.mem i d k &&& pteP = pteP
  · rw [if_pos hp]
    refine (pageRemove_ok hok h.steady.bounded hq (pgaddr_lt_utop ho hk)).imp (fun _ u hu => ?_)
    have hunmapped := hu.unmapped
    have hothers := hu.others
    rw [hd, hkx] at hunmapped hothers
    refine ⟨⟨hu.ok, fun a => Nat.le_trans (hu.refs_le a) (h.steady.bounded a)⟩,
      fun j d' hd' => (hu.pde j d' hd').trans (h.pde j d' hd'), fun k' hk' hrem => ?_, fun {a} ha => ?_⟩
    · by_cases hkk : k' = k
      · subst hkk
        exact hunmapped
      · rw [hothers i d k' ho hk' (by simp [hkk])]
        exact h.cleared k' hk' (by simp [hkk, hrem])
    · by_cases hua : u.mem a = t.mem a
      · exact h.within (hua ▸ ha)
      · refine (hu.within hua).mono fun {d' pt'} ho' ht'' => ?_
        unfold tableOf at ht'' ⊢
        rwa [h.pde i d' ho'.lt] at ht''
  · rw [if_neg hp]
    refine .pure ⟨h.steady, h.pde, fun k' hk' hrem => ?_, h.within⟩
    by_cases hkk : k' = k
    · subst hkk
      exact entryPage_eq_none.mpr hp
    · exact h.cleared k' hk' (by simp [hkk, hrem])

/-- What `env_free` has done to the directory after some of its entries. -/
structure Freeing (P : Platform) (dirs : ι → Option Nat) (i : ι) (s0 : Pmap) (rem : List Nat) (t : Pmap) :
    Prop where
  steady : Steady P dirs t
  gone : ∀ d, Own d → d ∉ rem → tableOf dirs t.mem i d = none
  kept : Own d → tableOf dirs t.mem i d = some pt → tableOf dirs s0.mem i d = some pt
  within : t.mem a ≠ s0.mem a → IsSpace dirs s0.mem i (a / pgsize)

theorem envFreeTable_ok (h : Freeing P dirs i s0 (d :: rem) s) (hq : dirs i = some q) (ho : Own d) :
    Triple (envFreeTable (q * pgsize) d) s (fun _ s' => Freeing P dirs i s0 rem s') (fun _ _ => False) := by
  obtain ⟨l, hok⟩ := h.steady.ok
  unfold envFreeTable
  refine .bind (.of_ok (exec_load _)
    (Q := fun w u => w = pdeOf dirs s.mem i d ∧ s = u) ⟨(pdeOf_some hq).symm, rfl⟩) ?_
  rintro _ _ ⟨rfl, rfl⟩
  by_cases hp : pdeOf dirs s.mem i d &&& pteP = pteP
  · rw [if_pos hp]
    obtain ⟨pt, ht⟩ : ∃ pt, tableOf dirs s.mem i d = some pt :=
      ⟨_, entryPage_eq_some.mpr ⟨hp, rfl⟩⟩
    have hpt : pgnum (pteAddr (pdeOf dirs s.mem i d)) = pt := by
      rw [pgnum_pteAddr]
      exact (entryPage_eq_some.mp ht).2
    have hlt := hok.pool_lt (hok.table_pool ho ht)
    have hkaddr : exec (kaddr (pteAddr (pdeOf dirs s.mem i d))) s = (.ok (pt * pgsize), s) := by
      rw [exec_kaddr, hpt, if_pos hlt, pteAddr_toNat, (entryPage_eq_some.mp ht).2]
      rfl
    refine .ok_bind hkaddr ?_
    refine .bind (.forM (I := fun rem t => Clearing P dirs i d s rem t ∧ ∀ k ∈ rem, k < 1024)
      ⟨⟨h.steady, fun _ _ _ => rfl, fun k hk hmem => absurd (List.mem_range.mpr hk) hmem, fun h => absurd rfl h⟩,
        fun k hk => List.mem_range.mp hk⟩ fun k rem' t ⟨hc, hrem⟩ =>
          (clearEntry_ok hc hq ho (hrem k (by simp)) ht).imp (fun _ _ hu => ⟨hu, fun k hk => hrem k (by simp [hk])⟩)) ?_
    rintro _ t ⟨hc, -⟩
    obtain ⟨lt, hokt⟩ := hc.steady.ok
    have htt : tableOf dirs t.mem i d = some pt := by
      unfold tableOf
      rw [hc.pde i d ho.lt]
      exact ht
    have ha : q * pgsize + 4 * d ≠ 0 := by
      have := P.pool_pos (hok.dir_pool hq)
      unfold pgsize
      omega
    obtain ⟨hclr, hr⟩ := hokt.clearPde hq ho htt fun k hk => hc.cleared k hk (by simp)
    refine .ok_bind (exec_store ha) ?_
    have hpa : exec (pa2page (pteAddr (pdeOf dirs s.mem i d)))
        { t with mem := t.mem.write32 (q * pgsize + 4 * d) 0#32 } =
        (.ok pt, { t with mem := t.mem.write32 (q * pgsize + 4 * d) 0#32 }) := by
      rw [exec_pa2page, hpt, if_pos (hclr.pool_lt (hokt.table_pool ho htt))]
    refine .ok_bind hpa ?_
    refine (pageDecref_steady hclr fun a => ?_).imp (fun _ u hu => ?_)
    · have h1 := hr a
      have h2 := hc.steady.bounded a
      exact Nat.le_trans (Nat.le_trans (Nat.le_add_right _ _) (Nat.le_of_eq h1)) h2
    · have htable : ∀ d', Own d' → tableOf dirs u.mem i d' = if d' = d then none else tableOf dirs s.mem i d' := by
        intro d' ho'
        unfold tableOf
        rw [hu.2, pdeOf_storePde hq (fun _ hj => hokt.sep.tabSep.dir_inj hq hj) ho.lt ho'.lt]
        by_cases hdd : d' = d
        · rw [if_pos ⟨rfl, hdd⟩, if_pos hdd, entryPage_zero]
        · rw [if_neg (by simp [hdd]), if_neg hdd, hc.pde i d' ho'.lt]
      refine ⟨hu.1, fun d' ho' hrem => ?_, fun {d' pt'} ho' ht' => ?_, fun {a} ha => ?_⟩
      · rw [htable d' ho']
        split
        · rfl
        · rename_i hdd
          exact h.gone d' ho' (by simp [hdd, hrem])
      · rw [htable d' ho'] at ht'
        split at ht'
        · simp at ht'
        · exact h.kept ho' ht'
      · by_cases hpq : a / pgsize = q
        · exact .inl (by rw [hpq]; exact hq)
        · have hua : u.mem a = t.mem a := by
            rw [hu.2]
            exact write32_page_of_ne ho.lt hpq
          rw [hua] at ha
          by_cases hta : t.mem a = s.mem a
          · exact h.within (hta ▸ ha)
          · exact (hc.within hta).mono h.kept
  · rw [if_neg hp]
    refine .pure ⟨h.steady, fun d' ho' hrem => ?_, h.kept, h.within⟩
    by_cases hdd : d' = d
    · subst hdd
      exact entryPage_eq_none.mpr hp
    · exact h.gone d' ho' (by simp [hdd, hrem])

/-- `env_free` gives back everything below `UTOP` and the directory. -/
theorem envFreeSpace_ok (h : Steady P dirs s) (hq : dirs i = some q) :
    Triple (envFreeSpace (q * pgsize)) s
      (fun _ s' => Steady P (Function.update dirs i none) s' ∧ refs (Function.update dirs i none) s'.mem q = 0 ∧
        Touches dirs i s.mem s'.mem)
      (fun _ _ => False) := by
  unfold envFreeSpace
  refine .bind (.forM (I := fun rem t => Freeing P dirs i s rem t ∧ ∀ d ∈ rem, Own d)
    ⟨⟨h, fun d ho hmem => absurd (List.mem_range.mpr ho) hmem, fun _ ht => ht, fun h => absurd rfl h⟩,
      fun d hd => List.mem_range.mp hd⟩
    fun d rem t ⟨hf, hrem⟩ => (envFreeTable_ok hf hq (hrem d (by simp))).imp (fun _ _ hu => ⟨hu, fun d hd => hrem d (by simp [hd])⟩)) ?_
  rintro _ t ⟨hf, -⟩
  obtain ⟨l, hok⟩ := hf.steady.ok
  have hlt := hok.pool_lt (hok.dir_pool hq)
  have hpa : exec (pa2page (BitVec.ofNat 32 (q * pgsize))) t = (.ok q, t) := by
    rw [exec_pa2page, ofNat_page, pgnum_page2pa (Nat.lt_of_lt_of_le hlt t.layout.npages_le), if_pos hlt]
  refine .bind (.of_ok hpa (Q := fun a u => a = q ∧ t = u) ⟨rfl, rfl⟩) ?_
  rintro q _ ⟨rfl, rfl⟩
  obtain ⟨hrem, hr⟩ := hok.removeDir hq fun d ho => hf.gone d ho (by simp)
  have hdir : target dirs t.mem (.dir i : Ref ι Own) = some q := hq
  have hone : refs dirs t.mem q = 1 := count_eq_one hdir fun r hr => hok.sep (.dir i) r q trivial hdir hr
  refine (pageDecref_steady hrem fun a => ?_).imp (fun _ u hu => ⟨hu.1, ?_, ?_⟩)
  · have h1 := hr a
    have h2 := hf.steady.bounded a
    omega
  · have h1 := hr q
    rw [if_pos rfl, hone] at h1
    rw [hu.2]
    omega
  · obtain ⟨l0, hok0⟩ := h.ok
    refine hok0.touches fun a ha => .inl (hf.within ?_)
    rwa [hu.2] at ha

end

end Jos
