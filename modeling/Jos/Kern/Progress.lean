import Jos.Kern.KernelLaws

/-!
# What succeeds while memory lasts

The invariant says what holds once a kernel function has returned; here is
when it does return, and with success: as long as there are free pages.
-/

namespace Jos

open Lib

/-! ## Free pages -/

def Pmap.Spare (s : Pmap) (n : Nat) : Prop := ∃ l, Chain s.next s.pageFreeList l ∧ n ≤ l.length

theorem Pmap.Spare.mono {s : Pmap} (h : s.Spare n) (hm : m ≤ n) : s.Spare m := by
  obtain ⟨l, hl, hn⟩ := h
  exact ⟨l, hl, Nat.le_trans hm hn⟩

theorem Pmap.Spare.unlink {s : Pmap} (h : s.Spare (n + 1)) :
    ∃ p, s.pageFreeList = some p ∧ (s.unlink p).Spare n := by
  obtain ⟨l, hl, hn⟩ := h
  cases hf : s.pageFreeList with
  | none =>
    rw [hf] at hl
    obtain rfl := Chain.none_iff.mp hl
    simp at hn
  | some p =>
    have hnd := hl.nodup
    rw [hf] at hl
    obtain ⟨l', rfl, hl'⟩ := Chain.some_iff.mp hl
    refine ⟨p, rfl, l', ?_, by simpa using hn⟩
    rw [Pmap.unlink_next]
    refine hl'.frame fun a ha => Function.update_of_ne ?_ _ _
    rintro rfl
    exact (List.nodup_cons.mp hnd).1 ha

theorem Pmap.Spare.head_ne {s : Pmap} (h : s.Spare (n + 1)) : s.pageFreeList ≠ none := by
  obtain ⟨p, hp, -⟩ := h.unlink
  simp [hp]

/-! ## Mapping a page -/

section
variable {ι : Type} [Fintype ι] [DecidableEq ι] {P : Platform} {dirs : ι → Option Nat} {s : Pmap}

theorem Inserted.spare (h : Inserted P dirs held i va pp perm s s') (hs : s.Spare (n + 1)) : s'.Spare n := by
  obtain ⟨l', hok, hlen⟩ := h.ok
  obtain ⟨l, hl, hn⟩ := hs
  refine ⟨l', hok.counted.chain, ?_⟩
  have := hlen l hl
  split at this <;> omega

theorem Inserted.spare_table (h : Inserted P dirs held i va pp perm s s') (hs : s.Spare n)
    (ht : tableOf dirs s.mem i (pdx va) ≠ none) : s'.Spare n := by
  obtain ⟨l', hok, hlen⟩ := h.ok
  obtain ⟨l, hl, hn⟩ := hs
  refine ⟨l', hok.counted.chain, ?_⟩
  have := hlen l hl
  rw [if_neg ht] at this
  omega

theorem pageInsert_progress (h : MemOk P dirs [] held l s) (hq : dirs i = some q) (hva : va < utop)
    (hb : entryPage (pteOf dirs s.mem i (pdx va) (ptx va)) ≠ none → Bounded dirs s.mem)
    (hpp : pp ∈ held ∨ Mapped dirs s.mem pp) (hperm : UserPerm perm)
    (hs : tableOf dirs s.mem i (pdx va) = none → s.Spare 1) :
    ∃ s', exec (pageInsert (q * pgsize) pp va perm) s = (.ok 0, s') ∧ Inserted P dirs held i va pp perm s s' := by
  obtain ⟨r, s', hexec, hr⟩ := (pageInsert_ok h hq hva hb hpp hperm).returns
  obtain ⟨rfl, hins⟩ | ⟨-, -, hnone, htab⟩ := hr
  · exact ⟨s', hexec, hins⟩
  · exact absurd hnone (hs htab).head_ne

/-- A fresh page mapped at `va`, with `n` pages left. -/
structure Filled (P : Platform) (dirs : ι → Option Nat) (i : ι) (va perm : Word) (n : Nat) (s s' : Pmap)
    (p : Nat) : Prop where
  steady : Steady P dirs s'
  spare : s'.Spare n
  pde : ∀ j d, d < 1024 → ¬ (j = i ∧ d = pdx va) → pdeOf dirs s'.mem j d = pdeOf dirs s.mem j d
  pte : PteSet dirs s.mem s'.mem i (pdx va) (ptx va) (page2pa p ||| perm ||| pteP)
  lt : p < 65536

theorem allocInsert_progress (h : Steady P dirs s) (hq : dirs i = some q) (hva : va < utop) (hperm : UserPerm perm)
    (hs : s.Spare (n + 2)) :
    ∃ p s', s.pageFreeList = some p ∧ exec (pageInsert (q * pgsize) p va perm) (s.unlink p) = (.ok 0, s') ∧
      Filled P dirs i va perm n s s' p := by
  obtain ⟨p, hf, hun⟩ := hs.unlink
  obtain ⟨r, s', hexec, hr⟩ := (allocInsert_ok h hq hva hperm hf).returns
  obtain ⟨l, hok⟩ := h.ok
  obtain ⟨hpool, -, -, -⟩ := hok.head_unused hf
  obtain ⟨rfl, hst, hins⟩ | ⟨-, hnone⟩ := hr
  · exact ⟨p, s', hf, hexec, hst, hins.spare hun, hins.pde, hins.pte,
      Nat.lt_of_lt_of_le (hok.pool_lt hpool) s.layout.npages_le⟩
  · exact absurd hnone hun.head_ne

theorem page_aligned {va : Word} (ha : va.toNat % 4096 = 0) (hva : va < utop) :
    rounddown va 4096 = va ∧ roundup (va + 4096) 4096 = va + 4096 ∧ va < va + 4096 ∧ va + 4096 ≤ utop := by
  rw [BitVec.lt_def, utop_toNat] at hva
  have hadd : (va + 4096).toNat = va.toNat + 4096 := by
    bv_omega
  have hdown : ∀ {a : Word}, a.toNat % 4096 = 0 → rounddown a 4096 = a := by
    intro a ha
    have hm : a % 4096 = 0 := by
      apply BitVec.eq_of_toNat_eq
      rw [BitVec.toNat_umod]
      exact ha
    rw [rounddown, hm]
    exact BitVec.sub_zero a
  refine ⟨hdown ha, ?_, ?_, ?_⟩
  · have hm : ((va + 4096 + 4096 - 1) % 4096).toNat = 4095 := by
      rw [BitVec.toNat_umod, BitVec.toNat_sub, BitVec.toNat_add, hadd]
      simp only [BitVec.ofNat_eq_ofNat, BitVec.toNat_ofNat, Nat.reducePow, Nat.reduceMod]
      omega
    apply BitVec.eq_of_toNat_eq
    rw [roundup, rounddown, BitVec.toNat_sub, hm, BitVec.toNat_sub, BitVec.toNat_add, hadd]
    bv_omega
  · bv_omega
  · rw [BitVec.le_def, utop_toNat]
    omega

theorem regionAllocLoop_page (hle : fin ≤ utop) (hfin : fin = va + 4096) (hlt : va < va + 4096)
    (hf : s.pageFreeList = some p)
    (hexec : exec (pageInsert pgdir p va (pteW ||| pteU)) (s.unlink p) = (.ok 0, s')) :
    exec (regionAllocLoop pgdir fin hle va) s = (.ok (), s') := by
  subst hfin
  rw [regionAllocLoop, dif_pos hlt, exec_bind_ok (exec_pageAlloc_false hf)]
  dsimp only
  rw [exec_bind_ok hexec, if_neg (by simp), regionAllocLoop, dif_neg (BitVec.lt_irrefl _)]
  rfl

theorem regionAlloc_progress (h : Steady P dirs s) (hq : dirs i = some q) (ha : va.toNat % 4096 = 0)
    (hva : va < utop) (hs : s.Spare (n + 2)) :
    ∃ s' p, exec (regionAlloc (q * pgsize) va 4096) s = (.ok (), s') ∧
      Filled P dirs i va (pteW ||| pteU) n s s' p := by
  obtain ⟨hdown, hup, hlt, hle⟩ := page_aligned ha hva
  obtain ⟨p, s', hf, hexec, hfill⟩ := allocInsert_progress h hq hva userPerm_WU hs
  have hle' : roundup (va + 4096) 4096 ≤ utop := by
    rw [hup]
    exact hle
  refine ⟨s', p, ?_, hfill⟩
  rw [regionAlloc, dif_pos hle', hdown]
  exact regionAllocLoop_page hle' hup hlt hf hexec

omit [DecidableEq ι] in
theorem MemOk.translate_own (h : MemOk P dirs pend held l s) (hq : dirs i = some q) (ho : Own (pdx va))
    (hp : entryPage (pteOf dirs s.mem i (pdx va) (ptx va)) = some p) :
    translate s.mem (q * pgsize) va = some (p, pteOf dirs s.mem i (pdx va) (ptx va) &&& 0xFFF#32) := by
  obtain ⟨pt, ht⟩ := exists_table hp
  refine (translate_eq_some hq).mpr ⟨pt, ht, hp, ?_⟩
  have hf := h.flags ho (ptx_lt va) (i := i)
  unfold Sub at hf
  rw [BitVec.and_assoc, BitVec.and_comm (pdeOf ..), hf]

omit [DecidableEq ι] in
theorem vstore8_progress (h : MemOk P dirs pend held l s) (hq : dirs i = some q) (hva : va < utop)
    (hp : entryPage (pteOf dirs s.mem i (pdx va) (ptx va)) = some p)
    (hw : Sub pteW (pteOf dirs s.mem i (pdx va) (ptx va))) (b : BitVec 8) :
    Triple (vstore8 (q * pgsize) va b) s
      (fun _ s' => MemOk P dirs pend held l s' ∧ SameTables dirs s.mem s'.mem) (fun _ _ => False) := by
  have ht := h.translate_own hq (own_pdx hva) hp
  have hlim : ¬ ulim ≤ va := by
    rw [BitVec.lt_def, utop_toNat] at hva
    rw [BitVec.le_def, ulim_toNat]
    omega
  have hflag : pteOf dirs s.mem i (pdx va) (ptx va) &&& 0xFFF#32 &&& pteW = pteW := by
    unfold Sub at hw
    rw [BitVec.and_assoc, show (0xFFF#32 : Word) &&& pteW = pteW from rfl, BitVec.and_comm, hw]
  unfold vstore8
  rw [if_neg hlim]
  refine .get_bind ?_
  rw [ht]
  dsimp only
  rw [if_pos hflag]
  exact .modify (h.storeMapped (own_pdx hva) (ptx_lt va) hp (physical_page p va) b)

theorem page_offset {va : Word} (ha : va.toNat % 4096 = 0) (hk : k < 4096) :
    (va + BitVec.ofNat 32 k).toNat = va.toNat + k ∧ pdx (va + BitVec.ofNat 32 k) = pdx va ∧
      ptx (va + BitVec.ofNat 32 k) = ptx va := by
  have hadd : (va + BitVec.ofNat 32 k).toNat = va.toNat + k := by
    bv_omega
  refine ⟨hadd, ?_, ?_⟩
  · rw [pdx_eq, pdx_eq, hadd]
    omega
  · rw [ptx_eq, ptx_eq, hadd]
    omega

omit [DecidableEq ι] in
theorem vstoreBytes_progress (h : MemOk P dirs pend held l s) (hq : dirs i = some q) (ha : va.toNat % 4096 = 0)
    (hva : va < utop) (hp : entryPage (pteOf dirs s.mem i (pdx va) (ptx va)) = some p)
    (hw : Sub pteW (pteOf dirs s.mem i (pdx va) (ptx va))) (hn : n ≤ 4096) (b : Nat → BitVec 8) :
    Triple (vstoreBytes (q * pgsize) va n b) s
      (fun _ s' => MemOk P dirs pend held l s' ∧ SameTables dirs s.mem s'.mem) (fun _ _ => False) := by
  refine .forM_range (I := fun _ s' => MemOk P dirs pend held l s' ∧ SameTables dirs s.mem s'.mem)
    ⟨h, .refl _⟩ fun k t hk ⟨hok, hsame⟩ => ?_
  obtain ⟨hnat, hd, ht⟩ := page_offset ha (show k < 4096 by omega)
  have hpte : pteOf dirs t.mem i (pdx va) (ptx va) = pteOf dirs s.mem i (pdx va) (ptx va) :=
    hsame.pte (own_pdx hva) (ptx_lt va)
  have hlt : va + BitVec.ofNat 32 k < utop := by
    rw [BitVec.lt_def, utop_toNat] at hva ⊢
    omega
  refine (vstore8_progress hok hq hlt (p := p) ?_ ?_ (b k)).imp (fun _ u hu => ⟨hu.1, hsame.trans hu.2⟩)
  · rw [hd, ht, hpte]
    exact hp
  · rw [hd, ht, hpte]
    exact hw

theorem Filled.entry (h : Filled P dirs i va perm n s s' p) (hva : va < utop) (hperm : IsPerm perm) :
    entryPage (pteOf dirs s'.mem i (pdx va) (ptx va)) = some p ∧
      Sub perm (pteOf dirs s'.mem i (pdx va) (ptx va)) := by
  rw [h.pte i _ _ (own_pdx hva) (ptx_lt va), if_pos ⟨rfl, rfl, rfl⟩]
  refine ⟨?_, ((sub_refl perm).or_right (page2pa p)).trans ?_⟩
  · rw [BitVec.or_assoc, BitVec.or_comm perm, ← BitVec.or_assoc]
    exact entryPage_or hperm (entryPage_page2pa h.lt)
  · rw [BitVec.or_comm perm]
    exact (sub_refl _).or_right pteP

theorem Filled.same (h : Filled P dirs i va perm n s s' p) (hsame : SameTables dirs s'.mem t.mem)
    (hok : Steady P dirs t) (hs : t.Spare n) : Filled P dirs i va perm n s t p where
  steady := hok
  spare := hs
  pde j d hd hne := (hsame.pde hd).trans (h.pde j d hd hne)
  pte j d t ho hk := (hsame.pte ho hk).trans (h.pte j d t ho hk)
  lt := h.lt

theorem loadSegment_progress (h : Steady P dirs s) (hq : dirs i = some q) (ha : ph.va.toNat % 4096 = 0)
    (hva : ph.va < utop) (ht : ph.type = elfProgLoad) (hm : ph.memsz = 4096) (hsz : ph.filesz ≤ ph.memsz)
    (hs : s.Spare (n + 2)) :
    ∃ s' p, exec (loadSegment (q * pgsize) ph) s = (.ok (), s') ∧
      Filled P dirs i ph.va (pteW ||| pteU) n s s' p := by
  obtain ⟨s1, p, hexec, hfill⟩ := regionAlloc_progress h hq ha hva hs
  obtain ⟨hp, hsub⟩ := hfill.entry hva userPerm_WU.isPerm
  have hw : Sub pteW (pteOf dirs s1.mem i (pdx ph.va) (ptx ph.va)) := ((sub_refl pteW).or_right pteU).trans hsub
  obtain ⟨l, hok⟩ := hfill.steady.ok
  have hlen : n ≤ l.length := by
    obtain ⟨l', hl', hn⟩ := hfill.spare
    rwa [hl'.unique hok.counted.chain] at hn
  have hmem : ph.memsz.toNat = 4096 := by
    rw [hm]
    rfl
  rw [BitVec.le_def] at hsz
  obtain ⟨_, s2, hzero, hok2, hsame2⟩ :=
    (vstoreBytes_progress hok hq ha hva hp hw (Nat.le_of_eq hmem) fun _ => 0#8).returns
  have hpte2 : pteOf dirs s2.mem i (pdx ph.va) (ptx ph.va) = pteOf dirs s1.mem i (pdx ph.va) (ptx ph.va) :=
    hsame2.pte (own_pdx hva) (ptx_lt _)
  obtain ⟨_, s3, hcopy, hok3, hsame3⟩ := (vstoreBytes_progress hok2 hq ha hva (p := p) (hpte2 ▸ hp) (hpte2 ▸ hw)
    (n := ph.filesz.toNat) (by omega) ph.data).returns
  have hsame := hsame2.trans hsame3
  refine ⟨s3, p, ?_, hfill.same hsame ⟨⟨l, hok3⟩, hsame.bounded hfill.steady.bounded⟩ ⟨l, hok3.counted.chain, hlen⟩⟩
  rw [loadSegment, if_pos ht, if_pos (BitVec.le_def.mpr hsz), hm, exec_bind_ok hexec]
  rw [hm] at hzero
  rw [exec_bind_ok hzero]
  exact hcopy

/-! ## The memory system calls -/

theorem pageAllocAt_progress (h : Steady P dirs s) (hq : dirs i = some q) (hva : va < utop) (hperm : UserPerm perm)
    (hs : s.Spare (n + 2)) :
    ∃ p s', exec (pageAllocAt (q * pgsize) va perm) s = (.ok 0, s') ∧ Filled P dirs i va perm n s s' p ∧
      refs dirs s'.mem p = 1 := by
  obtain ⟨l, hok⟩ := h.ok
  obtain ⟨p, hf, hun⟩ := hs.unlink
  obtain ⟨hpool, hfresh, _, _⟩ := hok.head_unused hf
  obtain ⟨l', rfl, htake, hsame⟩ := hok.take_same hf
  have h0 : refs dirs (s.take p).mem p = 0 := (hsame.refs_eq p).trans (count_eq_zero.mpr hfresh)
  have hspare : (s.take p).Spare (n + 1) := hun
  obtain ⟨r, s', hexec, hr⟩ := (insertFresh_ok htake (hsame.bounded h.bounded) h0 hq hva hperm).returns
  obtain ⟨rfl, hst, hins⟩ | ⟨-, -, hnone⟩ := hr
  · refine ⟨p, s', ?_, ⟨hst, hins.spare hspare, fun j d hd hne => (hins.pde j d hd hne).trans (hsame.pde hd),
      fun j d t ho hk => ?_, Nat.lt_of_lt_of_le (hok.pool_lt hpool) s.layout.npages_le⟩, hins.refs_fresh hva h0⟩
    · unfold pageAllocAt
      rw [exec_bind_ok (exec_pageAlloc_true hf (hok.pool_lt hpool))]
      dsimp only
      rw [exec_bind_ok hexec, if_pos rfl]
      rfl
    · rw [hins.pte j d t ho hk, hsame.pte ho hk]
  · exact absurd hnone hspare.head_ne

theorem pageMapAt_progress (h : MemOk P dirs [] ∅ l s) (hq : dirs i = some q) (hq' : dirs j = some q')
    (hva : srcva < utop) (hva' : dstva < utop) (hperm : UserPerm perm)
    (hp : entryPage (pteOf dirs s.mem i (pdx srcva) (ptx srcva)) = some p)
    (hw : pteOf dirs s.mem i (pdx srcva) (ptx srcva) &&& pteW ≠ 0)
    (hb : entryPage (pteOf dirs s.mem j (pdx dstva) (ptx dstva)) ≠ none → Bounded dirs s.mem)
    (hs : tableOf dirs s.mem j (pdx dstva) = none → s.Spare 1) :
    ∃ s', exec (pageMapAt (q * pgsize) srcva (q' * pgsize) dstva perm) s = (.ok 0, s') ∧
      Inserted P dirs ∅ j dstva p perm s s' := by
  have ho := own_pdx hva
  obtain ⟨s', hexec, hins⟩ := pageInsert_progress h hq' hva' hb (.inr ⟨i, _, _, ho, ptx_lt srcva, hp⟩) hperm hs
  refine ⟨s', ?_, hins⟩
  have hlook := pageLookup_ok h hq hva
  obtain ⟨pt, ht⟩ := exists_table hp
  rw [hp, ht] at hlook
  have hne : pt * pgsize + 4 * ptx srcva ≠ 0 := by
    have := P.pool_pos (h.table_pool ho ht)
    unfold pgsize
    omega
  have hmap : exec (do return if (← pageInsert (q' * pgsize) p dstva perm) < 0 then -eNoMem else 0 : PmapM Int) s =
      (.ok 0, s') := exec_bind_ok hexec
  unfold pageMapAt
  rw [exec_bind_ok (exec_get s), exec_bind_ok hlook]
  dsimp only
  by_cases hpw : perm &&& pteW ≠ 0
  · rw [if_pos hpw, if_neg hne, exec_bind_ok (exec_load _), pte_read ht, if_neg hw]
    exact hmap
  · rw [if_neg hpw]
    exact hmap

theorem envSetupVm_progress (h : Steady P dirs s) (hi : dirs i = none) (hs : s.Spare (n + 1)) :
    ∃ q s', exec envSetupVm s = (.ok (some (q * pgsize)), s') ∧ NewSpace P dirs i q s s' ∧ s'.Spare n := by
  obtain ⟨l, hok⟩ := h.ok
  obtain ⟨l1, hl1, hn⟩ := hs
  obtain rfl := hl1.unique hok.counted.chain
  obtain ⟨r, s', hexec, hr⟩ := (envSetupVm_ok h hi).returns
  obtain ⟨rfl, -⟩ | ⟨q, rfl, hnew⟩ := hr
  · obtain ⟨p, hf, -⟩ := Pmap.Spare.unlink ⟨l1, hl1, hn⟩
    obtain ⟨hpool, -, -, -⟩ := hok.head_unused hf
    have hpk : P.kq ≠ p := by
      rintro rfl
      exact P.kq_kept hpool
    rw [exec_envSetupVm hf (hok.pool_lt hpool) (Nat.pos_iff_ne_zero.mp (P.pool_pos hpool))
      (by rw [hok.layout_eq, P.kernPgdir_eq]) hpk] at hexec
    simp at hexec
  · obtain ⟨l', rfl, hok'⟩ := hnew.length l1 hok
    exact ⟨q, s', hexec, hnew, l', hok'.counted.chain, by simpa using hn⟩

/-- An address space with just a page of text and a page of stack. -/
structure Loaded (P : Platform) (dirs : ι → Option Nat) (i : ι) (s : Pmap) (text stack : Nat) : Prop where
  steady : Steady P dirs s
  pde : Own d → d ≠ 2 → d ≠ 954 → pdeOf dirs s.mem i d = 0#32
  pte : Own d → t < 1024 → pteOf dirs s.mem i d t =
    if d = 2 ∧ t = 0 then page2pa text ||| (pteW ||| pteU) ||| pteP
    else if d = 954 ∧ t = 1021 then page2pa stack ||| (pteW ||| pteU) ||| pteP else 0#32
  text_lt : text < 65536
  stack_lt : stack < 65536

end

/-! ## Creating an environment -/

def textSegment (text : Nat → BitVec 8) : Proghdr where
  type := elfProgLoad
  va := 0x800000#32
  filesz := 4096
  memsz := 4096
  data := text

def program (text : Nat → BitVec 8) : Elf where
  magic := elfMagic
  entry := 0x800000#32
  ph := [textSegment text]

section
variable {P : Platform} {k : Kernel}

theorem exec_envAlloc (hf : k.envFreeList = some e) (hvm : exec envSetupVm k.pmap = (.ok (some pgdir), s))
    (parentId : Word) : exec (envAlloc parentId) k = (.ok (.inr e), k.allocated e s pgdir parentId) := by
  unfold envAlloc
  rw [exec_bind_ok (exec_get k)]
  simp only [hf]
  rw [exec_bind_ok (exec_liftPmap_ok hvm)]
  simp [exec_bind, exec_map, Kernel.allocated, newEnv, Kernel.withPmap]

theorem exec_forM_liftPmap {f : α → PmapM Unit} {l : List α} (h : exec (l.forM f) k.pmap = (.ok ⟨⟩, s)) :
    exec (l.forM fun a => liftPmap (f a)) k = (.ok ⟨⟩, k.withPmap s) := by
  induction l generalizing k with
  | nil =>
    obtain ⟨-, rfl⟩ := Prod.mk.inj h
    rfl
  | cons a l ih =>
    obtain ⟨_, t, ha, hl⟩ := exec_bind_eq_ok.mp h
    exact (exec_bind_ok (exec_liftPmap_ok ha)).trans (ih (k := k.withPmap t) hl)

theorem exec_loadIcode (hm : binary.magic = elfMagic)
    (hseg : exec (binary.ph.forM fun ph => loadSegment (k.envs e).pgdir ph) k.pmap = (.ok ⟨⟩, s1))
    (hstack : exec (regionAlloc (k.envs e).pgdir (ustacktop - 4096) 4096) s1 = (.ok (), s2)) :
    exec (loadIcode e binary) k = (.ok (), (k.withPmap s2).setEnv e
      { k.envs e with tf := { (k.envs e).tf with eip := binary.entry } }) := by
  unfold loadIcode
  rw [if_neg (not_not.mpr hm), exec_bind_ok (exec_get k)]
  dsimp only
  rw [exec_bind_ok (exec_forM_liftPmap hseg), exec_bind_ok (exec_modifyEnv ..)]
  exact exec_liftPmap_ok hstack

theorem envCreate_progress (h : KernelOk P k) (hb : k.Bounded) (hf : k.envFreeList = some e)
    (hs : k.pmap.Spare (n + 5)) (text : Nat → BitVec 8) (type : EnvType) :
    ∃ s q a b, exec (envCreate (program text) type) k =
        (.ok (), k.created e s (q * pgsize) 0x800000#32 type) ∧
      s.Spare n ∧ Loaded P (Function.update k.dirs e (some q)) e s a b := by
  obtain ⟨q, s1, hvm, hnew, hs1⟩ := envSetupVm_progress (h.steady hb) (dirs_free (h.slots.head_free hf)) hs
  have hq : Function.update k.dirs e (some q) e = some q := Function.update_self ..
  have htext : (textSegment text).va.toNat % 4096 = 0 ∧ (textSegment text).va < utop :=
    show (0x800000#32).toNat % 4096 = 0 ∧ 0x800000#32 < utop by decide
  have hustack : (ustacktop - 4096).toNat % 4096 = 0 ∧ ustacktop - 4096 < utop := by decide
  obtain ⟨s2, a, hseg, hfill⟩ := loadSegment_progress hnew.steady hq htext.1 htext.2 rfl rfl (Nat.le_refl _) hs1
  obtain ⟨s3, b, hstack, hfill'⟩ := regionAlloc_progress hfill.steady hq hustack.1 hustack.2 hfill.spare
  have hd : pdx (textSegment text).va = 2 ∧ ptx (textSegment text).va = 0 :=
    show pdx 0x800000#32 = 2 ∧ ptx 0x800000#32 = 0 by decide
  have hd' : pdx (ustacktop - 4096) = 954 ∧ ptx (ustacktop - 4096) = 1021 := by decide
  refine ⟨s3, q, a, b, ?_, hfill'.spare, hfill'.steady, ?_, ?_, hfill.lt, hfill'.lt⟩
  · have hpgdir : ((k.allocated e s1 (q * pgsize) 0).envs e).pgdir = q * pgsize := by
      simp [Kernel.allocated, newEnv]
    have hload : exec (loadIcode e (program text)) (k.allocated e s1 (q * pgsize) 0) =
        (.ok (), k.created e s3 (q * pgsize) 0x800000#32 .user) := by
      have hsegs : exec ((program text).ph.forM fun ph =>
          loadSegment ((k.allocated e s1 (q * pgsize) 0).envs e).pgdir ph) s1 = (.ok ⟨⟩, s2) := by
        rw [hpgdir]
        exact (exec_bind_ok hseg).trans rfl
      rw [exec_loadIcode rfl hsegs (by rw [hpgdir]; exact hstack)]
      simp [Kernel.created, Kernel.allocated, Kernel.withPmap, Kernel.setEnv, newEnv, createdTf, initialTf, program]
    unfold envCreate
    rw [exec_bind_ok (exec_envAlloc hf hvm 0)]
    dsimp only
    rw [exec_bind_ok hload, exec_bind_ok (exec_modifyEnv ..)]
    split
    · rename_i ht
      simp [Kernel.created, Kernel.withPmap, Kernel.setEnv, createdTf, ht]
    · rename_i ht
      simp [Kernel.created, Kernel.withPmap, Kernel.setEnv, createdTf, ht]
  · intro d ho h2 h954
    rw [hfill'.pde e d ho.lt (by rw [hd'.1]; simp [h954]), hfill.pde e d ho.lt (by rw [hd.1]; simp [h2])]
    exact hnew.empty ho
  · intro d t ho ht
    have h0 : pteOf (Function.update k.dirs e (some q)) s1.mem e d t = 0#32 := by
      refine pteOf_none ?_
      rw [tableOf, hnew.empty ho, entryPage_zero]
    rw [hfill'.pte e d t ho ht, hfill.pte e d t ho ht, h0, hd.1, hd.2, hd'.1, hd'.2]
    simp only [true_and]
    by_cases hx : d = 954 ∧ t = 1021
    · rw [if_pos hx, if_neg (by omega), if_pos hx]
    · rw [if_neg hx, if_neg hx]

end

end Jos
