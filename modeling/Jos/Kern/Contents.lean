import Jos.Kern.AddressSpace

/-!
# What address spaces hold

The bytes an environment finds below `UTOP`, and what mapping a page, unmapping
one and storing a byte do to them. A page that is mapped only once (`Sole`) can
be stored to without a trace anywhere else.
-/

namespace Jos

open Lib

section
variable {ι : Type} {dirs : ι → Option Nat} {m m' : Mem}

def Holds (dirs : ι → Option Nat) (m : Mem) (i : ι) (va : Word) (b : BitVec 8) : Prop :=
  ∃ p, entryPage (pteOf dirs m i (pdx va) (ptx va)) = some p ∧ m (physical p va) = b

/-- Outside the addresses `A` of space `i` all spaces hold what they held. -/
def HoldsOutside (dirs : ι → Option Nat) (i : ι) (A : Word → Prop) (m m' : Mem) : Prop :=
  ∀ j va b, va < utop → ¬ (j = i ∧ A va) → Holds dirs m j va b → Holds dirs m' j va b

def OnPage (va a : Word) : Prop := a.toNat / 4096 = va.toNat / 4096

theorem HoldsOutside.refl (i : ι) (A : Word → Prop) (m : Mem) : HoldsOutside dirs i A m m := fun _ _ _ _ _ h => h

theorem HoldsOutside.mono {A B : Word → Prop} (h : HoldsOutside dirs i A m m') (hAB : ∀ a, A a → B a) :
    HoldsOutside dirs i B m m' :=
  fun j va b hva hB => h j va b hva fun hA => hB ⟨hA.1, hAB va hA.2⟩

theorem HoldsOutside.trans {A : Word → Prop} (h : HoldsOutside dirs i A m m') (h' : HoldsOutside dirs i A m' m'') :
    HoldsOutside dirs i A m m'' :=
  fun j va b hva hA hb => h' j va b hva hA (h j va b hva hA hb)

theorem onPage_iff {va a : Word} : OnPage va a ↔ pdx a = pdx va ∧ ptx a = ptx va := by
  unfold OnPage
  rw [pdx_eq, pdx_eq, ptx_eq, ptx_eq]
  omega

theorem OnPage.entry {va a : Word} (h : OnPage va a) (dirs : ι → Option Nat) (m : Mem) (i : ι) :
    pteOf dirs m i (pdx a) (ptx a) = pteOf dirs m i (pdx va) (ptx va) := by
  obtain ⟨hd, ht⟩ := onPage_iff.mp h
  rw [hd, ht]

theorem physical_inj (h : physical p va = physical p' va') : p = p' ∧ va.toNat % 4096 = va'.toNat % 4096 := by
  unfold physical pgsize at h
  rw [pgoff_eq, pgoff_eq] at h
  omega

end

section
variable {ι : Type} [Fintype ι] {P : Platform} {dirs : ι → Option Nat} {s s' : Pmap}

/-- The page of `va` in `i` has no other reference. -/
def Sole (dirs : ι → Option Nat) (m : Mem) (i : ι) (va : Word) : Prop :=
  ∃ p, entryPage (pteOf dirs m i (pdx va) (ptx va)) = some p ∧ refs dirs m p = 1

theorem Sole.same (h : Sole dirs m i va) (hs : SameTables dirs m m') (hva : va < utop) : Sole dirs m' i va := by
  obtain ⟨p, hp, hr⟩ := h
  exact ⟨p, by rw [hs.pte (own_pdx hva) (ptx_lt va)]; exact hp, by rw [hs.refs_eq]; exact hr⟩

theorem Sole.onPage (h : Sole dirs m i va) (ha : OnPage va a) : Sole dirs m i a := by
  unfold Sole
  rw [ha.entry]
  exact h

/-! ## Storing a byte -/

/-- Only one address leads to a byte of a page that is mapped once. -/
theorem refs_one_address [DecidableEq ι] (h : refs dirs m p = 1) (hva : va < utop) (hva' : va' < utop)
    (hp : entryPage (pteOf dirs m i (pdx va) (ptx va)) = some p)
    (hp' : entryPage (pteOf dirs m j (pdx va') (ptx va')) = some p)
    (hoff : va'.toNat % 4096 = va.toNat % 4096) : j = i ∧ va' = va := by
  have hone : count (target dirs m : Ref ι Own → Option Nat) p ≤ 1 := Nat.le_of_eq h
  have hi : target dirs m (.pte i ⟨⟨pdx va, pdx_lt va⟩, own_pdx hva⟩ ⟨ptx va, ptx_lt va⟩ : Ref ι Own) = some p := hp
  have hj : target dirs m (.pte j ⟨⟨pdx va', pdx_lt va'⟩, own_pdx hva'⟩ ⟨ptx va', ptx_lt va'⟩ : Ref ι Own) = some p :=
    hp'
  have heq := unique_of_count_le_one hone hj hi
  simp only [Ref.pte, Sum.inr.injEq, Prod.mk.injEq, Subtype.mk.injEq, Fin.mk.injEq] at heq
  obtain ⟨hji, hd, ht⟩ := heq
  rw [pdx_eq, pdx_eq] at hd
  rw [ptx_eq, ptx_eq] at ht
  exact ⟨hji, BitVec.eq_of_toNat_eq (by omega)⟩

theorem MemOk.store_holds [DecidableEq ι] (h : MemOk P dirs pend held l s) (hva : va < utop)
    (hp : entryPage (pteOf dirs s.mem i (pdx va) (ptx va)) = some p) (hr : refs dirs s.mem p = 1) (b : BitVec 8) :
    let m' := Function.update s.mem (physical p va) b
    MemOk P dirs pend held l { s with mem := m' } ∧ SameTables dirs s.mem m' ∧ Holds dirs m' i va b ∧
      HoldsOutside dirs i (· = va) s.mem m' := by
  intro m'
  obtain ⟨hok, hsame⟩ := h.storeMapped (own_pdx hva) (ptx_lt va) hp (physical_page p va) b
  refine ⟨hok, hsame, ⟨p, ?_, Function.update_self ..⟩, ?_⟩
  · rw [hsame.pte (own_pdx hva) (ptx_lt va)]
    exact hp
  · rintro j va' c hva' hne ⟨p', hp', hc⟩
    refine ⟨p', by rw [hsame.pte (own_pdx hva') (ptx_lt va')]; exact hp', ?_⟩
    have hphys : physical p' va' ≠ physical p va := fun heq => by
      obtain ⟨rfl, hoff⟩ := physical_inj heq
      exact hne (refs_one_address hr hva hva' hp hp' hoff)
    rw [← hc]
    exact Function.update_of_ne hphys _ _

variable [DecidableEq ι]

theorem vstore8_holds (h : MemOk P dirs pend held l s) (hq : dirs i = some q) (hva : va < utop)
    (hs : Sole dirs s.mem i va) (b : BitVec 8) :
    Triple (vstore8 (q * pgsize) va b) s
      (fun _ s' => MemOk P dirs pend held l s' ∧ SameTables dirs s.mem s'.mem ∧ Holds dirs s'.mem i va b ∧
        HoldsOutside dirs i (· = va) s.mem s'.mem) (fun _ _ => True) := by
  obtain ⟨p, hp, hr⟩ := hs
  have ht := h.translate_own hq (own_pdx hva) hp
  unfold vstore8
  split
  · exact .throw trivial
  · refine .get_bind ?_
    rw [ht]
    dsimp only
    split
    · exact .modify (h.store_holds hva hp hr b)
    · exact .throw trivial

def Bytes (va : Word) (n : Nat) (a : Word) : Prop := va.toNat ≤ a.toNat ∧ a.toNat < va.toNat + n

theorem bytes_iff {va a : Word} (h : va.toNat + n ≤ 4294967296) :
    Bytes va n a ↔ ∃ k, k < n ∧ a = va + BitVec.ofNat 32 k := by
  constructor
  · rintro ⟨hle, hlt⟩
    refine ⟨a.toNat - va.toNat, by omega, BitVec.eq_of_toNat_eq ?_⟩
    bv_omega
  · rintro ⟨k, hk, rfl⟩
    unfold Bytes
    bv_omega

/-- What storing bytes one after another has done so far. -/
structure Copied (P : Platform) (dirs : ι → Option Nat) (i : ι) (va : Word) (n : Nat) (b : Nat → BitVec 8)
    (m : Mem) (s' : Pmap) : Prop where
  steady : Steady P dirs s'
  tables : SameTables dirs m s'.mem
  holds : k < n → Holds dirs s'.mem i (va + BitVec.ofNat 32 k) (b k)
  outside : HoldsOutside dirs i (Bytes va n) m s'.mem

omit [DecidableEq ι] in
theorem Copied.zero (h : Steady P dirs s) : Copied P dirs i va 0 b s.mem s :=
  ⟨h, .refl _, fun hk => absurd hk (Nat.not_lt_zero _), .refl i _ _⟩

omit [DecidableEq ι] in
theorem Copied.succ (h : Copied P dirs i va n b m t) (hend : va.toNat + n < utop.toNat)
    (hst : Steady P dirs u) (hsame : SameTables dirs t.mem u.mem)
    (hb : Holds dirs u.mem i (va + BitVec.ofNat 32 n) (b n))
    (hout : HoldsOutside dirs i (· = va + BitVec.ofNat 32 n) t.mem u.mem) : Copied P dirs i va (n + 1) b m u where
  steady := hst
  tables := h.tables.trans hsame
  holds {k} hk := by
    rw [utop_toNat] at hend
    rcases Nat.lt_succ_iff_lt_or_eq.mp hk with hlt | rfl
    · have hne : (va + BitVec.ofNat 32 k).toNat ≠ (va + BitVec.ofNat 32 n).toNat := by
        bv_omega
      refine hout i _ _ ?_ (fun heq => hne (congrArg BitVec.toNat heq.2)) (h.holds hlt)
      rw [BitVec.lt_def, utop_toNat, BitVec.toNat_add, BitVec.toNat_ofNat]
      omega
    · exact hb
  outside := by
    rw [utop_toNat] at hend
    refine (h.outside.mono fun a ha => ⟨ha.1, by have := ha.2; omega⟩).trans (hout.mono ?_)
    rintro a rfl
    exact (bytes_iff (by omega)).mpr ⟨n, Nat.lt_succ_self n, rfl⟩

theorem vstoreBytes_copies (h : Steady P dirs s) (hq : dirs i = some q) (hend : va.toNat + n ≤ utop.toNat)
    (hs : ∀ a, Bytes va n a → Sole dirs s.mem i a) (b : Nat → BitVec 8) :
    Triple (vstoreBytes (q * pgsize) va n b) s (fun _ s' => Copied P dirs i va n b s.mem s') (fun _ _ => True) := by
  refine .forM_range (I := fun k s' => Copied P dirs i va k b s.mem s') (.zero h) fun k t hk hc => ?_
  obtain ⟨l, hok⟩ := hc.steady.ok
  have hlt : va + BitVec.ofNat 32 k < utop := by
    bv_omega
  have hsole : Sole dirs s.mem i (va + BitVec.ofNat 32 k) := by
    rw [utop_toNat] at hend
    exact hs _ ((bytes_iff (by omega)).mpr ⟨k, hk, rfl⟩)
  refine (vstore8_holds hok hq hlt (hsole.same hc.tables hlt) (b k)).imp ?_
  rintro _ u ⟨hok', hsame, hb, hout⟩
  exact hc.succ (by omega) ⟨⟨l, hok'⟩, hsame.bounded hc.steady.bounded⟩ hsame hb hout

/-! ## Mapping and unmapping a page -/

omit [Fintype ι] [DecidableEq ι] in
theorem holdsOutside_of_entries (ht : Touches dirs i m m')
    (hpte : ∀ j d t, Own d → t < 1024 → ¬ (j = i ∧ d = pdx va ∧ t = ptx va) → pteOf dirs m' j d t = pteOf dirs m j d t) :
    HoldsOutside dirs i (OnPage va) m m' := by
  rintro j a b ha hne ⟨p, hp, hb⟩
  refine ⟨p, ?_, ?_⟩
  · rw [hpte j _ _ (own_pdx ha) (ptx_lt a) fun h => hne ⟨h.1, onPage_iff.mpr h.2⟩]
    exact hp
  · rw [ht.page (own_pdx ha) (ptx_lt a) (by rw [physical_page]; exact hp)]
    exact hb

omit [Fintype ι] in
theorem PteSet.outside (h : PteSet dirs m m' i (pdx va) (ptx va) w) (ht : Touches dirs i m m') :
    HoldsOutside dirs i (OnPage va) m m' :=
  holdsOutside_of_entries ht fun j d t ho hk hne => (h j d t ho hk).trans (if_neg hne)

omit [Fintype ι] in
theorem PteSet.entry (h : PteSet dirs m m' i (pdx va) (ptx va) (page2pa pp ||| perm ||| pteP)) (hva : va < utop)
    (hpp : pp < 65536) (hperm : UserPerm perm) : entryPage (pteOf dirs m' i (pdx va) (ptx va)) = some pp := by
  rw [h i _ _ (own_pdx hva) (ptx_lt va), if_pos ⟨rfl, rfl, rfl⟩]
  exact entryPage_pack hpp hperm.isPerm

theorem Inserted.sole_other (h : Inserted P dirs held i va pp perm s s') (h0 : refs dirs s.mem pp = 0)
    (ha : a < utop) (hne : ¬ (j = i ∧ OnPage va a)) (hs : Sole dirs s.mem j a) : Sole dirs s'.mem j a := by
  obtain ⟨p, hp, hr⟩ := hs
  have hpte : pteOf dirs s'.mem j (pdx a) (ptx a) = pteOf dirs s.mem j (pdx a) (ptx a) :=
    (h.pte j _ _ (own_pdx ha) (ptx_lt a)).trans (if_neg fun heq => hne ⟨heq.1, onPage_iff.mpr heq.2⟩)
  refine ⟨p, by rw [hpte]; exact hp, ?_⟩
  have hpp : p ≠ pp := by
    rintro rfl
    omega
  have hpos : 0 < refs dirs s'.mem p := refs_pos (own_pdx ha) (ptx_lt a) (by rw [hpte]; exact hp)
  have := h.refs_le p hpp
  omega

/-! ## `region_alloc` -/

/-- Fresh pages are behind the addresses `A` of `i`. -/
structure Region (P : Platform) (dirs : ι → Option Nat) (i : ι) (A : Word → Prop) (m : Mem) (s' : Pmap) : Prop where
  steady : Steady P dirs s'
  sole : a < utop → A a → Sole dirs s'.mem i a
  outside : HoldsOutside dirs i A m s'.mem
  sole_outside : a < utop → ¬ A a → Sole dirs m i a → Sole dirs s'.mem i a

omit [DecidableEq ι] in
theorem Region.empty {A : Word → Prop} (h : Steady P dirs s) (hA : ∀ a, ¬ A a) : Region P dirs i A s.mem s :=
  ⟨h, fun _ ha => absurd ha (hA _), .refl i _ _, fun _ _ hs => hs⟩

omit [DecidableEq ι] in
theorem Region.trans {A B C : Word → Prop} (h : Region P dirs i A m t) (h' : Region P dirs i B t.mem u)
    (hC : ∀ a, C a ↔ A a ∨ B a) (hAB : ∀ a, A a → ¬ B a) : Region P dirs i C m u where
  steady := h'.steady
  sole {a} ha hc := by
    rcases (hC a).mp hc with hA | hB
    · exact h'.sole_outside ha (hAB a hA) (h.sole ha hA)
    · exact h'.sole ha hB
  outside := (h.outside.mono fun a hA => (hC a).mpr (.inl hA)).trans (h'.outside.mono fun a hB => (hC a).mpr (.inr hB))
  sole_outside {a} ha hc hs := by
    rw [hC] at hc
    push Not at hc
    exact h'.sole_outside ha hc.2 (h.sole_outside ha hc.1 hs)

theorem Inserted.region (h : Inserted P dirs held i va p perm s s') (hst : Steady P dirs s') (hva : va < utop)
    (hperm : UserPerm perm) (hp : p < 65536) (h0 : refs dirs s.mem p = 0) : Region P dirs i (OnPage va) s.mem s' where
  steady := hst
  sole _ hA := Sole.onPage ⟨p, h.pte.entry hva hp hperm, h.refs_fresh hva h0⟩ hA
  outside := h.pte.outside h.touches
  sole_outside ha hA hs := h.sole_other h0 ha (fun hc => hA hc.2) hs

theorem regionAllocLoop_region (h : Steady P dirs s) (hq : dirs i = some q) (hf : fin ≤ utop)
    (hs : start.toNat % 4096 = 0) (hfin : fin.toNat % 4096 = 0) :
    Triple (regionAllocLoop (q * pgsize) fin hf start) s
      (fun _ s' => Region P dirs i (fun a => start ≤ a ∧ a < fin) s.mem s') (fun _ _ => True) := by
  refine (regionAllocLoop_rule (I := fun a t => a.toNat % 4096 = 0 ∧ start ≤ a ∧ (a = start ∨ a ≤ fin) ∧
    Region P dirs i (fun x => start ≤ x ∧ x < a) s.mem t) hq hf ?_ h ⟨hs, BitVec.le_refl _, .inl rfl, .empty h ?_⟩).imp ?_
  · rintro a t u p hlt ⟨ha, hle, -, hr⟩ h0 hp hst hins
    have hnext := regionAlloc_step hlt hf
    have hpage : Region P dirs i (OnPage a) t.mem u := hins.region hst (lt_utop_of_lt hlt hf) userPerm_WU hp h0
    simp only [BitVec.le_def, BitVec.lt_def] at hle hlt
    refine ⟨by omega, ?_, .inr ?_, hr.trans hpage (fun x => ?_) fun x hx => ?_⟩ <;>
      simp only [BitVec.le_def, BitVec.lt_def, hnext, OnPage] at * <;> omega
  · bv_omega
  · rintro _ t ⟨-, a, hge, -, -, hor, hr⟩
    have hA : (fun x => start ≤ x ∧ x < fin) = fun x => start ≤ x ∧ x < a := by
      funext x
      rcases hor with rfl | hle <;> simp only [BitVec.le_def, BitVec.lt_def, eq_iff_iff] at * <;> omega
    rw [hA]
    exact hr

def Pages (va : Word) (n : Nat) (a : Word) : Prop :=
  va.toNat / 4096 ≤ a.toNat / 4096 ∧ a.toNat / 4096 < (va.toNat + n + 4095) / 4096

theorem Bytes.pages {va a : Word} (h : Bytes va n a) : Pages va n a := by
  unfold Bytes at h
  unfold Pages
  omega

theorem rounddown_toNat (a : Word) : (rounddown a 4096).toNat = a.toNat / 4096 * 4096 := by
  have hm : (a % 4096).toNat = a.toNat % 4096 := BitVec.toNat_umod
  have := a.isLt
  rw [rounddown, BitVec.toNat_sub, hm]
  omega

theorem regionAlloc_region {va len : Word} (h : Steady P dirs s) (hq : dirs i = some q)
    (hend : va.toNat + len.toNat ≤ utop.toNat) :
    Triple (regionAlloc (q * pgsize) va len) s (fun _ s' => Region P dirs i (Pages va len.toNat) s.mem s')
      (fun _ _ => True) := by
  rw [utop_toNat] at hend
  have hsum : (va + len + 4096 - 1).toNat = va.toNat + len.toNat + 4095 := by
    bv_omega
  have hup : (roundup (va + len) 4096).toNat = (va.toNat + len.toNat + 4095) / 4096 * 4096 := by
    rw [roundup_toNat, hsum]
  have hdown := rounddown_toNat va
  unfold regionAlloc
  by_cases hf : roundup (va + len) 4096 ≤ utop
  · rw [dif_pos hf]
    refine (regionAllocLoop_region h hq hf (by omega) (by omega)).imp (fun _ t ht => ?_)
    have hA : (fun a => rounddown va 4096 ≤ a ∧ a < roundup (va + len) 4096) = Pages va len.toNat := by
      funext a
      rw [BitVec.le_def, BitVec.lt_def, hup, hdown, Pages, eq_iff_iff]
      omega
    rw [← hA]
    exact ht
  · rw [dif_neg hf]
    exact .throw trivial

/-! ## `load_icode` -/

/-- The byte a segment has at distance `j` from its start. -/
def Proghdr.byte (ph : Proghdr) (j : Nat) : BitVec 8 := if j < ph.filesz.toNat then ph.data j else 0#8

def Proghdr.Pages (ph : Proghdr) : Word → Prop := Jos.Pages ph.va ph.memsz.toNat

def Placed (dirs : ι → Option Nat) (m : Mem) (i : ι) (ph : Proghdr) : Prop :=
  ∀ j, j < ph.memsz.toNat → Holds dirs m i (ph.va + BitVec.ofNat 32 j) (ph.byte j)

omit [Fintype ι] [DecidableEq ι] in
theorem Placed.outside {A : Word → Prop} (h : Placed dirs m i ph) (hend : ph.va.toNat + ph.memsz.toNat ≤ utop.toNat)
    (ho : HoldsOutside dirs i A m m') (hA : ∀ a, ph.Pages a → ¬ A a) : Placed dirs m' i ph := by
  intro j hj
  rw [utop_toNat] at hend
  have hbytes : Bytes ph.va ph.memsz.toNat (ph.va + BitVec.ofNat 32 j) := (bytes_iff (by omega)).mpr ⟨j, hj, rfl⟩
  refine ho i _ _ ?_ (fun hc => hA _ hbytes.pages hc.2) (h j hj)
  rw [BitVec.lt_def, utop_toNat]
  have := hbytes.2
  omega

theorem loadSegment_places (h : Steady P dirs s) (hq : dirs i = some q) (ht : ph.type = elfProgLoad)
    (hend : ph.va.toNat + ph.memsz.toNat ≤ utop.toNat) :
    Triple (loadSegment (q * pgsize) ph) s
      (fun _ s' => Steady P dirs s' ∧ Placed dirs s'.mem i ph ∧ HoldsOutside dirs i ph.Pages s.mem s'.mem)
      (fun _ _ => True) := by
  unfold loadSegment
  rw [if_pos ht]
  by_cases hsz : ph.filesz ≤ ph.memsz
  · rw [if_pos hsz]
    rw [BitVec.le_def] at hsz
    have hlt : ∀ {n a}, n ≤ ph.memsz.toNat → Bytes ph.va n a → a < utop := fun hn ha => by
      rw [BitVec.lt_def]
      have := ha.2
      omega
    have hpages : ∀ {n a}, n ≤ ph.memsz.toNat → Bytes ph.va n a → ph.Pages a := fun hn ha =>
      Bytes.pages ⟨ha.1, by have := ha.2; omega⟩
    refine .bind (regionAlloc_region h hq hend) fun _ t hr => ?_
    refine .bind (vstoreBytes_copies hr.steady hq hend (fun a ha => ?_) _) fun _ u hz => ?_
    · exact hr.sole (hlt (Nat.le_refl _) ha) (hpages (Nat.le_refl _) ha)
    · refine (vstoreBytes_copies hz.steady hq (by omega) (fun a ha => ?_) _).imp (fun _ v hc => ?_)
      · exact (hr.sole (hlt hsz ha) (hpages hsz ha)).same hz.tables (hlt hsz ha)
      · refine ⟨hc.steady, fun j hj => ?_, ?_⟩
        · unfold Proghdr.byte
          split
          · exact hc.holds ‹_›
          · rw [utop_toNat] at hend
            have hbytes : Bytes ph.va ph.memsz.toNat (ph.va + BitVec.ofNat 32 j) :=
              (bytes_iff (by omega)).mpr ⟨j, hj, rfl⟩
            refine hc.outside i _ _ (hlt (Nat.le_refl _) hbytes) (fun hin => ?_) (hz.holds hj)
            have := hin.2.2
            bv_omega
        · exact (hr.outside.trans (hz.outside.mono fun a ha => hpages (Nat.le_refl _) ha)).trans
            (hc.outside.mono fun a ha => hpages hsz ha)
  · rw [if_neg hsz]
    exact .throw trivial

/-- Segments that lie below `UTOP` and share no page. -/
structure SegmentsOk (phs : List Proghdr) : Prop where
  below : ph ∈ phs → ph.type = elfProgLoad → ph.va.toNat + ph.memsz.toNat ≤ utop.toNat
  apart : phs.Pairwise fun ph ph' => ph.type = elfProgLoad → ph'.type = elfProgLoad → ∀ a, ph.Pages a → ¬ ph'.Pages a

theorem SegmentsOk.tail (h : SegmentsOk (ph :: phs)) : SegmentsOk phs :=
  ⟨fun hm => h.below (List.mem_cons_of_mem _ hm), (List.pairwise_cons.mp h.apart).2⟩

def InSegments (phs : List Proghdr) (a : Word) : Prop := ∃ ph ∈ phs, ph.type = elfProgLoad ∧ ph.Pages a

theorem loadSegments_places (hok : SegmentsOk phs) (h : Steady P dirs s) (hq : dirs i = some q) :
    Triple (phs.forM fun ph => loadSegment (q * pgsize) ph) s
      (fun _ s' => Steady P dirs s' ∧ (∀ ph ∈ phs, ph.type = elfProgLoad → Placed dirs s'.mem i ph) ∧
        HoldsOutside dirs i (InSegments phs) s.mem s'.mem) (fun _ _ => True) := by
  induction phs generalizing s with
  | nil => exact .pure ⟨h, fun _ hm => absurd hm List.not_mem_nil, .refl i _ _⟩
  | cons ph phs ih =>
    unfold List.forM
    by_cases ht : ph.type = elfProgLoad
    · refine .bind (loadSegment_places h hq ht (hok.below List.mem_cons_self ht)) ?_
      rintro _ t ⟨hst, hpl, hout⟩
      refine (ih hok.tail hst).imp ?_
      rintro _ u ⟨hsu, hrest, hout'⟩
      refine ⟨hsu, fun ph' hm ht' => ?_, ?_⟩
      · rcases List.mem_cons.mp hm with rfl | hm
        · refine hpl.outside (hok.below List.mem_cons_self ht') hout' ?_
          rintro a ha ⟨ph2, hm2, ht2, ha2⟩
          exact (List.pairwise_cons.mp hok.apart).1 ph2 hm2 ht' ht2 a ha ha2
        · exact hrest ph' hm ht'
      · refine (hout.mono fun a ha => ⟨ph, List.mem_cons_self, ht, ha⟩).trans (hout'.mono ?_)
        rintro a ⟨ph2, hm2, h2⟩
        exact ⟨ph2, List.mem_cons_of_mem _ hm2, h2⟩
    · have hskip : exec (loadSegment (q * pgsize) ph) s = (.ok (), s) := by
        rw [loadSegment, if_neg ht]
        rfl
      refine .ok_bind hskip ?_
      refine (ih hok.tail h).imp ?_
      rintro _ u ⟨hsu, hrest, hout'⟩
      refine ⟨hsu, fun ph' hm ht' => ?_, hout'.mono ?_⟩
      · rcases List.mem_cons.mp hm with rfl | hm
        · exact absurd ht' ht
        · exact hrest ph' hm ht'
      · rintro a ⟨ph2, hm2, h2⟩
        exact ⟨ph2, List.mem_cons_of_mem _ hm2, h2⟩

end

/-! ## Environments -/

def Kernel.userByte (k : Kernel) (e : EnvPtr) (va : Word) : Option (BitVec 8) :=
  match translate k.pmap.mem (k.envs e).pgdir va with
  | none => none
  | some (p, f) => if f &&& pteU = pteU then some (k.pmap.mem (physical p va)) else none

def Kernel.Holds (k : Kernel) (e : EnvPtr) : Word → BitVec 8 → Prop := Jos.Holds k.dirs k.pmap.mem e

section
variable {P : Platform} {k : Kernel}

theorem KernelOk.userByte (h : KernelOk P k) (hl : k.Live e) (hva : va < utop) (hb : k.Holds e va b) :
    k.userByte e va = some b := by
  obtain ⟨l, hok⟩ := h.mem
  obtain ⟨q, hq, hp⟩ := h.dir hl
  obtain ⟨p, hpte, hbyte⟩ := hb
  have ht := hok.translate_own hq (own_pdx hva) hpte
  have hpresent : pteOf k.dirs k.pmap.mem e (pdx va) (ptx va) &&& pteP = pteP := (entryPage_eq_some.mp hpte).1
  have huser := (hok.user (own_pdx hva) (ptx_lt va) hpresent).1
  rw [Kernel.userByte, hp, ht]
  dsimp only
  rw [if_pos huser, hbyte]

theorem KernelOk.create_places {binary : Elf} (h : KernelOk P k) (hb : k.Bounded) (hok : SegmentsOk binary.ph)
    (hstack : ∀ a, InSegments binary.ph a → ¬ Pages (ustacktop - 4096) 4096 a)
    (hexec : exec (envCreate binary type) k = (.ok (), k')) :
    ∃ e, k.envFreeList = some e ∧ k'.Live e ∧
      ∀ ph ∈ binary.ph, ph.type = elfProgLoad → Placed k'.dirs k'.pmap.mem e ph := by
  obtain ⟨e, s, pgdir, s1, s2, hf, hvm, hseg, hst, rfl⟩ := (envCreate_cases k binary type).ok hexec
  obtain ⟨q, rfl, hnew⟩ := h.setupVm hb hf hvm
  have hupd : Function.update k.dirs e (some q) e = some q := Function.update_self ..
  obtain ⟨h1, hplaced, -⟩ := (loadSegments_places hok hnew.steady hupd).ok hseg
  have hregion := (regionAlloc_region h1 hupd (by decide)).ok hst
  have hdirs : (k.created e s2 (q * pgsize) binary.entry type).dirs = Function.update k.dirs e (some q) :=
    dirs_setEnv (k := k.withPmap s2) (by simp [newEnv]) rfl
  refine ⟨e, hf, by simp [Kernel.Live, Kernel.created, newEnv], fun ph hm ht => ?_⟩
  rw [hdirs]
  exact (hplaced ph hm ht).outside (hok.below hm ht) hregion.outside fun a ha => hstack a ⟨ph, hm, ht, ha⟩

end

end Jos
