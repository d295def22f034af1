import Jos.Kern.PmapLaws
import Jos.Kern.Walk

/-!
# Accesses through linear addresses

Where the page tables let a store go. Below `ULIM` the kernel, and anywhere
user mode, can store only to pages mapped below `UTOP`, which are neither
directories nor tables, so such stores keep the invariant of memory.
-/

namespace Jos

open Lib

section
variable {ι : Type} {dirs : ι → Option Nat} {m : Mem}

theorem translate_eq_some (hq : dirs i = some q) :
    translate m (q * pgsize) va = some (p, flags) ↔
      ∃ pt, tableOf dirs m i (pdx va) = some pt ∧
        entryPage (pteOf dirs m i (pdx va) (ptx va)) = some p ∧
        flags = pdeOf dirs m i (pdx va) &&& pteOf dirs m i (pdx va) (ptx va) &&& 0xFFF#32 := by
  have hpde : m.read32 (q * pgsize + 4 * pdx va) = pdeOf dirs m i (pdx va) := (pdeOf_some hq).symm
  unfold translate
  rw [hpde]
  cases ht : tableOf dirs m i (pdx va) with
  | none =>
    unfold tableOf at ht
    simp [ht]
  | some pt =>
    have hpte : m.read32 (pt * pgsize + 4 * ptx va) = pteOf dirs m i (pdx va) (ptx va) :=
      (pteOf_some ht).symm
    unfold tableOf at ht
    simp only [ht, hpte]
    cases hp : entryPage (pteOf dirs m i (pdx va) (ptx va)) with
    | none => simp
    | some p' => simp [eq_comm]

/-- The directories and tables say the same in both memories. -/
structure SameTables (dirs : ι → Option Nat) (m m' : Mem) : Prop where
  pde : d < 1024 → pdeOf dirs m' i d = pdeOf dirs m i d
  pte : Own d → t < 1024 → pteOf dirs m' i d t = pteOf dirs m i d t

theorem SameTables.refl (m : Mem) : SameTables dirs m m := ⟨fun _ => rfl, fun _ _ => rfl⟩

theorem SameTables.trans (h : SameTables dirs m m') (h' : SameTables dirs m' m'') :
    SameTables dirs m m'' :=
  ⟨fun hd => (h'.pde hd).trans (h.pde hd), fun ho hk => (h'.pte ho hk).trans (h.pte ho hk)⟩

theorem SameTables.target_eq (h : SameTables dirs m m') :
    (target dirs m' : Ref ι Own → Option Nat) = target dirs m :=
  target_congr (fun _ => rfl) (fun _ _ _ hd => congrArg entryPage (h.pde hd))
    (fun _ _ _ ho _ hk => h.pte ho hk)

end

theorem pdx_ulim : pdx ulim = 958 := by decide

theorem pdx_uvpt : pdx uvpt = 957 := by decide

theorem pdx_upages : pdx upages = 956 := by decide

theorem pdx_uenvs : pdx uenvs = 955 := by decide

theorem pdx_lt_of_lt_ulim (h : va < ulim) : pdx va < 958 := by
  rw [BitVec.lt_def, ulim_toNat] at h
  rw [pdx_eq]
  omega

theorem and_and_mask (a b m : Word) : a &&& b &&& m = (a &&& m) &&& (b &&& m) := by
  apply BitVec.eq_of_getLsbD_eq
  intro i _
  simp only [BitVec.getLsbD_and]
  cases a.getLsbD i <;> cases b.getLsbD i <;> simp

theorem and_mask_zero {a b f : Word} (h : a &&& f = 0#32) : (a &&& b &&& 0xFFF#32) &&& f = 0#32 := by
  have hcomm : (a &&& b &&& 0xFFF#32) &&& f = a &&& f &&& (b &&& 0xFFF#32) := by
    apply BitVec.eq_of_getLsbD_eq
    intro i _
    simp only [BitVec.getLsbD_and]
    cases a.getLsbD i <;> cases f.getLsbD i <;> simp
  rw [hcomm, h, BitVec.zero_and]

/-- Below `ULIM` the shared part of a directory grants no writing. -/
theorem Platform.upper_readonly (P : Platform) (ho : ¬ Own d) (hd : d < 958) :
    P.upper q d &&& pteW = 0#32 := by
  have hwin : ∀ {w : Word}, w &&& 0xFFF#32 = pteU ||| pteP → w &&& pteW = 0#32 := by
    intro w hw
    have hsplit : w &&& pteW = w &&& 0xFFF#32 &&& pteW := by
      rw [BitVec.and_assoc]
      rfl
    rw [hsplit, hw]
    decide
  unfold Own pdxUtop at ho
  unfold Platform.upper
  rw [pdx_uvpt]
  split
  · refine hwin ?_
    rw [BitVec.or_assoc, and_or_mask, mask_page2pa, BitVec.zero_or]
    decide
  · have hd' : d = 955 ∨ d = 956 := by omega
    rcases hd' with rfl | rfl
    · exact hwin (pdx_uenvs ▸ P.uenvs.pde_flags)
    · exact hwin (pdx_upages ▸ P.upages.pde_flags)

section
variable {ι : Type} [Fintype ι] {P : Platform} {dirs : ι → Option Nat}
  {pend : List Nat} {held : Finset Nat} {l : List Nat} {s : Pmap}

/-- A store the hardware allows, to user mode or below `ULIM`, goes to a page
mapped below `UTOP`. -/
theorem MemOk.store_own (h : MemOk P dirs pend held l s) (hq : dirs i = some q)
    (ht : translate s.mem (q * pgsize) va = some (p, f)) (hw : f &&& pteW = pteW)
    (hu : va < ulim ∨ f &&& pteU = pteU) :
    Own (pdx va) ∧ entryPage (pteOf dirs s.mem i (pdx va) (ptx va)) = some p := by
  obtain ⟨pt, _, hp, rfl⟩ := (translate_eq_some hq).mp ht
  refine ⟨?_, hp⟩
  by_contra ho
  rw [h.shared hq ho (pdx_lt va)] at hw hu
  by_cases hd : pdx va < 958
  · rw [and_mask_zero (P.upper_readonly ho hd)] at hw
    exact absurd hw (by decide)
  · rcases hu with hu | hu
    · exact hd (pdx_lt_of_lt_ulim hu)
    · have hup : P.upper q (pdx va) = P.base.read32 (P.kq * pgsize + 4 * pdx va) := by
        unfold Platform.upper
        rw [if_neg (by rw [pdx_uvpt]; omega)]
      rw [hup, and_mask_zero (P.hidden (by rw [pdx_ulim]; omega) (pdx_lt va))] at hu
      exact absurd hu (by decide)

theorem physical_page (p : Nat) (va : Word) : physical p va / pgsize = p := by
  unfold physical pgsize
  rw [pgoff_eq]
  omega

theorem MemOk.storeMapped (h : MemOk P dirs pend held l s) (ho : Own d) (hk : t < 1024)
    (hp : entryPage (pteOf dirs s.mem i d t) = some p) (ha : a / pgsize = p) (b : BitVec 8) :
    MemOk P dirs pend held l { s with mem := Function.update s.mem a b } ∧
      SameTables dirs s.mem (Function.update s.mem a b) := by
  obtain ⟨hok, hpde, hpte⟩ := h.touch (Function.update s.mem a b) fun x hx => by
    have hxa : x = a := by
      by_contra hne
      exact hx (Function.update_of_ne hne _ _)
    rw [hxa, ha]
    exact ⟨h.page_pool ho hk hp, h.mapped_not_table ho hk hp⟩
  exact ⟨hok, fun hd => hpde _ _ hd, fun ho hk => hpte _ _ _ ho hk⟩

theorem SameTables.refs_eq (h : SameTables dirs m m') (p : Nat) : refs dirs m' p = refs dirs m p :=
  congrArg (count · p) h.target_eq

theorem SameTables.bounded (h : SameTables dirs m m') (hb : Bounded dirs m) : Bounded dirs m' := by
  intro p
  rw [h.refs_eq]
  exact hb p

theorem MemOk.take_same (h : MemOk P dirs pend held l s) (hf : s.pageFreeList = some p) :
    ∃ l', l = p :: l' ∧ MemOk P dirs pend (Insert.insert p held) l' (s.take p) ∧ SameTables dirs s.mem (s.take p).mem := by
  obtain ⟨l', hl, hok, hpde, hpte⟩ := h.take hf
  exact ⟨l', hl, hok, fun hd => hpde _ _ hd, fun ho hk => hpte _ _ _ ho hk⟩

/-! ## Kernel stores -/

section
variable {i : ι} (h : MemOk P dirs pend held l s) (hq : dirs i = some q)
include h hq

theorem vstore8_ok (va : Word) (b : BitVec 8) : Triple (vstore8 (q * pgsize) va b) s
      (fun _ s' => MemOk P dirs pend held l s' ∧ SameTables dirs s.mem s'.mem) (fun _ _ => True) := by
  unfold vstore8
  split
  · exact .throw trivial
  · rename_i hva
    refine .get_bind ?_
    split
    · exact .throw trivial
    · rename_i p f ht
      split
      · rename_i hw
        obtain ⟨ho, hp⟩ := h.store_own hq ht hw (.inl (BitVec.not_le.mp hva))
        exact .modify (h.storeMapped ho (ptx_lt va) hp (physical_page p va) b)
      · exact .throw trivial

theorem forM_vstore8_ok (va : Nat → Word) (b : Nat → BitVec 8) (ks : List Nat) :
    Triple (ks.forM fun k => vstore8 (q * pgsize) (va k) (b k)) s
      (fun _ s' => MemOk P dirs pend held l s' ∧ SameTables dirs s.mem s'.mem) (fun _ _ => True) := by
  refine .forM (I := fun _ s' => MemOk P dirs pend held l s' ∧ SameTables dirs s.mem s'.mem)
    ⟨h, .refl _⟩ fun k _ t ht => ?_
  exact (vstore8_ok ht.1 hq (va k) (b k)).imp (fun _ _ hu => ⟨hu.1, ht.2.trans hu.2⟩)

theorem vstoreBytes_ok (va : Word) (n : Nat) (b : Nat → BitVec 8) : Triple (vstoreBytes (q * pgsize) va n b) s
      (fun _ s' => MemOk P dirs pend held l s' ∧ SameTables dirs s.mem s'.mem) (fun _ _ => True) :=
  forM_vstore8_ok h hq ..

theorem vstore32_ok (va w : Word) : Triple (vstore32 (q * pgsize) va w) s
      (fun _ s' => MemOk P dirs pend held l s' ∧ SameTables dirs s.mem s'.mem) (fun _ _ => True) :=
  forM_vstore8_ok h hq ..

theorem MemOk.userStore (hw : userCanWrite s.mem (q * pgsize) va = true) :
    ∃ p f, translate s.mem (q * pgsize) va = some (p, f) ∧ Own (pdx va) ∧
      entryPage (pteOf dirs s.mem i (pdx va) (ptx va)) = some p := by
  unfold userCanWrite at hw
  split at hw
  · simp at hw
  · rename_i p f ht
    rw [beq_iff_eq] at hw
    have hboth : ∀ b, Sub b (pteU ||| pteW) → f &&& b = b := by
      intro b hb
      unfold Sub at hb
      rw [← hb, ← BitVec.and_assoc, BitVec.and_comm f b, BitVec.and_assoc, hw]
    exact ⟨p, f, ht, h.store_own hq ht (hboth _ (by decide)) (.inr (hboth _ (by decide)))⟩

end

end

end Jos
