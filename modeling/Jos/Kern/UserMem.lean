import Jos.Kern.FirstProgram

/-!
# Checking user pointers

What `user_mem_check` says about a range of addresses, and whether the
hardware agrees. The sum `va + len` and its rounding are 32-bit and wrap.
-/

namespace Jos

open Lib

def walkEntry (m : Mem) (pgdir : Nat) (va : Word) : Option Word :=
  (entryPage (m.read32 (pgdir + 4 * pdx va))).map fun pt => m.read32 (pt * pgsize + 4 * ptx va)

/-- Address `a` is below `ULIM` and has an entry with `perm | PTE_P`. -/
def Accessible (m : Mem) (pgdir : Nat) (perm : Word) (a : Nat) : Prop :=
  a < ulim.toNat ∧ ∃ w, walkEntry m pgdir (BitVec.ofNat 32 a) = some w ∧
    w &&& (perm ||| pteP) = perm ||| pteP

/-- The answer a check of the addresses from `lo` to `hi` should give: `0` if
all are accessible, and else the smallest one that is not. -/
def Answer (s : Pmap) (pgdir : Nat) (perm : Word) (lo hi : Nat) (r : Int) (s' : Pmap) : Prop :=
  (r = 0 ∧ s' = s ∧ ∀ a, lo ≤ a → a < hi → Accessible s.mem pgdir perm a) ∨
    (r = -eFault ∧ ∃ a, lo ≤ a ∧ a < hi ∧ ¬ Accessible s.mem pgdir perm a ∧
      (∀ b, lo ≤ b → b < a → Accessible s.mem pgdir perm b) ∧
      s' = { s with userMemCheckAddr := BitVec.ofNat 32 a })

/-- `user_mem_check` answers for the range as integers have it. -/
def ChecksRange (s : Pmap) (pgdir : Nat) (va len perm : Word) : Prop :=
  ∃ r s', exec (userMemCheck pgdir va len perm) s = (.ok r, s') ∧
    Answer s pgdir perm va.toNat (va.toNat + len.toNat) r s'

section
variable {s : Pmap} {pgdir : Nat} {perm : Word}

/-! ## The loop -/

theorem Accessible.page (h : Accessible m pgdir perm a) (hab : b / 4096 = a / 4096) :
    Accessible m pgdir perm b := by
  obtain ⟨hlt, w, hw, hp⟩ := h
  rw [ulim_toNat] at hlt
  refine ⟨by rw [ulim_toNat]; omega, w, ?_, hp⟩
  have hpd : pdx (BitVec.ofNat 32 b) = pdx (BitVec.ofNat 32 a) := by
    simp only [pdx_eq, BitVec.toNat_ofNat]
    omega
  have hpt : ptx (BitVec.ofNat 32 b) = ptx (BitVec.ofNat 32 a) := by
    simp only [ptx_eq, BitVec.toNat_ofNat]
    omega
  rw [← hw]
  unfold walkEntry
  rw [hpd, hpt]

theorem ofNat_toNat (w : Word) : BitVec.ofNat 32 w.toNat = w := by
  rw [BitVec.ofNat_toNat, BitVec.setWidth_eq]

theorem answer_here (hlt : lo.toNat < hi) (h : ¬ Accessible s.mem pgdir perm lo.toNat) :
    Answer s pgdir perm lo.toNat hi (-eFault) { s with userMemCheckAddr := lo } :=
  .inr ⟨rfl, lo.toNat, Nat.le_refl _, hlt, h, fun b h1 h2 => by omega, by rw [ofNat_toNat]⟩

theorem Answer.page (h : Answer s pgdir perm next hi r s') (hlo : Accessible s.mem pgdir perm lo)
    (hnext : next = lo / 4096 * 4096 + 4096) : Answer s pgdir perm lo hi r s' := by
  have hfirst : ∀ a, lo ≤ a → a < next → Accessible s.mem pgdir perm a := fun a h1 h2 =>
    hlo.page (by omega)
  rcases h with ⟨rfl, rfl, hall⟩ | ⟨rfl, a, h1, h2, hfail, hmin, rfl⟩
  · exact .inl ⟨rfl, rfl, fun a ha hb =>
      (Nat.lt_or_ge a next).elim (hfirst a ha) fun hn => hall a hn hb⟩
  · exact .inr ⟨rfl, a, by omega, h2, hfail, fun b hb hba =>
      (Nat.lt_or_ge b next).elim (hfirst b hb) fun hn => hmin b hn hba, rfl⟩

/-- A load the loop makes goes to memory the machine has. -/
def TablesIn (s : Pmap) (pgdir : Nat) (lo hi : Nat) : Prop :=
  ∀ a pt, lo ≤ a → a < hi → entryPage (s.mem.read32 (pgdir + 4 * pdx (BitVec.ofNat 32 a))) = some pt →
    pt < s.layout.npages

/-- The loop answers for the range it is given, or stops at a table that is not there. -/
theorem userMemCheckLoop_answer (s : Pmap) (pgdir : Nat) (memEnd perm memStart : Word) :
    Triple (userMemCheckLoop pgdir memEnd (perm ||| pteP) memStart) s
      (fun r s' => Answer s pgdir perm memStart.toNat memEnd.toNat r s')
      (fun _ _ => ¬ TablesIn s pgdir memStart.toNat memEnd.toNat) := by
  induction memStart using userMemCheckLoop.induct memEnd with
  | case1 memStart h hu =>
    rw [userMemCheckLoop, dif_pos h, dif_pos hu]
    exact .of_ok (a := -eFault) rfl (answer_here h fun hacc => absurd hacc.1 (Nat.not_lt.mpr hu))
  | case2 memStart h hu ih =>
    rw [userMemCheckLoop, dif_pos h, dif_neg hu]
    cases hp : entryPage (s.mem.read32 (pgdir + 4 * pdx memStart)) with
    | none =>
      have hwalk : exec (pgdirWalk pgdir memStart false) s = (.ok none, s) := by
        rw [exec_pgdirWalk_false, hp]
      refine .of_ok (a := -eFault) (exec_bind_ok hwalk) (answer_here h ?_)
      rintro ⟨-, w, hw, -⟩
      rw [ofNat_toNat, walkEntry, hp] at hw
      simp at hw
    | some pt =>
      by_cases hlt : pt < s.layout.npages
      · have hwalk : exec (pgdirWalk pgdir memStart false) s =
            (.ok (some (pt * pgsize + 4 * ptx memStart)), s) := by
          rw [exec_pgdirWalk_false, hp]
          exact if_pos hlt
        have hentry : walkEntry s.mem pgdir memStart = some (s.mem.read32 (pt * pgsize + 4 * ptx memStart)) := by
          rw [walkEntry, hp]
          rfl
        refine .bind (.of_ok hwalk (Q := fun a t => a = some (pt * pgsize + 4 * ptx memStart) ∧ t = s)
          ⟨rfl, rfl⟩) ?_
        rintro _ t ⟨rfl, rfl⟩
        refine .bind (.of_ok (exec_load _) (Q := fun a u => a = t.mem.read32 (pt * pgsize + 4 * ptx memStart) ∧
          u = t) ⟨rfl, rfl⟩) ?_
        rintro _ t ⟨rfl, rfl⟩
        split
        · rename_i hbad
          refine .of_ok (a := -eFault) rfl (answer_here h ?_)
          rintro ⟨-, w, hw, hok⟩
          rw [ofNat_toNat, hentry, Option.some.injEq] at hw
          exact hbad (hw ▸ hok)
        · rename_i hgood
          have hn := nextPage_toNat (BitVec.not_le.mp hu)
          have hacc : Accessible t.mem pgdir perm memStart.toNat :=
            ⟨BitVec.not_le.mp hu, _, by rw [ofNat_toNat]; exact hentry, not_not.mp hgood⟩
          refine ih.mono (fun _ _ hans => hans.page hacc hn) fun _ _ hbad ht => hbad ?_
          exact fun a pt h1 h2 => ht a pt (by omega) h2
      · have hwalk : exec (pgdirWalk pgdir memStart false) s = (.error .kaddr, s) := by
          rw [exec_pgdirWalk_false, hp]
          exact if_neg hlt
        refine .of_error (exec_bind_error hwalk) fun ht => hlt ?_
        exact ht memStart.toNat pt (Nat.le_refl _) h (by rw [ofNat_toNat]; exact hp)
  | case3 memStart h =>
    rw [userMemCheckLoop, dif_neg h]
    refine .pure (.inl ⟨rfl, rfl, fun a h1 h2 => ?_⟩)
    bv_omega

/-! ## The range as the code computes it -/

theorem roundup_eq (a : Word) : (roundup a 4096).toNat = (a.toNat + 4095) % 4294967296 / 4096 * 4096 := by
  rw [roundup_toNat, BitVec.toNat_sub, BitVec.toNat_add]
  bv_omega

theorem Answer.trim (h : Answer s pgdir perm lo hi r s') (hlo : lo < hi') (hhi : hi' ≤ hi)
    (hpage : hi ≤ (hi' + 4095) / 4096 * 4096) : Answer s pgdir perm lo hi' r s' := by
  rcases h with ⟨rfl, rfl, hall⟩ | ⟨rfl, a, h1, h2, hfail, hmin, rfl⟩
  · exact .inl ⟨rfl, rfl, fun a ha hb => hall a ha (by omega)⟩
  · refine .inr ⟨rfl, a, h1, ?_, hfail, hmin, rfl⟩
    -- An address past the end would share its page with one before it.
    by_contra hge
    exact hfail ((hmin (hi' - 1) (by omega) (by omega)).page (by omega))

theorem not_accessible_last : ¬ Accessible m pgdir perm 4294967295 := by
  rintro ⟨h, -⟩
  omega

theorem Answer.zero (h : Answer s pgdir perm lo hi 0 s') (ha : lo ≤ a) (ha' : a < hi) :
    Accessible s.mem pgdir perm a := by
  rcases h with ⟨-, -, hall⟩ | ⟨h0, -⟩
  · exact hall a ha ha'
  · exact absurd h0 (by decide)

/-- The check answers for the range exactly if the end of the range, rounded up,
does not wrap, or it wraps into the page of `va` and that page is not accessible. -/
theorem user_mem_check_sound_iff (ht : TablesIn s pgdir 0 4294967296) (hlen : 0 < len.toNat) :
    ChecksRange s pgdir va len perm ↔
      va.toNat + len.toNat ≤ 0xFFFFF000 ∨
        (va.toNat / 4096 * 4096 + 4294967296 < va.toNat + len.toNat ∧
          va.toNat + len.toNat ≤ 4294967296 + 0xFFFFF000 ∧ ¬ Accessible s.mem pgdir perm va.toNat) := by
  have hsum : (va + len).toNat = (va.toNat + len.toNat) % 4294967296 := BitVec.toNat_add ..
  have htab : TablesIn s pgdir va.toNat (roundup (va + len) 4096).toNat := fun a pt _ h2 =>
    ht a pt (Nat.zero_le _) (Nat.lt_trans h2 (BitVec.isLt _))
  obtain ⟨r, s', hexec, hans⟩ :=
    ((userMemCheckLoop_answer s pgdir (roundup (va + len) 4096) perm va).never fun _ _ h => h htab).returns
  have hiff : ChecksRange s pgdir va len perm ↔
      Answer s pgdir perm va.toNat (va.toNat + len.toNat) r s' := by
    constructor
    · rintro ⟨r', t, hexec', h⟩
      obtain ⟨hr, rfl⟩ := Prod.mk.inj (hexec.symm.trans hexec')
      obtain rfl := Except.ok.inj hr
      exact h
    · exact fun h => ⟨r, s', hexec, h⟩
  rw [hiff]
  by_cases hfit : va.toNat + len.toNat ≤ 0xFFFFF000
  · -- Nothing wraps.
    have hend : (roundup (va + len) 4096).toNat = (va.toNat + len.toNat + 4095) / 4096 * 4096 := by
      rw [roundup_eq, hsum]
      omega
    rw [hend] at hans
    exact iff_of_true (hans.trim (by omega) (by omega) (Nat.le_refl _)) (.inl hfit)
  · simp only [hfit, false_or]
    have hlast : ∀ {t}, ¬ Answer s pgdir perm va.toNat (va.toNat + len.toNat) 0 t := by
      intro t h
      by_cases hw : va.toNat + len.toNat ≤ 4294967295
      · obtain ⟨hacc, -⟩ := h.zero (a := va.toNat + len.toNat - 1) (by omega) (by omega)
        rw [ulim_toNat] at hacc
        omega
      · exact not_accessible_last (h.zero (a := 4294967295) (by omega) (by omega))
    by_cases hpage : va.toNat / 4096 * 4096 + 4294967296 < va.toNat + len.toNat ∧
        va.toNat + len.toNat ≤ 4294967296 + 0xFFFFF000
    · -- The end wraps into the page of `va`, and the loop looks at that page only.
      have hend : (roundup (va + len) 4096).toNat = va.toNat / 4096 * 4096 + 4096 := by
        rw [roundup_eq, hsum]
        omega
      simp only [hpage.1, hpage.2, true_and]
      constructor
      · rintro h hacc
        rcases hans with ⟨rfl, -, -⟩ | ⟨-, a, h1, h2, hfail, -, -⟩
        · exact hlast h
        · exact hfail (hacc.page (by omega))
      · intro hfail
        rcases hans with ⟨-, -, hall⟩ | ⟨rfl, a, h1, h2, ha, hmin, rfl⟩
        · exact absurd (hall va.toNat (Nat.le_refl _) (by omega)) hfail
        · refine .inr ⟨rfl, a, h1, by omega, ha, hmin, rfl⟩
    · -- The loop does not run.
      have hend : (roundup (va + len) 4096).toNat ≤ va.toNat := by
        rw [roundup_eq, hsum]
        omega
      refine iff_of_false (fun h => ?_) fun h => hpage ⟨h.1, h.2.1⟩
      rcases hans with ⟨rfl, -, -⟩ | ⟨-, a, h1, h2, -⟩
      · exact hlast h
      · omega

end

def blankPmap : Pmap where
  layout := ⟨16384, by decide, 0, 0, 0⟩
  mem := fun _ => 0#8
  pages := fun _ => ⟨none, 0#16⟩
  pageFreeList := none
  userMemCheckAddr := 0#32
  uninit := 1

theorem blankPmap_tables : TablesIn blankPmap pgsize 0 4294967296 := by
  intro a pt _ _ h
  have hz : blankPmap.mem.read32 (pgsize + 4 * pdx (BitVec.ofNat 32 a)) = 0#32 := by
    simp [blankPmap, Mem.read32]
  rw [hz, entryPage_zero] at h
  simp at h

theorem user_mem_check_sound_blank : TablesIn blankPmap pgsize 0 4294967296 ∧
    ChecksRange blankPmap pgsize 0x1000#32 8#32 pteU :=
  ⟨blankPmap_tables, (user_mem_check_sound_iff blankPmap_tables (by decide)).mpr (.inl (by decide))⟩

/-- The program on a machine with 64MB may pass the kernel's own memory: the
check of the range from `0xF0100000` to the end of the address space returns `0`. -/
theorem user_mem_check_wraps : ∃ (k0 k : Kernel) (P : Platform) (a b : Nat), Boots pc64 k0 ∧ SingleRuns k0 k ∧
    Alone P k .user 14907 a b ∧
    exec (userMemCheck (k.envs slot0).pgdir 0xF0100000#32 0x0FF00000#32 pteU) k.pmap = (.ok 0, k.pmap) ∧
    ¬ Accessible k.pmap.mem (k.envs slot0).pgdir pteU 0xF0100000 ∧
    ¬ ChecksRange k.pmap (k.envs slot0).pgdir 0xF0100000#32 0x0FF00000#32 pteU := by
  obtain ⟨k0, P, k, a, b, hboot, -, hrun, halone⟩ := pc64_alone (fun _ => 0#8) .user
  have hexec : exec (userMemCheck (k.envs slot0).pgdir 0xF0100000#32 0x0FF00000#32 pteU) k.pmap =
      (.ok 0, k.pmap) := by
    rw [userMemCheck, userMemCheckLoop, dif_neg (by decide)]
    rfl
  have hfail : ¬ Accessible k.pmap.mem (k.envs slot0).pgdir pteU 0xF0100000 := fun h => absurd h.1 (by decide)
  refine ⟨k0, k, P, a, b, hboot, hrun, halone, hexec, hfail, ?_⟩
  rintro ⟨r, s', hexec', hans⟩
  obtain ⟨hr, -⟩ := Prod.mk.inj (hexec.symm.trans hexec')
  obtain rfl := Except.ok.inj hr
  exact hfail (hans.zero (by decide) (by decide))

/-! ## The check and the hardware -/

theorem mask_sub {f w : Word} (hp : IsPerm f) (h : w &&& f = f) : Sub f (w &&& 0xFFF#32) := by
  unfold Sub
  rw [BitVec.and_comm w, ← BitVec.and_assoc, mask_perm hp, BitVec.and_comm, h]

theorem sub_or_left (f g : Word) : Sub f (f ||| g) := (sub_refl f).or_right g

theorem and_eq_of_sub {f g w : Word} (hs : Sub f g) (h : w &&& g = g) : w &&& f = f := by
  rw [← hs, BitVec.and_comm f, ← BitVec.and_assoc, h]

section
variable {ι : Type} [Fintype ι] {P : Platform} {dirs : ι → Option Nat}
  {pend : List Nat} {held : Finset Nat} {l : List Nat} {s : Pmap}

omit [Fintype ι] in
theorem walkEntry_eq (hq : dirs i = some q) (h : walkEntry m (q * pgsize) va = some w) :
    ∃ pt, tableOf dirs m i (pdx va) = some pt ∧ w = pteOf dirs m i (pdx va) (ptx va) := by
  rw [walkEntry, ← pdeOf_some hq, Option.map_eq_some_iff] at h
  obtain ⟨pt, hpt, rfl⟩ := h
  exact ⟨pt, hpt, (pteOf_some hpt).symm⟩

omit [Fintype ι] in
theorem Accessible.translate (h : Accessible m (q * pgsize) perm a) (hq : dirs i = some q) (hp : IsPerm perm)
    (hpde : Sub perm (pdeOf dirs m i (pdx (BitVec.ofNat 32 a)))) :
    ∃ p f, translate m (q * pgsize) (BitVec.ofNat 32 a) = some (p, f) ∧ f &&& perm = perm := by
  obtain ⟨-, w, hw, hperm⟩ := h
  obtain ⟨pt, ht, rfl⟩ := walkEntry_eq hq hw
  have hpres := and_eq_of_sub (BitVec.or_comm .. ▸ sub_or_left pteP perm : Sub pteP (perm ||| pteP)) hperm
  have hpte := mask_sub hp (and_eq_of_sub (sub_or_left perm pteP) hperm)
  refine ⟨_, _, (translate_eq_some hq).mpr ⟨pt, ht, entryPage_eq_some.mpr ⟨hpres, rfl⟩, rfl⟩, ?_⟩
  rw [BitVec.and_comm _ perm, BitVec.and_assoc (pdeOf ..), ← BitVec.and_assoc perm, hpde, hpte]

/-- Below `UTOP` a table entry grants no more than its directory entry. -/
theorem MemOk.sub_own (h : MemOk P dirs pend held l s) (hq : dirs i = some q)
    (ha : Accessible s.mem (q * pgsize) perm a) (hp : IsPerm perm) (ho : Own (pdx (BitVec.ofNat 32 a))) :
    Sub perm (pdeOf dirs s.mem i (pdx (BitVec.ofNat 32 a))) := by
  obtain ⟨-, w, hw, hperm⟩ := ha
  obtain ⟨pt, -, rfl⟩ := walkEntry_eq hq hw
  exact (mask_sub hp (and_eq_of_sub (sub_or_left perm pteP) hperm)).trans (h.flags ho (ptx_lt _))

theorem Platform.upper_flags (P : Platform) (ho : ¬ Own d) (hd : d < 958) :
    P.upper q d &&& 0xFFF#32 = pteU ||| pteP := by
  unfold Own pdxUtop at ho
  unfold Platform.upper
  rw [pdx_uvpt]
  split
  · rw [BitVec.or_assoc, and_or_mask, mask_page2pa, BitVec.zero_or]
    decide
  · have hd' : d = 955 ∨ d = 956 := by omega
    rcases hd' with rfl | rfl
    · exact pdx_uenvs ▸ P.uenvs.pde_flags
    · exact pdx_upages ▸ P.upages.pde_flags

section
variable {i : ι} (h : MemOk P dirs pend held l s) (hq : dirs i = some q)
include h hq

theorem MemOk.sub_read (ha : Accessible s.mem (q * pgsize) pteU a) :
    Sub pteU (pdeOf dirs s.mem i (pdx (BitVec.ofNat 32 a))) := by
  by_cases ho : Own (pdx (BitVec.ofNat 32 a))
  · exact h.sub_own hq ha (by decide) ho
  · have hd : pdx (BitVec.ofNat 32 a) < 958 := by
      have hlt := ha.1
      rw [ulim_toNat] at hlt
      rw [pdx_eq, BitVec.toNat_ofNat]
      omega
    rw [h.shared hq ho (pdx_lt _)]
    have hf := P.upper_flags (q := q) ho hd
    refine Sub.trans (b := P.upper q (pdx (BitVec.ofNat 32 a)) &&& 0xFFF#32) ?_ ?_
    · rw [hf]
      exact sub_or_left _ _
    · rw [Sub, BitVec.and_comm (P.upper ..), BitVec.and_assoc, BitVec.and_self]

theorem MemOk.window (hwin : Window P.base P.kq d kt frame) (hkept : ¬ P.pool kt) (hd : d = 955 ∨ d = 956) :
    pdeOf dirs s.mem i d = P.base.read32 (P.kq * pgsize + 4 * d) ∧ tableOf dirs s.mem i d = some kt ∧
      ∀ t, t < 1024 → pteOf dirs s.mem i d t = P.base.read32 (kt * pgsize + 4 * t) := by
  have ho : ¬ Own d := by
    unfold Own pdxUtop
    omega
  have hpde : pdeOf dirs s.mem i d = P.base.read32 (P.kq * pgsize + 4 * d) := by
    rw [h.shared hq ho (by omega), Platform.upper, pdx_uvpt, if_neg (by omega)]
  have ht : tableOf dirs s.mem i d = some kt := by rw [tableOf, hpde, hwin.table]
  refine ⟨hpde, ht, fun t hk => ?_⟩
  rw [pteOf_some ht]
  exact read32_page_congr (fun x hx => h.frozen (by rw [hx]; exact hkept)) hk

theorem MemOk.window_readonly
    (ha : Accessible s.mem (q * pgsize) (pteU ||| pteW) a) (ho : ¬ Own (pdx (BitVec.ofNat 32 a))) :
    pdx (BitVec.ofNat 32 a) = pdx uvpt := by
  by_contra hne
  obtain ⟨hlt, w, hw, hperm⟩ := ha
  have hd : pdx (BitVec.ofNat 32 a) = 955 ∨ pdx (BitVec.ofNat 32 a) = 956 := by
    rw [ulim_toNat] at hlt
    rw [pdx_uvpt] at hne
    unfold Own pdxUtop at ho
    have : pdx (BitVec.ofNat 32 a) < 958 := by
      rw [pdx_eq, BitVec.toNat_ofNat]
      omega
    omega
  obtain ⟨pt, ht, rfl⟩ := walkEntry_eq hq hw
  have key : ∀ kt frame, Window P.base P.kq (pdx (BitVec.ofNat 32 a)) kt frame → ¬ P.pool kt → False := by
    intro kt frame hwin hkept
    have hsub := mask_sub (f := pteW) (by decide)
      (and_eq_of_sub (by decide : Sub pteW (pteU ||| pteW ||| pteP)) hperm)
    rw [(h.window hq hwin hkept hd).2.2 _ (ptx_lt _), hwin.pte_flags (ptx_lt _)] at hsub
    exact absurd hsub (by decide)
  rcases hd with hd | hd
  · exact key _ _ (by rw [hd]; exact pdx_uenvs ▸ P.uenvs) P.kEnvs_kept
  · exact key _ _ (by rw [hd]; exact pdx_upages ▸ P.upages) P.kPages_kept

theorem MemOk.uvpt_readonly (hd : pdx va = pdx uvpt) : userCanWrite s.mem (q * pgsize) va = false := by
  unfold userCanWrite
  split
  · rfl
  · rename_i p f ht
    obtain ⟨pt, -, -, rfl⟩ := (translate_eq_some hq).mp ht
    rw [h.shared hq (by rw [hd]; exact not_own_uvpt) (pdx_lt _), beq_eq_false_iff_ne]
    intro hf
    have hw := and_eq_of_sub (by decide : Sub pteW (pteU ||| pteW)) hf
    rw [and_mask_zero (P.upper_readonly (by rw [hd]; exact not_own_uvpt) (by rw [hd, pdx_uvpt]; decide))] at hw
    exact absurd hw (by decide)

end

theorem roundup_below (h : va.toNat + len.toNat ≤ ulim.toNat) :
    (roundup (va + len) 4096).toNat = (va.toNat + len.toNat + 4095) / 4096 * 4096 := by
  rw [ulim_toNat] at h
  rw [roundup_eq, BitVec.toNat_add]
  omega

theorem userMemCheck_zero (h : exec (userMemCheck pgdir va len perm) s = (.ok 0, s'))
    (hend : va.toNat + len.toNat ≤ ulim.toNat) (ha : va.toNat ≤ a) (ha' : a < va.toNat + len.toNat) :
    Accessible s.mem pgdir perm a := by
  refine ((userMemCheckLoop_answer ..).ok h).zero ha ?_
  rw [roundup_below hend]
  omega

/-- The write check passes where all of the range is writable or shows page tables. -/
theorem MemOk.check_passes (h : MemOk P dirs pend held l s) (hq : dirs i = some q)
    (hend : va.toNat + len.toNat ≤ ulim.toNat) (hlen : 0 < len.toNat)
    (hall : ∀ a, va.toNat ≤ a → a < va.toNat + len.toNat → Accessible s.mem (q * pgsize) (pteU ||| pteW) a) :
    exec (userMemCheck (q * pgsize) va len (pteU ||| pteW)) s = (.ok 0, s) := by
  have hpages : ∀ a, va.toNat ≤ a → a < (roundup (va + len) 4096).toNat →
      Accessible s.mem (q * pgsize) (pteU ||| pteW) a := by
    intro a h1 h2
    rw [roundup_below hend] at h2
    by_cases hin : a < va.toNat + len.toNat
    · exact hall a h1 hin
    · exact (hall (va.toNat + len.toNat - 1) (by omega) (by omega)).page (by omega)
  have htab : TablesIn s (q * pgsize) va.toNat (roundup (va + len) 4096).toNat := by
    intro a pt h1 h2 hpt
    have hacc := hpages a h1 h2
    rw [← pdeOf_some hq] at hpt
    by_cases ho : Own (pdx (BitVec.ofNat 32 a))
    · exact h.pool_lt (h.table_pool ho hpt)
    · rw [h.shared hq ho (pdx_lt _), Platform.upper, if_pos (h.window_readonly hq hacc ho)] at hpt
      have hqlt := h.pool_lt (h.dir_pool hq)
      rw [BitVec.or_assoc, BitVec.or_comm pteP, ← BitVec.or_assoc,
        entryPage_pack (Nat.lt_of_lt_of_le hqlt s.layout.npages_le) (by decide)] at hpt
      exact Option.some.inj hpt ▸ hqlt
  obtain ⟨r, s', hexec, hans⟩ :=
    ((userMemCheckLoop_answer s _ _ (pteU ||| pteW) va).never fun _ _ hx => hx htab).returns
  rcases hans with ⟨rfl, rfl, -⟩ | ⟨-, a, h1, h2, hfail, -⟩
  · exact hexec
  · exact absurd (hpages a h1 h2) hfail

end

/-- A passed write check means that the hardware allows the writes exactly if
the range has no address in the window on the page tables, unless the check
has a reason to fail; a passed read check always means that it allows the reads. -/
theorem user_check_agrees_with_hardware {mach : Machine} (hboot : Boots mach k0)
    (hrun : Runs (fun k ev k' => k.Bounded ∧ Undisturbed k ev k') k0 k) (hl : k.Live e)
    (hend : va.toNat + len.toNat ≤ ulim.toNat) :
    ((∀ s', exec (userMemCheck (k.envs e).pgdir va len (pteU ||| pteW)) k.pmap = (.ok 0, s') →
        ∀ a, va.toNat ≤ a → a < va.toNat + len.toNat →
          userCanWrite k.pmap.mem (k.envs e).pgdir (BitVec.ofNat 32 a) = true) ↔
      (∀ a, va.toNat ≤ a → a < va.toNat + len.toNat → a < uvpt.toNat) ∨
        ∃ a, va.toNat ≤ a ∧ a < va.toNat + len.toNat ∧
          ¬ Accessible k.pmap.mem (k.envs e).pgdir (pteU ||| pteW) a) ∧
    ∀ s', exec (userMemCheck (k.envs e).pgdir va len pteU) k.pmap = (.ok 0, s') →
      ∀ a, va.toNat ≤ a → a < va.toNat + len.toNat →
        userCanRead k.pmap.mem (k.envs e).pgdir (BitVec.ofNat 32 a) = true := by
  obtain ⟨P, -, -, -, -, hok0, -, -⟩ := hboot.machineOk
  have hok := (hok0.runs hrun).kernel
  obtain ⟨q, hq, hp⟩ := hok.dir hl
  obtain ⟨l, hm⟩ := hok.mem
  rw [hp]
  refine ⟨⟨fun hprop => ?_, fun hcond s' hexec a h1 h2 => ?_⟩, fun s' hexec a h1 h2 => ?_⟩
  · by_contra hno
    push Not at hno
    obtain ⟨⟨a, h1, h2, ha⟩, hall⟩ := hno
    have hpass := hm.check_passes hq hend (by omega) hall
    have hw := hprop k.pmap hpass a h1 h2
    rw [hm.uvpt_readonly hq ?_] at hw
    · simp at hw
    · rw [uvpt_toNat] at ha
      rw [ulim_toNat] at hend
      rw [pdx_uvpt, pdx_eq, BitVec.toNat_ofNat]
      omega
  · have hacc := userMemCheck_zero hexec hend h1 h2
    rcases hcond with hbelow | ⟨b, hb1, hb2, hfail⟩
    · have ho : Own (pdx (BitVec.ofNat 32 a)) := by
        by_contra ho
        have hd := hm.window_readonly hq hacc ho
        have hlt := hbelow a h1 h2
        rw [uvpt_toNat] at hlt
        rw [pdx_uvpt, pdx_eq, BitVec.toNat_ofNat] at hd
        omega
      obtain ⟨p, f, ht, hf⟩ := hacc.translate hq (by decide) (hm.sub_own hq hacc (by decide) ho)
      simp [userCanWrite, ht, hf]
    · exact absurd (userMemCheck_zero hexec hend hb1 hb2) hfail
  · have hacc := userMemCheck_zero hexec hend h1 h2
    obtain ⟨p, f, ht, hf⟩ := hacc.translate hq (by decide) (hm.sub_read hq hacc)
    simp [userCanRead, ht, hf]

/-- The stack of the first program. -/
theorem user_check_agrees_with_hardware_pc64 : ∃ (k0 k : Kernel), Boots pc64 k0 ∧
    Runs (fun k ev k' => k.Bounded ∧ Undisturbed k ev k') k0 k ∧ k.Live slot0 ∧
    ∀ s', exec (userMemCheck (k.envs slot0).pgdir 0xEEBFD000#32 4096#32 (pteU ||| pteW)) k.pmap = (.ok 0, s') →
      ∀ a, 0xEEBFD000 ≤ a → a < 0xEEBFD000 + 4096 →
        userCanWrite k.pmap.mem (k.envs slot0).pgdir (BitVec.ofNat 32 a) = true := by
  obtain ⟨k0, P, k, a, b, hboot, -, hrun, h⟩ := pc64_alone (fun _ => 0#8) .user
  obtain ⟨P0, -, -, -, -, hok0, honly, -⟩ := hboot.machineOk
  have hruns := hok0.runs_of_single honly hrun
  have hl := live_of_running h.status
  refine ⟨k0, k, hboot, hruns, hl, ?_⟩
  refine (user_check_agrees_with_hardware hboot hruns hl (by decide)).1.mpr (.inl fun a _ h2 => ?_)
  rw [uvpt_toNat]
  exact Nat.lt_trans h2 (by decide)

/-- The first program passes the address of a word in the window on its page
tables, the entry of the table that maps its stack. The check accepts it for
writing, and the hardware does not. -/
theorem user_check_accepts_uvpt : ∃ (k0 k : Kernel), Boots pc64 k0 ∧ SingleRuns k0 k ∧ k.curenv 0 = some slot0 ∧
    exec (userMemCheck (k.envs slot0).pgdir 0xEF7BA000#32 4#32 (pteU ||| pteW)) k.pmap = (.ok 0, k.pmap) ∧
    userCanWrite k.pmap.mem (k.envs slot0).pgdir 0xEF7BA000#32 = false := by
  obtain ⟨k0, P, k, a, b, hboot, -, hrun, h⟩ := pc64_alone (fun _ => 0#8) .user
  have hl := live_of_running h.status
  obtain ⟨q, hq, hp⟩ := h.machine.kernel.dir hl
  obtain ⟨l, hm⟩ := h.machine.kernel.mem
  refine ⟨k0, k, hboot, hrun, h.curenv, ?_, ?_⟩
  · rw [hp]
    refine hm.check_passes hq (by decide) (by decide) fun x h1 h2 => ?_
    have hd : pdx (BitVec.ofNat 32 x) = 957 := by
      rw [pdx_eq, BitVec.toNat_ofNat]
      simp at h1 h2
      omega
    have ht : ptx (BitVec.ofNat 32 x) = 954 := by
      rw [ptx_eq, BitVec.toNat_ofNat]
      simp at h1 h2
      omega
    -- The directory itself serves as the table, so the entry found is that of the stack's table.
    have hself : pdeOf k.dirs k.pmap.mem slot0 957 = page2pa q ||| pteU ||| pteP := by
      rw [hm.shared hq (by decide) (by decide), Platform.upper, if_pos pdx_uvpt.symm, BitVec.or_assoc,
        BitVec.or_comm pteP, ← BitVec.or_assoc]
    have hqlt := Nat.lt_of_lt_of_le (hm.pool_lt (hm.dir_pool hq)) k.pmap.layout.npages_le
    have hstack := h.loaded.pte (d := 954) (t := 1021) (by decide) (by decide)
    rw [if_neg (by decide), if_pos ⟨rfl, rfl⟩] at hstack
    have hflags := hm.flags (i := slot0) (d := 954) (t := 1021) (by decide) (by decide)
    rw [hstack, flags_pack (by decide)] at hflags
    have htab : tableOf k.dirs k.pmap.mem slot0 957 = some q := by
      rw [tableOf, hself]
      exact entryPage_pack hqlt (by decide)
    refine ⟨by rw [ulim_toNat]; simp at h2; omega, pdeOf k.dirs k.pmap.mem slot0 954, ?_, ?_⟩
    · rw [walkEntry, hd, ht, ← pdeOf_some hq]
      unfold tableOf at htab
      rw [htab]
      exact congrArg some (pdeOf_some hq).symm
    · rw [BitVec.and_comm, ← BitVec.or_comm pteW pteU]
      exact hflags
  · rw [hp]
    exact hm.uvpt_readonly hq (by decide)

end Jos
