import Mathlib.Order.Interval.Finset.Nat
import Jos.Kern.UserMem

/-!
# What user mode can read

Besides its own pages, user mode reads the `pages` and `envs` arrays and its
own page tables through the windows between `UTOP` and `ULIM`. The two windows
on the arrays are `PTSIZE` long whatever the length of the arrays, and so they
also show the frames that follow the `envs` array: the first ones that
`page_init` puts on the free list.
-/

namespace Jos

open Lib

def Kernel.Reads (k : Kernel) (e : EnvPtr) (p : Nat) : Prop :=
  ∃ va f, translate k.pmap.mem (k.envs e).pgdir va = some (p, f) ∧ f &&& pteU = pteU

def Kernel.MapsBelow (k : Kernel) (e : EnvPtr) (p : Nat) : Prop :=
  ∃ va f, va < utop ∧ translate k.pmap.mem (k.envs e).pgdir va = some (p, f)

/-- `p` is the page directory of `e`, or a page table it names below `ULIM`. -/
def Kernel.IsTableOf (k : Kernel) (e : EnvPtr) (p : Nat) : Prop :=
  p = (k.envs e).pgdir / pgsize ∨
    ∃ d, d < pdx ulim ∧ entryPage (k.pmap.mem.read32 ((k.envs e).pgdir + 4 * d)) = some p

def Kernel.Owns (k : Kernel) (e : EnvPtr) (p : Nat) : Prop := k.MapsBelow e p ∨ k.IsTableOf e p

/-- Frame `p` holds a part of the `n` bytes from `a` on. -/
def PartOf (a n p : Nat) : Prop := p * pgsize < a + n ∧ a < (p + 1) * pgsize

/-- Frame `p` holds a part of the `pages` or of the `envs` array. -/
def Layout.InArrays (L : Layout) (p : Nat) : Prop :=
  PartOf L.pages (L.npages * sizeofPageInfo) p ∨ PartOf L.envs (nenv * sizeofEnv) p

/-- All that user mode of `e` can read is its own or in the arrays. -/
def Kernel.Confined (k : Kernel) (e : EnvPtr) : Prop :=
  ∀ p, k.Reads e p → k.Owns e p ∨ k.pmap.layout.InArrays p

section
variable {mach : Machine}

theorem inArrays_iff (p : Nat) : mach.layout.InArrays p ↔ mach.kq + 1 ≤ p ∧ p < mach.first := by
  have hlen : mach.npages * 8 ≤ mach.pagesLen * 4096 ∧ mach.pagesLen * 4096 < mach.npages * 8 + 4096 := by
    unfold Machine.pagesLen roundupPage sizeofPageInfo pgsize
    omega
  unfold Layout.InArrays PartOf Machine.layout Machine.first Machine.envsLen sizeofPageInfo nenv sizeofEnv pgsize
  simp only
  omega

end

section
variable {ι : Type} [Fintype ι] {P : Platform} {dirs : ι → Option Nat}
  {pend : List Nat} {held : Finset Nat} {l : List Nat} {s : Pmap}

theorem MemOk.reads_window (h : MemOk P dirs pend held l s) (hq : dirs i = some q)
    (hwin : Window P.base P.kq d kt frame) (hkept : ¬ P.pool kt) (hd : d = 955 ∨ d = 956) (hva : pdx va = d) :
    ∃ f, translate s.mem (q * pgsize) va = some (frame + ptx va, f) ∧ f &&& pteU = pteU := by
  subst hva
  obtain ⟨hpde, ht, hpte⟩ := h.window hq hwin hkept hd
  refine ⟨_, (translate_eq_some hq).mpr ⟨kt, ht, ?_, rfl⟩, ?_⟩
  · rw [hpte _ (ptx_lt va), hwin.page (ptx_lt va)]
  · rw [hpte _ (ptx_lt va), hpde, and_and_mask _ _ 0xFFF#32, hwin.pte_flags (ptx_lt va), hwin.pde_flags]
    decide

/-- What user mode reads above `UTOP`: the windows, and the tables. -/
theorem MemOk.reads_above (h : MemOk P dirs pend held l s) (hq : dirs i = some q) (ho : ¬ Own (pdx va))
    (ht : translate s.mem (q * pgsize) va = some (p, f)) (hf : f &&& pteU = pteU) :
    (∃ t, t < 1024 ∧ (p = P.layout.envs / pgsize + t ∨ p = P.layout.pages / pgsize + t)) ∨
      ∃ d, d < pdx ulim ∧ entryPage (pdeOf dirs s.mem i d) = some p := by
  obtain ⟨pt, htab, hpage, rfl⟩ := (translate_eq_some hq).mp ht
  have hlt := pdx_lt va
  have hwindow : ∀ kt frame, Window P.base P.kq (pdx va) kt frame → ¬ P.pool kt → pdx va = 955 ∨ pdx va = 956 →
      p = frame + ptx va := by
    intro kt frame hwin hkept hd
    rw [(h.window hq hwin hkept hd).2.2 _ (ptx_lt va), hwin.page (ptx_lt va)] at hpage
    exact (Option.some.inj hpage).symm
  have hvisible : ∀ {a b : Word}, (a &&& b &&& 0xFFF#32) &&& pteU = pteU → a &&& pteU ≠ 0#32 := by
    intro a b hab hz
    rw [and_mask_zero hz] at hab
    exact absurd hab (by decide)
  have hcases : pdx va = 955 ∨ pdx va = 956 ∨ pdx va = 957 ∨ 958 ≤ pdx va := by
    unfold Own pdxUtop at ho
    omega
  rcases hcases with hd | hd | hd | hd
  · exact .inl ⟨ptx va, ptx_lt va, .inl (hwindow _ _ (by rw [hd]; exact pdx_uenvs ▸ P.uenvs) P.kEnvs_kept (.inl hd))⟩
  · exact .inl ⟨ptx va, ptx_lt va, .inr (hwindow _ _ (by rw [hd]; exact pdx_upages ▸ P.upages) P.kPages_kept (.inr hd))⟩
  · -- Through `UVPT` the entries of the directory are those of a table.
    have hpte : pteOf dirs s.mem i (pdx va) (ptx va) = pdeOf dirs s.mem i (ptx va) := by
      rw [hd, ← pdx_uvpt, pteOf_some (h.self_table hq), pdeOf_some hq]
    rw [hpte] at hpage hf
    refine .inr ⟨ptx va, ?_, hpage⟩
    by_contra hge
    have hge' : 958 ≤ ptx va := by
      rw [pdx_ulim] at hge
      omega
    have hpde : pdeOf dirs s.mem i (ptx va) = P.base.read32 (P.kq * pgsize + 4 * ptx va) := by
      rw [h.shared hq (by unfold Own pdxUtop; omega) (ptx_lt va), Platform.upper, pdx_uvpt, if_neg (by omega)]
    rw [BitVec.and_comm (pdeOf dirs s.mem i (pdx va)), hpde] at hf
    exact hvisible hf (P.hidden (by rw [pdx_ulim]; exact hge') (ptx_lt va))
  · have hpde : pdeOf dirs s.mem i (pdx va) = P.base.read32 (P.kq * pgsize + 4 * pdx va) := by
      rw [h.shared hq ho hlt, Platform.upper, pdx_uvpt, if_neg (by omega)]
    rw [hpde] at hf
    exact absurd (P.hidden (by rw [pdx_ulim]; exact hd) hlt) (hvisible hf)

end

section
variable {mach : Machine}

theorem pgsize_div (n : Nat) : n * pgsize / pgsize = n := Nat.mul_div_cancel n (by decide)

theorem KernelOk.reads_window {k : Kernel} (h : KernelOk P k) (hl : k.Live e) (ht : t < 1024) :
    k.Reads e (P.layout.envs / pgsize + t) := by
  obtain ⟨q, hq, hp⟩ := h.dir hl
  obtain ⟨l, hm⟩ := h.mem
  have hva : (uenvs + BitVec.ofNat 32 (pgsize * t)).toNat = 0xEEC00000 + 4096 * t := by
    rw [BitVec.toNat_add, BitVec.toNat_ofNat, show uenvs.toNat = 0xEEC00000 from rfl]
    unfold pgsize
    omega
  have hd : pdx (uenvs + BitVec.ofNat 32 (pgsize * t)) = 955 := by
    rw [pdx_eq, hva]
    omega
  have hpt : ptx (uenvs + BitVec.ofNat 32 (pgsize * t)) = t := by
    rw [ptx_eq, hva]
    omega
  obtain ⟨f, htr, hf⟩ := hm.reads_window hq (pdx_uenvs ▸ P.uenvs) P.kEnvs_kept (.inl rfl) hd
  rw [hpt] at htr
  exact ⟨_, f, by rw [hp]; exact htr, hf⟩

/-- User mode of `e` reads no more than it should exactly if all the frames the
windows show behind the arrays happen to be its own. -/
theorem user_memory_confined_iff (hboot : Boots mach k0) (hrun : LiveRuns k0 k) (hl : k.Live e) :
    k.Confined e ↔ ∀ p, mach.first ≤ p → p < mach.first + 993 → k.Owns e p := by
  obtain ⟨P, -, hP, -, -, hok0, -, -⟩ := hboot.machineOk
  have h := hok0.kernel.liveRuns hrun
  obtain ⟨q, hq, hpg⟩ := h.dir hl
  obtain ⟨l, hm⟩ := h.mem
  have hlay : k.pmap.layout = mach.layout := hm.layout_eq.trans hP
  have henvs : P.layout.envs / pgsize = mach.kq + 1 + mach.pagesLen := by
    rw [hP]
    exact pgsize_div _
  have hpages : P.layout.pages / pgsize = mach.kq + 1 := by
    rw [hP]
    exact pgsize_div _
  have hfirst : mach.first = mach.kq + 1 + mach.pagesLen + 31 := rfl
  constructor
  · intro hc p h1 h2
    have hread : k.Reads e p := by
      have hr := h.reads_window hl (t := p - (mach.kq + 1 + mach.pagesLen)) (by omega)
      rw [henvs, Nat.add_sub_cancel' (by omega)] at hr
      exact hr
    refine (hc p hread).resolve_right fun hin => ?_
    rw [hlay, inArrays_iff] at hin
    omega
  · rintro hown p ⟨va, f, htr, hf⟩
    by_cases ho : va < utop
    · exact .inl (.inl ⟨va, f, ho, htr⟩)
    · rw [hpg] at htr
      rcases hm.reads_above hq (fun h => ho (lt_utop_of_pdx_lt h)) htr hf with ⟨t, ht, hp⟩ | ⟨d, hd, hp⟩
      · rw [henvs, hpages] at hp
        by_cases hpf : p < mach.first
        · right
          rw [hlay, inArrays_iff]
          omega
        · exact .inl (hown p (by omega) (by omega))
      · refine .inl (.inr (.inr ⟨d, hd, ?_⟩))
        rw [hpg, ← pdeOf_some hq]
        exact hp

end

/-- The first program of a machine with 64MB. -/
theorem user_memory_confined_iff_pc64 : ∃ k0 k : Kernel, Boots pc64 k0 ∧ LiveRuns k0 k ∧ k.Live slot0 ∧
    (k.Confined slot0 ↔ ∀ p, 448 ≤ p → p < 1441 → k.Owns slot0 p) := by
  obtain ⟨k0, P, k, a, b, hboot, -, hrun, h⟩ := pc64_alone (fun _ => 0#8) .user
  obtain ⟨P0, -, -, -, -, hok0, honly, -⟩ := hboot.machineOk
  have hl := live_of_running h.status
  have hruns := hok0.liveRuns honly hrun
  have hiff := user_memory_confined_iff hboot hruns hl
  rw [pc64_first] at hiff
  exact ⟨k0, k, hboot, hruns, hl, hiff⟩

/-- The frames the first program owns are its two pages, its directory and four tables. -/
theorem Alone.owns {k : Kernel} (h : Alone P k type n text stack) (hown : k.Owns slot0 p) :
    p ∈ [text, stack, (k.envs slot0).pgdir / pgsize, (tableOf k.dirs k.pmap.mem slot0 2).getD 0,
      (tableOf k.dirs k.pmap.mem slot0 954).getD 0, P.kEnvs, P.kPages] := by
  have hl := live_of_running h.status
  obtain ⟨q, hq, hp⟩ := h.machine.kernel.dir hl
  obtain ⟨l, hm⟩ := h.machine.kernel.mem
  have hq' : (k.envs slot0).pgdir / pgsize = q := by rw [hp, pgsize_div]
  rcases hown with ⟨va, f, hva, ht⟩ | hdir | ⟨d, hd, ht⟩
  · rw [hp] at ht
    obtain ⟨pt, -, hpage, -⟩ := (translate_eq_some hq).mp ht
    rw [h.loaded.pte (own_pdx hva) (ptx_lt va)] at hpage
    split at hpage
    · rw [entryPage_pack h.loaded.text_lt (by decide)] at hpage
      simp [Option.some.inj hpage]
    · split at hpage
      · rw [entryPage_pack h.loaded.stack_lt (by decide)] at hpage
        simp [Option.some.inj hpage]
      · rw [entryPage_zero] at hpage
        simp at hpage
  · simp [hdir]
  · rw [hp, ← pdeOf_some hq] at ht
    by_cases ho : Own d
    · by_cases h2 : d = 2
      · subst h2
        simp [tableOf, ht]
      · by_cases h954 : d = 954
        · subst h954
          simp [tableOf, ht]
        · rw [h.loaded.pde ho h2 h954, entryPage_zero] at ht
          simp at ht
    · have hcases : d = 955 ∨ d = 956 ∨ d = 957 := by
        rw [pdx_ulim] at hd
        unfold Own pdxUtop at ho
        omega
      rcases hcases with rfl | rfl | rfl
      · have hwin := (hm.window hq (pdx_uenvs ▸ P.uenvs) P.kEnvs_kept (.inl rfl)).2.1
        simp [Option.some.inj (hwin.symm.trans ht)]
      · have hwin := (hm.window hq (pdx_upages ▸ P.upages) P.kPages_kept (.inr rfl)).2.1
        simp [Option.some.inj (hwin.symm.trans ht)]
      · have hself := hm.self_table hq
        rw [pdx_uvpt] at hself
        simp [hq', Option.some.inj (hself.symm.trans ht)]

/-- The first program of a machine with 64MB reads one of the frames 448 to 455,
which `page_init` has put on the free list, although the frame is not its own
and is in no array. -/
theorem windows_show_free_frames : ∃ (k0 k : Kernel) (p : Nat), Boots pc64 k0 ∧ SingleRuns k0 k ∧ k.Live slot0 ∧
    pc64.Free p ∧ k.Reads slot0 p ∧ ¬ k.Owns slot0 p ∧ ¬ k.pmap.layout.InArrays p := by
  obtain ⟨k0, P, k, a, b, hboot, hP, hrun, h⟩ := pc64_alone (fun _ => 0#8) .user
  have hl := live_of_running h.status
  obtain ⟨l, hm⟩ := h.machine.kernel.mem
  obtain ⟨p, hin, hout⟩ := Finset.exists_mem_notMem_of_card_lt_card (s := List.toFinset
    [a, b, (k.envs slot0).pgdir / pgsize, (tableOf k.dirs k.pmap.mem slot0 2).getD 0,
      (tableOf k.dirs k.pmap.mem slot0 954).getD 0, P.kEnvs, P.kPages]) (t := Finset.Ico 448 456)
    (Nat.lt_of_le_of_lt (List.toFinset_card_le _) (by simp))
  obtain ⟨h1, h2⟩ := Finset.mem_Ico.mp hin
  refine ⟨k0, k, p, hboot, hrun, hl, pc64_free h1 (by omega), ?_, fun hown => hout (List.mem_toFinset.mpr (h.owns hown)), ?_⟩
  · have henvs : P.layout.envs / pgsize = 417 := by
      rw [hP]
      decide
    have hread := h.machine.kernel.reads_window hl (t := p - 417) (by omega)
    rw [henvs, Nat.add_sub_cancel' (by omega)] at hread
    exact hread
  · rw [hm.layout_eq, hP, inArrays_iff, pc64_first]
    omega

/-- User mode of `e` writes only below `UTOP`, to pages that were free at boot and that are
no environment's directory or table. -/
def Kernel.WritesOwn (k0 k : Kernel) (e : EnvPtr) : Prop :=
  ∀ va, userCanWrite k.pmap.mem (k.envs e).pgdir va = true → va < utop ∧
    ∃ p f l, translate k.pmap.mem (k.envs e).pgdir va = some (p, f) ∧ k0.FreeList l ∧ p ∈ l ∧
      ∀ r : Ref EnvPtr Own, IsTable r → target k.dirs k.pmap.mem r ≠ some p

theorem user_writes_confined (hboot : Boots mach k0) (hrun : LiveRuns k0 k) (hl : k.Live e) : k0.WritesOwn k e := by
  intro va hw
  obtain ⟨P, l, -, hfree, hpool, hok0, -⟩ := hboot.machineOk
  have h := hok0.kernel.liveRuns hrun
  obtain ⟨q, hq, hpg⟩ := h.dir hl
  obtain ⟨_, hm⟩ := h.mem
  rw [hpg] at hw ⊢
  obtain ⟨p, f, ht, ho, hpte⟩ := hm.userStore hq hw
  exact ⟨lt_utop_of_pdx_lt ho, p, f, l, ht, hfree, (hpool p).mp (hm.page_pool ho (ptx_lt va) hpte),
    hm.mapped_not_table ho (ptx_lt va) hpte⟩

theorem user_writes_confined_pc64 : ∃ k0 k, Boots pc64 k0 ∧ LiveRuns k0 k ∧ k.Live slot0 ∧ k0.WritesOwn k slot0 := by
  obtain ⟨k0, P, k, a, b, hboot, hrun, h⟩ := pc64_live
  have hl := live_of_running h.status
  exact ⟨k0, k, hboot, hrun, hl, user_writes_confined hboot hrun hl⟩

end Jos
