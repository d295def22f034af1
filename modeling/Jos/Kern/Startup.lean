import Jos.Kern.MemInit
import Jos.Kern.KernelLaws

/-!
# The first state of the machine

A kernel that has started satisfies the invariant, on the `Platform` that
`mem_init` made; and there is a machine that starts.
-/

namespace Jos

open Lib

section
variable {mach : Machine} {v : BootView} {s : Pmap}

/-! ## The platform -/

theorem frames_eq (a perm : Word) (j : Nat) (ha : a = BitVec.ofNat 32 (x * pgsize)) :
    frames a perm j = page2pa (x + j) ||| perm ||| pteP := by
  have h : a + BitVec.ofNat 32 (pgsize * j) = page2pa (x + j) := by
    rw [ha, ← ofNat_page, ← BitVec.ofNat_add, Nat.add_mul, Nat.mul_comm pgsize j]
  rw [frames, h]

theorem Started.window (h : Started mach v s) (ho : Mine d) (hd : d < 1024) (hshow : v.Shows d (x * pgsize))
    (hx : x + 1023 < 65536) :
    ∃ kt, Window s.mem mach.kq d kt x ∧ kt ∉ v.free := by
  obtain ⟨kt, hlt, hpde, hpte⟩ := hshow
  have hentry : entryPage (v.pde d) = some kt := by
    rw [hpde]
    exact entryPage_or (by decide) (entryPage_page2pa hlt)
  have htab : tableOf (oneDir mach.kq) s.mem () d = some kt := (h.views.tableOf_eq hd).trans hentry
  have hread : ∀ t, t < 1024 → s.mem.read32 (kt * pgsize + 4 * t) = page2pa (x + t) ||| pteU ||| pteP := fun t ht => by
    rw [← pteOf_some htab, h.views.pte ho hd ht, hpte t ht, frames_eq _ _ _ rfl]
  have hread' : s.mem.read32 (mach.kq * pgsize + 4 * d) = v.pde d := h.views.pde hd
  refine ⟨kt, ⟨htab, ?_, fun {t} ht => ?_, fun {t} ht => ?_⟩, (h.views.table ho hd htab).2⟩
  · rw [hread', hpde, and_or_mask, and_or_mask, mask_page2pa, BitVec.zero_or]
    decide
  · rw [hread t ht]
    exact entryPage_pack (by omega) (by decide)
  · rw [hread t ht]
    exact flags_pack (by decide)

theorem Started.platform (h : Started mach v s) :
    ∃ P : Platform, P.layout = mach.layout ∧ (∀ p, P.pool p ↔ p ∈ v.free) ∧ P.base = s.mem := by
  have hkq := mach.kq_le
  have hlen := mach.pagesLen_le
  obtain ⟨kPages, hwp, hp⟩ := h.window (d := 956) (x := mach.kq + 1) (by decide) (by decide) h.maps.upages (by omega)
  obtain ⟨kEnvs, hwe, he⟩ := h.window (d := 955) (x := mach.kq + 1 + mach.pagesLen) (by decide) (by decide)
    h.maps.uenvs (by omega)
  have hdiv : ∀ x, x * pgsize / pgsize = x := fun x => Nat.mul_div_cancel x (by decide)
  exact ⟨{
    layout := mach.layout
    pool := fun p => p ∈ v.free
    base := s.mem
    kq := mach.kq
    kPages := kPages
    kEnvs := kEnvs
    pool_pos := fun hp => Nat.pos_of_ne_zero (h.views.range (h.views.free hp).1).1
    pool_lt := fun hp => (h.views.range (h.views.free hp).1).2.1
    kernPgdir_eq := rfl
    kq_kept := fun hp => (h.views.range (h.views.free hp).1).2.2 rfl
    kPages_kept := hp
    kEnvs_kept := he
    upages := by
      rw [pdx_upages]
      exact (hdiv _).symm ▸ hwp
    uenvs := by
      rw [pdx_uenvs]
      exact (hdiv _).symm ▸ hwe
    hidden := fun {d} hd hlt => by
      rw [pdx_ulim] at hd
      rw [show s.mem.read32 (mach.kq * pgsize + 4 * d) = v.pde d from h.views.pde hlt]
      exact h.maps.hidden d hd hlt }, rfl, fun _ => Iff.rfl, rfl⟩

theorem target_noDirs {ι : Type} (m : Mem) (r : Ref ι Own) : target (fun _ : ι => none) m r = none := by
  match r with
  | .dir i => rfl
  | .pde i d => exact tableOf_none rfl
  | .pte i d t => exact (congrArg entryPage (pteOf_none (tableOf_none rfl))).trans entryPage_zero

theorem Started.memOk {ι : Type} [Fintype ι] {P : Platform} (h : Started mach v s) (hl : P.layout = mach.layout)
    (hp : ∀ p, P.pool p ↔ p ∈ v.free) (hb : P.base = s.mem) : MemOk P (fun _ : ι => none) [] ∅ v.free s := by
  have hnone := target_noDirs (ι := ι) s.mem
  have huses : ∀ a, uses (target (fun _ : ι => none) s.mem : Ref ι Own → Option Nat) [] a = 0 := fun a => by
    simp [uses, count_eq_zero, hnone]
  refine ⟨h.views.layout.trans hl.symm, h.views.uninit, ⟨h.views.chain, ?_, ?_, ?_, ?_⟩, ?_, ?_, ?_, ?_, ?_, ?_,
    ?_, ?_⟩
  · intro a
    simp [huses, hp]
  · intro a ha
    rw [huses]
    exact (h.views.free ((hp a).mp ha)).2
  · intro a ha hn
    exact absurd ((hp a).mp ha) hn
  · simp
  · intro r r' a _ hr _
    simp [hnone] at hr
  · intro p r hr
    simp [hnone] at hr
  · simp
  · simp
  · intro d t i _ _
    rw [pteOf_none (tableOf_none rfl)]
    unfold Sub
    simp
  · intro d t i _ _
    rw [pteOf_none (tableOf_none rfl)]
    exact userEntry_zero
  · intro i q _ hq
    simp at hq
  · intro a _
    rw [hb]

/-! ## `env_init` -/

def Kernel.envInited (k : Kernel) : Kernel := { k with
  envs := fun i => { k.envs i with
    status := .free
    id := 0
    link := if h : i.1 + 1 < nenv then some ⟨i.1 + 1, h⟩ else none }
  envFreeList := some ⟨0, nenv_pos⟩ }

theorem exec_envInit (k : Kernel) : exec envInit k = (.ok (), k.envInited) := rfl

theorem chain_envInited (k : Kernel) (n : Nat) (hn : n ≤ nenv) :
    Chain (fun e => (k.envInited.envs e).link) (if h : n < nenv then some ⟨n, h⟩ else none)
      ((List.finRange nenv).drop n) := by
  induction hm : nenv - n generalizing n with
  | zero =>
    obtain rfl : n = nenv := by omega
    rw [dif_neg (Nat.lt_irrefl _), List.drop_eq_nil_of_le (by simp)]
    exact .nil
  | succ m ih =>
    have hlt : n < nenv := by omega
    rw [dif_pos hlt, List.drop_eq_getElem_cons (by simpa using hlt), List.getElem_finRange]
    exact .cons (ih (n + 1) hlt (by omega))

theorem Started.kernelOk {b : Boot} (h : Started mach v b.pmap) :
    ∃ P : Platform, P.layout = mach.layout ∧ (∀ p, P.pool p ↔ p ∈ v.free) ∧ KernelOk P b.kernel.envInited := by
  obtain ⟨P, hl, hp, hb⟩ := h.platform
  refine ⟨P, hl, hp, ⟨v.free, ?_⟩, fun {e} he => absurd rfl he, List.finRange nenv, ?_, ?_⟩
  · have hdirs : b.kernel.envInited.dirs = fun _ => none := funext fun e => if_pos rfl
    rw [hdirs]
    exact h.memOk hl hp hb
  · have := chain_envInited b.kernel 0 (Nat.zero_le _)
    rwa [dif_pos (by decide), List.drop_zero] at this
  · intro e
    simp [Kernel.Live, Kernel.envInited]

def Kernel.FreeList (k : Kernel) (l : List Nat) : Prop :=
  Chain (fun p => (k.pmap.pages p).ppLink) k.pmap.pageFreeList l

theorem Boots.envInited (h : Boots mach k) : ∃ b : Boot, k = b.kernel.envInited := by
  obtain ⟨v, b, hs, hinit⟩ := h.started
  rw [exec_envInit] at hinit
  exact ⟨b, (Prod.mk.inj hinit).2.symm⟩

theorem Boots.machineOk (h : Boots mach k) :
    ∃ P : Platform, ∃ l, P.layout = mach.layout ∧ k.FreeList l ∧ (∀ p, P.pool p ↔ p ∈ l) ∧ MachineOk P k ∧
      k.OnlyCpu0 ∧ k.Bounded := by
  obtain ⟨v, b, hs, hinit⟩ := h.started
  rw [exec_envInit] at hinit
  obtain ⟨-, rfl⟩ := Prod.mk.inj hinit
  obtain ⟨P, hl, hp, hok⟩ := hs.kernelOk
  refine ⟨P, v.free, hl, hs.views.chain, hp, ⟨hok, fun e he => ?_⟩, fun _ _ => rfl, fun p => ?_⟩
  · simp [Kernel.curenv, Kernel.envInited, Boot.kernel] at he
  · have hdirs : b.kernel.envInited.dirs = fun _ => none := funext fun e => if_pos rfl
    rw [hdirs, refs, count_eq_zero.mpr fun r hr => by simp [target_noDirs] at hr]
    exact Nat.zero_le _

end

/-! ## A machine with memory enough starts -/

section
variable {mach : Machine} {v : BootView} {L : Layout}

theorem pteAddr_frames (ha : pa.toNat % 4096 = 0) (hp : IsPerm perm) (j : Nat) :
    pteAddr (frames pa perm j) = pa + BitVec.ofNat 32 (pgsize * j) := by
  apply BitVec.eq_of_toNat_eq
  rw [pteAddr_toNat, frames, pgnum_or isPerm_pteP, pgnum_or hp, pgnum_eq, BitVec.toNat_add, BitVec.toNat_ofNat]
  unfold pgsize
  omega

theorem entryPage_frames (pa perm : Word) (j : Nat) : entryPage (frames pa perm j) ≠ none := by
  have h : frames pa perm j &&& pteP = pteP := by
    unfold frames
    rw [BitVec.or_comm]
    exact present_or (by decide)
  rw [entryPage_eq_some.mpr ⟨h, rfl⟩]
  simp

theorem va2pa_region (h : v.Enough r) (hn : g + n ≤ 1048576) (hi : i < n) (ha : pa.toNat % 4096 = 0)
    (hp : IsPerm perm) :
    (v.region g (frames pa perm) perm n).va2pa (g + i) = pa + BitVec.ofNat 32 (pgsize * i) := by
  have hpde := BootView.present_of_sub (BootView.region_sub (w := frames pa perm) (f := perm) h hn hi)
  have hpte := BootView.region_pte (w := frames pa perm) (f := perm) (d := (g + i) / 1024) h hn
    (Nat.mod_lt (g + i) (by decide))
  have hidx : 1024 * ((g + i) / 1024) + (g + i) % 1024 = g + i := Nat.div_add_mod ..
  rw [hidx, if_pos (by omega), Nat.add_sub_cancel_left] at hpte
  rw [BootView.va2pa, hpte, if_neg (Option.isSome_iff_ne_none.mp hpde), if_neg (entryPage_frames pa perm i),
    pteAddr_frames ha hp]

theorem va2pa_congr {v' : BootView} (hp : v'.pde (g / 1024) = v.pde (g / 1024))
    (ht : v'.pte (g / 1024) = v.pte (g / 1024)) : v'.va2pa g = v.va2pa g := by
  unfold BootView.va2pa
  rw [hp, ht]

variable (mach) in
theorem enough_kstacks (h : v.Enough r) (hn : n ≤ 8) : (v.kstacks mach n).Enough r := by
  induction n with
  | zero => exact h
  | succ n ih =>
    rw [BootView.kstacks_succ]
    exact (ih (by omega)).region (by omega)

/-- The table entries for the kernel stacks: stack `m` lies `16 * m` pages below the top. -/
theorem kstacks_pte (h : v.Enough r) (hn : n ≤ 8) (hx : 1024 * 959 + t = 0xEFFFF - y) (hy : y < 128) :
    (v.kstacks mach n).pte 959 t =
      if y % 16 < 8 ∧ y / 16 < n then frames (mach.percpuKstacks (y / 16)) (pteW ||| pteP) (7 - y % 16)
      else v.pte 959 t := by
  induction n with
  | zero =>
    rw [if_neg (by omega)]
    rfl
  | succ n ih =>
    rw [BootView.kstacks_succ, BootView.region_pte (enough_kstacks mach h (by omega)) (by omega) (by omega), ih (by omega),
      hx]
    by_cases hm : y / 16 = n ∧ y % 16 < 8
    · obtain ⟨rfl, hlt⟩ := hm
      rw [if_pos (by omega), if_pos (by omega)]
      congr 1
      omega
    · have hiff : (y % 16 < 8 ∧ y / 16 < n + 1) ↔ (y % 16 < 8 ∧ y / 16 < n) := by omega
      rw [if_neg (by omega)]
      simp only [hiff]

theorem mmioTested_enough (h : v.Enough r) : v.mmioTested.Enough r := by
  have h1 := (h.region (g := 0xEF800) (w := frames 0 (ptePCD ||| ptePWT ||| pteW))
    (f := ptePCD ||| ptePWT ||| pteW) (n := 2) (by decide)).region (g := 0xEF802)
    (w := frames 0 (ptePCD ||| ptePWT ||| pteW)) (f := ptePCD ||| ptePWT ||| pteW) (n := 1) (by decide)
  exact h1

theorem mmioTested_present (h : v.Enough r) : (entryPage (v.mmioTested.pde 958)).isSome = true := by
  have h1 := BootView.region_sub (h.region (g := 0xEF800) (w := frames 0 (ptePCD ||| ptePWT ||| pteW))
    (f := ptePCD ||| ptePWT ||| pteW) (n := 2) (by decide)) (g := 0xEF802)
    (w := frames 0 (ptePCD ||| ptePWT ||| pteW)) (f := ptePCD ||| ptePWT ||| pteW) (n := 1) (j := 0) (by decide)
    (by decide)
  exact BootView.present_of_sub h1

theorem mmioTested_pte (hd : d ≠ 958) : v.mmioTested.pte d = v.pte d := by
  unfold BootView.mmioTested BootView.clear
  dsimp only
  rw [Function.update_of_ne hd, Function.update_of_ne hd, Function.update_of_ne hd,
    (BootView.region_of_ne fun j hj => by omega).2, (BootView.region_of_ne fun j hj => by omega).2]

theorem and_ne_zero_of_sub {x b : Word} (h : Sub (b ||| c) x) (hb : b ≠ 0) : x &&& b ≠ 0 := by
  have hb' : Sub b x := ((sub_refl b).or_right c).trans h
  unfold Sub at hb'
  rw [BitVec.and_comm, hb']
  exact hb

theorem pteP_ne_zero_of_present {x : Word} (h : (entryPage x).isSome = true) : x &&& pteP ≠ 0 := by
  rw [BootView.isSome_entryPage.mp h]
  decide

theorem kernelMaps_phys (h : v.Enough r) (hi : i < 65536) :
    (v.kernelMaps mach).va2pa (0xF0000 + i) = 0 + BitVec.ofNat 32 (pgsize * i) := by
  have h1 := h.region (g := 0xEFFF8) (w := frames mach.bootstack (pteW ||| pteP)) (f := pteW ||| pteP) (n := 8)
    (by decide)
  rw [BootView.kernelMaps]
  obtain ⟨hp, ht⟩ := BootView.kstacks_of_ne (v := (v.region 0xEFFF8 (frames mach.bootstack (pteW ||| pteP))
    (pteW ||| pteP) 8).region 0xF0000 (frames 0 (pteW ||| pteP)) (pteW ||| pteP) 65536) mach
    (d := (0xF0000 + i) / 1024) (by omega) (Nat.le_refl ncpu)
  rw [va2pa_congr hp ht]
  exact va2pa_region h1 (by decide) hi (by decide) (by decide)

variable (mach) in
theorem kernelMaps_pte959 (h : v.Enough r) (hz : ∀ t, v.pte 959 t = 0#32) (hx : 1024 * 959 + t = 0xEFFFF - y)
    (hy : y < 128) :
    (v.kernelMaps mach).pte 959 t =
      if y % 16 < 8 then frames (mach.percpuKstacks (y / 16)) (pteW ||| pteP) (7 - y % 16) else 0#32 := by
  have h1 := h.region (g := 0xEFFF8) (w := frames mach.bootstack (pteW ||| pteP)) (f := pteW ||| pteP) (n := 8)
    (by decide)
  have h2 := h1.region (g := 0xF0000) (w := frames 0 (pteW ||| pteP)) (f := pteW ||| pteP) (n := 65536) (by decide)
  rw [BootView.kernelMaps, kstacks_pte h2 (Nat.le_refl ncpu) hx hy,
    (BootView.region_of_ne fun j hj => by omega).2, BootView.region_pte h (by decide) (by omega), hz, hx]
  by_cases hm : y % 16 < 8
  · rw [if_pos hm, if_pos ⟨hm, by unfold ncpu; omega⟩]
  · rw [if_neg hm, if_neg (fun h => hm h.1), if_neg (by omega)]

variable (mach) in
theorem kernelMaps_pde959 (h : v.Enough r) : Sub (pteW ||| pteP ||| pteP) ((v.kernelMaps mach).pde 959) := by
  have h1 := h.region (g := 0xEFFF8) (w := frames mach.bootstack (pteW ||| pteP)) (f := pteW ||| pteP) (n := 8)
    (by decide)
  have h2 := h1.region (g := 0xF0000) (w := frames 0 (pteW ||| pteP)) (f := pteW ||| pteP) (n := 65536) (by decide)
  have hsub := BootView.region_sub (w := frames (mach.percpuKstacks 7) (pteW ||| pteP)) (f := pteW ||| pteP)
    (g := 0xEFFF8 - 16 * 7) (n := 8) (j := 0) (enough_kstacks mach (n := 7) h2 (by decide)) (by decide)
    (by decide)
  have hidx : (0xEFFF8 - 16 * 7 + 0) / 1024 = 959 := by decide
  rw [hidx] at hsub
  rw [BootView.kernelMaps, show ncpu = 7 + 1 from rfl, BootView.kstacks_succ]
  exact hsub

variable (mach) in
theorem kernelMaps_pdeHigh (h : v.Enough r) (hd : 960 ≤ d) (hlt : d < 1024) :
    Sub (pteW ||| pteP ||| pteP) ((v.kernelMaps mach).pde d) := by
  have h1 := h.region (g := 0xEFFF8) (w := frames mach.bootstack (pteW ||| pteP)) (f := pteW ||| pteP) (n := 8)
    (by decide)
  have hsub := BootView.region_sub (w := frames 0 (pteW ||| pteP)) (f := pteW ||| pteP) h1 (g := 0xF0000)
    (n := 65536) (j := 1024 * (d - 960)) (by decide) (by omega)
  have hidx : (0xF0000 + 1024 * (d - 960)) / 1024 = d := by omega
  rw [hidx] at hsub
  rw [BootView.kernelMaps, (BootView.kstacks_of_ne mach (by omega) (Nat.le_refl ncpu)).1]
  exact hsub

theorem kernelMaps_kstack (h : v.Enough r) (hz : ∀ t, v.pte 959 t = 0#32) (hn : n < 8) (hi : i < 8) :
    (v.kernelMaps mach).va2pa (0xF0000 - 16 * (n + 1) + 8 + i) =
        mach.percpuKstacks n + BitVec.ofNat 32 (pgsize * i) ∧
      (v.kernelMaps mach).va2pa (0xF0000 - 16 * (n + 1) + i) = 0xFFFFFFFF := by
  have hpres := Option.isSome_iff_ne_none.mp (BootView.present_of_sub (kernelMaps_pde959 mach h))
  constructor
  · have hd : (0xF0000 - 16 * (n + 1) + 8 + i) / 1024 = 959 := by omega
    have hpte := kernelMaps_pte959 mach (t := (0xF0000 - 16 * (n + 1) + 8 + i) % 1024)
      (y := 16 * n + (7 - i)) h hz (by omega) (by omega)
    rw [if_pos (by omega), show (16 * n + (7 - i)) / 16 = n by omega,
      show 7 - (16 * n + (7 - i)) % 16 = i by omega] at hpte
    rw [BootView.va2pa, hd, if_neg hpres, hpte, if_neg (entryPage_frames _ _ _),
      pteAddr_frames (mach.percpuKstacks_aligned n) (by decide)]
  · have hd : (0xF0000 - 16 * (n + 1) + i) / 1024 = 959 := by omega
    have hpte := kernelMaps_pte959 mach (t := (0xF0000 - 16 * (n + 1) + i) % 1024)
      (y := 16 * n + (15 - i)) h hz (by omega) (by omega)
    rw [if_neg (by omega)] at hpte
    rw [BootView.va2pa, hd, if_neg hpres, hpte, if_pos entryPage_zero]

theorem windows_enough (h : v.Enough r) : (v.windows L).Enough r := by
  rw [BootView.windows]
  exact (h.region (by decide)).region (by decide)

theorem windows_of_ne (hd : d ≠ 955) (hd' : d ≠ 956) :
    (v.windows L).pde d = v.pde d ∧ (v.windows L).pte d = v.pte d := by
  rw [BootView.windows, (BootView.region_of_ne fun j hj => by omega).1, (BootView.region_of_ne fun j hj => by omega).1,
    (BootView.region_of_ne fun j hj => by omega).2, (BootView.region_of_ne fun j hj => by omega).2]
  exact ⟨rfl, rfl⟩

theorem windows_pages (h : v.Enough r) (ha : L.pages % 4096 = 0) (hi : i < 1024) :
    (v.windows L).va2pa (0xEF000 + i) = BitVec.ofNat 32 L.pages + BitVec.ofNat 32 (pgsize * i) := by
  obtain ⟨hp, ht⟩ := BootView.region_of_ne (v := v.region 0xEF000 (frames (BitVec.ofNat 32 L.pages) pteU) pteU 1024)
    (g := 0xEEC00) (n := 1024) (d := (0xEF000 + i) / 1024) (w := frames (BitVec.ofNat 32 L.envs) pteU) (f := pteU)
    fun j hj => by omega
  rw [BootView.windows, va2pa_congr hp ht]
  refine va2pa_region h (by decide) hi ?_ (by decide)
  bv_omega

theorem windows_envs (h : v.Enough r) (ha : L.envs % 4096 = 0) (hi : i < 1024) :
    (v.windows L).va2pa (0xEEC00 + i) = BitVec.ofNat 32 L.envs + BitVec.ofNat 32 (pgsize * i) := by
  rw [BootView.windows]
  refine va2pa_region (h.region (by decide)) (by decide) hi ?_ (by decide)
  bv_omega

theorem windows_pde (h : v.Enough r) (hd : d = 955 ∨ d = 956) : (v.windows L).pde d &&& pteP ≠ 0 := by
  have h1 := h.region (g := 0xEF000) (w := frames (BitVec.ofNat 32 L.pages) pteU) (f := pteU) (n := 1024)
    (by decide)
  have hsub := BootView.region_sub (w := frames (BitVec.ofNat 32 L.pages) pteU) (f := pteU) (g := 0xEF000)
    (n := 1024) (j := 0) h (by decide) (by decide)
  have hsub' := BootView.region_sub (w := frames (BitVec.ofNat 32 L.envs) pteU) (f := pteU) (g := 0xEEC00)
    (n := 1024) (j := 0) h1 (by decide) (by decide)
  rw [show (0xEF000 + 0) / 1024 = 956 by decide] at hsub
  rw [show (0xEEC00 + 0) / 1024 = 955 by decide] at hsub'
  rw [BootView.windows]
  obtain rfl | rfl := hd
  · exact pteP_ne_zero_of_present (BootView.present_of_sub hsub')
  · rw [(BootView.region_of_ne fun j hj => by omega).1]
    exact pteP_ne_zero_of_present (BootView.present_of_sub hsub)

theorem passes_of_enough (h : v.Enough r) (hz : ∀ d, d ≠ 957 → d ≠ 958 → v.pde d = 0#32)
    (h957 : v.pde 957 &&& pteP ≠ 0) (h958 : v.pde 958 &&& pteP ≠ 0) (ht : ∀ t, v.pte 959 t = 0#32)
    (hpages : L.pages % 4096 = 0) (henvs : L.envs % 4096 = 0) (hle : L.npages ≤ 16639) :
    ((v.windows L).kernelMaps mach).Passes mach L := by
  have hw := windows_enough (L := L) h
  have htw : ∀ t, (v.windows L).pte 959 t = 0#32 := fun t => by
    rw [(windows_of_ne (by decide) (by decide)).2]
    exact ht t
  have hlow : ∀ g, g / 1024 < 959 → ((v.windows L).kernelMaps mach).va2pa g = (v.windows L).va2pa g := fun g hg => by
    obtain ⟨hp, ht⟩ := BootView.kernelMaps_of_lt (v := v.windows L) mach hg
    exact va2pa_congr hp ht
  refine ⟨fun i hi => ?_, fun i hi => ?_, fun i hi => kernelMaps_phys hw (by omega), fun n hn => ⟨fun i hi => ?_,
    fun i hi => ?_⟩, fun i hi => ?_⟩
  · have : roundupPage (L.npages * sizeofPageInfo) / pgsize ≤ 33 := by
      unfold roundupPage sizeofPageInfo pgsize
      omega
    rw [hlow _ (by omega), windows_pages h hpages (by omega)]
  · have : roundupPage (nenv * sizeofEnv) / pgsize = 31 := by decide
    rw [hlow _ (by omega), windows_envs h henvs (by omega)]
  · exact (kernelMaps_kstack hw htw hn hi).1
  · exact (kernelMaps_kstack hw htw hn hi).2
  · have hlt : i < 1024 := hi
    have huvpt : pdx uvpt = 957 := pdx_uvpt
    have hstack : pdx (kstacktop - 1) = 959 := by decide
    have hbase : pdx kernbase = 960 := by decide
    have hmmio : pdx mmiobase = 958 := by decide
    unfold kernPdeOk
    rw [huvpt, hstack, pdx_upages, pdx_uenvs, hmmio, hbase]
    by_cases hhigh : 960 ≤ i
    · have hsub := kernelMaps_pdeHigh mach hw hhigh hlt
      rw [if_neg (by omega), if_pos hhigh]
      have hP : Sub (pteP ||| pteW) (((v.windows L).kernelMaps mach).pde i) := hsub
      have hW : Sub (pteW ||| pteP) (((v.windows L).kernelMaps mach).pde i) := hsub
      simpa using ⟨and_ne_zero_of_sub hP (by decide), and_ne_zero_of_sub hW (by decide)⟩
    · by_cases h959 : i = 959
      · subst h959
        have hP : Sub (pteP ||| pteW) (((v.windows L).kernelMaps mach).pde 959) := kernelMaps_pde959 mach hw
        simpa using and_ne_zero_of_sub hP (by decide)
      · rw [(BootView.kernelMaps_of_lt mach (by omega)).1]
        by_cases hwin : i = 955 ∨ i = 956
        · rw [if_pos (by omega)]
          simpa using windows_pde h hwin
        · rw [(windows_of_ne (by omega) (by omega)).1]
          by_cases hspecial : i = 957 ∨ i = 958
          · rw [if_pos (by omega)]
            obtain rfl | rfl := hspecial
            · simpa using h957
            · simpa using h958
          · rw [if_neg (by omega), if_neg (by omega), hz i (by omega) (by omega)]
            rfl

theorem Tested.refl (hc : Chain s.next s.pageFreeList l) (hu : s.uninit ≠ 0) : Tested s s where
  layout := rfl
  uninit := hu
  ref _ := rfl
  free := ⟨l, l, hc, hc, .refl l, fun _ _ => rfl, fun _ _ => rfl⟩

theorem firstView_enough (h : 1024 + r ≤ mach.freeList.length) : mach.firstView.Enough r :=
  Nat.le_trans h (Nat.le_add_right _ _)

variable (mach) in
theorem kernelMaps_enough (h : v.Enough r) : (v.kernelMaps mach).Enough r := by
  rw [BootView.kernelMaps]
  exact enough_kstacks mach ((h.region (by decide)).region (by decide)) (Nat.le_refl ncpu)

/-- A machine with memory for every table there can be starts, and pages
beyond these are free then. -/
theorem boots_of_memory (mach : Machine) (h : 1024 + r ≤ mach.freeList.length) (hfirst : mach.first ≤ mach.npages) :
    ∃ k l, Boots mach k ∧ k.FreeList l ∧ r ≤ l.length := by
  have hen := firstView_enough h
  obtain ⟨_, b1, hpages, h1, -⟩ := ((memInitPages_views mach fun _ => 0#8).never
    fun _ _ hx => Nat.not_lt.mpr hfirst hx).returns
  have hp958 := mmioTested_present hen
  obtain ⟨_, b1', hmmio, h2⟩ := ((checkMmio_views h1).never fun _ _ hx => by rw [hx] at hp958; simp at hp958).returns
  have hpass : ((mach.firstView.mmioTested.windows mach.layout).kernelMaps mach).Passes mach mach.layout := by
    refine passes_of_enough (mmioTested_enough hen) (fun d hd hd' => ?_) ?_ (pteP_ne_zero_of_present hp958) (fun t => ?_)
      (Nat.mul_mod_left _ _) (Nat.mul_mod_left _ _) mach.npages_le
    · rw [mmioTested_pde hd']
      exact firstView_pde mach hd
    · rw [mmioTested_pde (by decide)]
      have hself : mach.firstView.pde 957 = BitVec.ofNat 32 (mach.kq * pgsize) ||| pteU ||| pteP := by
        simp [Machine.firstView, pdx_uvpt]
      rw [hself, BitVec.or_comm]
      exact pteP_ne_zero_of_present (BootView.isSome_entryPage.mpr (present_or (by decide)))
    · rw [mmioTested_pte (by decide)]
      rfl
  obtain ⟨_, b2, hmaps, h3, -⟩ := ((memInitMaps_views h2 mach.npages_le).never
    fun _ _ hx => hx hpass).returns
  have hspare := (kernelMaps_enough mach (windows_enough (L := mach.layout) (mmioTested_enough hen))).spare
  refine ⟨b2.kernel.envInited, _, ?_, h3.views.chain, hspare⟩
  exact .intro (fun _ => 0#8) b1 b2 b2 b2 b1.pmap b2.pmap [] hpages (.refl h1.views.chain h1.views.uninit)
    ((exec_bind_ok hmmio).trans hmaps) (.refl h3.views.chain h3.views.uninit) rfl rfl (exec_envInit b2.kernel)

def pc64 : Machine where
  basemem := 640
  extmem := 64512
  kernelEnd := 0x180000
  bootstack := 0x110000
  percpuKstacks i := BitVec.ofNat 32 (4096 * (0x120 + 8 * i))
  kernelEnd_ge := by decide
  kernelEnd_le := by decide
  percpuKstacks_aligned i := by
    rw [BitVec.toNat_ofNat]
    omega

theorem pc64_npages : pc64.npages = 16384 := by decide

theorem pc64_first : pc64.first = 448 := by decide

theorem pc64_free (h : 448 ≤ p) (h' : p < 16384) : pc64.Free p := by
  unfold Machine.Free
  rw [pc64_npages, pc64_first]
  omega

theorem pc64_freeList_length : 15936 ≤ pc64.freeList.length := by
  have hsub : List.range' 448 15936 ⊆ pc64.freeList := fun p hp => by
    rw [List.mem_range'_1] at hp
    simp only [Machine.freeList, List.mem_reverse, List.mem_filter, List.mem_range, decide_eq_true_eq, pc64_npages]
    exact ⟨by omega, pc64_free hp.1 (by omega)⟩
  have hlen := (List.subperm_of_subset List.nodup_range' hsub).length_le
  rwa [List.length_range'] at hlen

theorem pc64_boots : ∃ k l, Boots pc64 k ∧ k.FreeList l ∧ 14912 ≤ l.length :=
  boots_of_memory pc64 pc64_freeList_length (by rw [pc64_first, pc64_npages]; decide)

end

end Jos
