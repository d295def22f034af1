import Jos.Kern.BootLaws

/-!
# What `mem_init` leaves

`mem_init` computes on views, step by step, and `check_kern_pgdir` lets pass
only a view in which everything is mapped. A kernel that has started
therefore stands on a `Platform` with no environment on it; and a machine with
memory enough does start.
-/

namespace Jos

open Lib

section
variable {L : Layout} {kq : Nat} {R : Nat → Prop} {v : BootView} {s : Pmap} {b : Boot}

theorem exec_liftBoot_ok (h : exec m b.pmap = (.ok a, s)) : exec (liftBoot m) b = (.ok a, { b with pmap := s }) := by
  simp [liftBoot, exec_bind, exec_map, h]

theorem liftBoot_triple {m : PmapM α} {Q : α → Pmap → Prop} {E : Panic → Pmap → Prop}
    (h : Triple m b.pmap Q E) :
    Triple (liftBoot m) b (fun a b' => Q a b'.pmap ∧ b'.nextfree = b.nextfree ∧ b'.base = b.base)
      (fun x b' => E x b'.pmap) := by
  cases hm : exec m b.pmap with
  | mk r s =>
    cases r with
    | ok a => exact .of_ok (exec_liftBoot_ok hm) ⟨h.ok hm, rfl, rfl⟩
    | error p =>
      have hexec : exec (liftBoot m) b = (.error p, { b with pmap := s }) := by
        simp [liftBoot, exec_bind, hm]
      exact .of_error hexec (h.error hm)

/-! ## The device window -/

theorem roundup_toNat (size : Word) : (roundup size 4096).toNat = ((size + 4096 - 1).toNat / 4096) * 4096 := by
  unfold roundup rounddown
  have hm : ((size + 4096 - 1) % 4096).toNat = (size + 4096 - 1).toNat % 4096 := BitVec.toNat_umod
  rw [BitVec.toNat_sub, hm]
  omega

theorem roundup_pages (size : Word) : (roundup size 4096).toNat = pgsize * ((size + 4096 - 1).toNat / 4096) := by
  rw [roundup_toNat, Nat.mul_comm]
  rfl

/-- The state of the device window: `base` is page `g` of the address space. -/
structure MmioAt (L : Layout) (kq : Nat) (R : Nat → Prop) (v : BootView) (g : Nat) (b : Boot) : Prop where
  views : Views L kq R v b.pmap
  base : b.base.toNat = pgsize * g
  ge : 0xEF800 ≤ g
  le : g ≤ 0xEFC00

theorem mmioMapRegion_views (h : MmioAt L kq R v g b) (hn : (roundup z 4096).toNat = pgsize * n) :
    Triple (mmioMapRegion a z) b
      (fun r b' => r = b.base ∧ MmioAt L kq R
        (v.region g (frames a (ptePCD ||| ptePWT ||| pteW)) (ptePCD ||| ptePWT ||| pteW) n) (g + n) b')
      (fun e _ => (e = .mmioMapRegion ∨ e = .bootMapRegion) ∧ 0xEFC00 < g + n) := by
  have hge := h.ge
  have hb := h.base
  have hsum : (b.base + roundup z 4096).toNat = pgsize * (g + n) % 4294967296 := by
    rw [BitVec.toNat_add, hb, hn, Nat.mul_add]
  have hlim : mmiolim.toNat = 0xEFC00000 := by decide
  refine .get_bind ?_
  dsimp only
  split
  · rename_i hgt
    refine .throw ⟨.inl rfl, ?_⟩
    rw [gt_iff_lt, BitVec.lt_def, hsum, hlim] at hgt
    unfold pgsize at hgt
    omega
  · rename_i hngt
    refine .get_bind ?_
    by_cases hfit : g + n ≤ 0xEFC00
    · have hpg : b.pmap.layout.kernPgdir = kq * pgsize := by rw [h.views.layout, h.views.pgdir]
      rw [hpg]
      have hreg := bootMapRegion_views (a := a) (f := ptePCD ||| ptePWT ||| pteW) (n := n) h.views h.base
        (z := roundup z 4096) (by rw [hn]; unfold pgsize; omega) (by omega)
        (fun j hj => by unfold Mine; rw [pdx_uvpt]; omega) (by decide)
      refine .bind (liftBoot_triple hreg |>.imp_error fun _ _ hx => ?_) ?_
      · rw [BitVec.lt_def, hsum, hb] at hx
        unfold pgsize at hx
        omega
      · rintro _ b' ⟨hv, -, hbase⟩
        refine .modify_bind ?_
        refine .pure ⟨rfl, hv, ?_, by omega, hfit⟩
        rw [hsum]
        unfold pgsize
        omega
    · -- The sum wrapped, which `boot_map_region` notices.
      have hwrap : b.base + roundup z 4096 < b.base := by
        rw [BitVec.not_lt, BitVec.le_def, hsum, hlim] at hngt
        rw [BitVec.lt_def, hsum, hb]
        unfold pgsize at *
        omega
      have hthrow : Triple (bootMapRegion b.pmap.layout.kernPgdir b.base (roundup z 4096) a
          (ptePCD ||| ptePWT ||| pteW)) b.pmap (fun _ _ => False)
          (fun e _ => (e = .mmioMapRegion ∨ e = .bootMapRegion) ∧ 0xEFC00 < g + n) := by
        unfold bootMapRegion
        rw [if_pos hwrap]
        exact .throw ⟨.inr rfl, by omega⟩
      exact .bind (liftBoot_triple hthrow) fun _ _ h => h.1.elim

def BootView.clear (v : BootView) (d t : Nat) : BootView :=
  { v with pte := Function.update v.pte d (Function.update (v.pte d) t 0#32) }

theorem Views.clear (h : Views L kq R v s) (ho : Mine d) (hd : d < 1024) (hk : t < 1024)
    (ht : tableOf (oneDir kq) s.mem () d = some pt) :
    Views L kq R (v.clear d t) { s with mem := s.mem.write32 (pt * pgsize + 4 * t) 0#32 } := by
  have hpde : ∀ d', d' < 1024 → pdeOf (oneDir kq) (s.mem.write32 (pt * pgsize + 4 * t) 0#32) () d' =
      pdeOf (oneDir kq) s.mem () d' := fun d' hd' => pdeOf_storePte h.sep ht ho hd hk hd'
  have htable : ∀ d', d' < 1024 → tableOf (oneDir kq) (s.mem.write32 (pt * pgsize + 4 * t) 0#32) () d' =
      tableOf (oneDir kq) s.mem () d' := fun d' hd' => congrArg entryPage (hpde d' hd')
  refine ⟨h.layout, h.uninit, h.pgdir, h.kq_pos, h.range, h.chain, h.free, fun hd' => (hpde _ hd').trans (h.pde hd'),
    fun {d' t'} ho' hd' hk' => ?_, h.sep.congr fun _ d' _ hd' => htable d' hd', fun {d' pt'} ho' hd' ht' => ?_⟩
  · rw [pteOf_storePte h.sep ht ho hd hk ho' hd' hk', h.pte ho' hd' hk']
    by_cases hdd : d' = d
    · subst hdd
      simp [BootView.clear, Function.update_apply]
    · simp [BootView.clear, hdd]
  · rw [htable d' hd'] at ht'
    exact h.table ho' hd' ht'

theorem clear_views (va : Word) (h : Views L kq R v s) (ho : Mine (pdx va)) :
    Triple (do
      match ← pgdirWalk (kq * pgsize) va false with
      | none => throw .kernelFault
      | some ptep => store ptep 0#32) s
      (fun _ s' => Views L kq R (v.clear (pdx va) (ptx va)) s') (fun _ _ => entryPage (v.pde (pdx va)) = none) := by
  have hd := pdx_lt va
  cases ht : tableOf (oneDir kq) s.mem () (pdx va) with
  | none =>
    have hwalk : exec (pgdirWalk (kq * pgsize) va false) s = (.ok none, s) := by
      have he : entryPage (s.mem.read32 (kq * pgsize + 4 * pdx va)) = none := ht
      rw [exec_pgdirWalk_false, he]
    refine .ok_bind hwalk ?_
    exact .throw ((h.tableOf_eq hd).symm.trans ht)
  | some pt =>
    obtain ⟨hpos, hlt, -⟩ := h.range (h.table ho hd ht).1
    rw [← h.layout] at hlt
    have hne : pt * pgsize + 4 * ptx va ≠ 0 := by
      unfold pgsize
      omega
    refine .ok_bind (exec_pgdirWalk_present ht hlt) ?_
    exact .of_ok (exec_store hne) (h.clear ho hd (ptx_lt va) ht)

def BootView.mmioTested (v : BootView) : BootView :=
  let perm := ptePCD ||| ptePWT ||| pteW
  let v := (v.region 0xEF800 (frames 0 perm) perm 2).region 0xEF802 (frames 0 perm) perm 1
  ((v.clear 958 0).clear 958 1).clear 958 2

theorem checkMmio_views (h : MmioAt L kq R v 0xEF800 b) :
    Triple checkMmio b (fun _ b' => MmioAt L kq R v.mmioTested 0xEF803 b')
      (fun _ _ => entryPage (v.mmioTested.pde 958) = none) := by
  have hbase : b.base = mmiobase := BitVec.eq_of_toNat_eq (by rw [h.base]; decide)
  refine .bind ((mmioMapRegion_views (a := 0) (z := 4097) (n := 2) h (by decide)).imp_error fun _ _ hx => by omega) ?_
  rintro _ b1 ⟨rfl, h1⟩
  have hbase1 : b1.base = mmiobase + 8192 := BitVec.eq_of_toNat_eq (by rw [h1.base]; decide)
  refine .bind ((mmioMapRegion_views (a := 0) (z := 4096) (n := 1) h1 (by decide)).imp_error fun _ _ hx => by omega) ?_
  rintro _ b2 ⟨rfl, h2⟩
  refine .get_bind ?_
  have hpg : b2.pmap.layout.kernPgdir = kq * pgsize := by rw [h2.views.layout, h2.views.pgdir]
  rw [hpg, hbase, hbase1]
  have hidx0 : pdx mmiobase = 958 ∧ ptx mmiobase = 0 := by decide
  have hidx1 : pdx (mmiobase + 4096) = 958 ∧ ptx (mmiobase + 4096) = 1 := by decide
  have hidx2 : pdx (mmiobase + 8192) = 958 ∧ ptx (mmiobase + 8192) = 2 := by decide
  have hclear : ∀ {v' : BootView} {va : Word} {t : Nat} {b' : Boot}, pdx va = 958 ∧ ptx va = t →
      MmioAt L kq R v' 0xEF803 b' → v'.pde 958 = v.mmioTested.pde 958 →
      Triple (liftBoot do
        match ← pgdirWalk (kq * pgsize) va false with
        | none => throw .kernelFault
        | some ptep => store ptep 0#32) b'
        (fun _ b'' => MmioAt L kq R (v'.clear 958 t) 0xEF803 b'')
        (fun _ _ => entryPage (v.mmioTested.pde 958) = none) := by
    rintro v' va t b' ⟨hd, rfl⟩ hv hpde
    have hc := clear_views va hv.views (by rw [hd]; decide)
    rw [hd, hpde] at hc
    exact (liftBoot_triple hc).imp (fun _ _ ⟨hv', _, hb⟩ => ⟨hv', by rw [hb]; exact hv.base, hv.ge, hv.le⟩)
  refine .bind (hclear hidx0 h2 rfl) fun _ _ h3 => ?_
  refine .bind (hclear hidx1 h3 rfl) fun _ _ h4 => ?_
  exact .bind (hclear hidx2 h4 rfl) fun _ _ h5 => .pure h5

/-! ## `check_kern_pgdir` -/

def BootView.va2pa (v : BootView) (g : Nat) : Word :=
  if entryPage (v.pde (g / 1024)) = none then 0xFFFFFFFF
  else if entryPage (v.pte (g / 1024) (g % 1024)) = none then 0xFFFFFFFF
  else pteAddr (v.pte (g / 1024) (g % 1024))

theorem and_pteP_eq_zero {w : Word} : w &&& pteP = 0 ↔ entryPage w = none := by
  rw [entryPage_eq_none, present_iff]
  have hw : (w &&& pteP).toNat = w.toNat % 2 := by
    exact Nat.and_one_is_mod _
  bv_omega

theorem exec_checkVa2pa (h : Views L kq R v s) (ho : Mine (pdx va)) (hd : pdx va = g / 1024)
    (ht : ptx va = g % 1024) : exec (checkVa2pa (kq * pgsize) va) s = (.ok (v.va2pa g), s) := by
  have hlt := pdx_lt va
  have hpde : s.mem.read32 (kq * pgsize + 4 * pdx va) = v.pde (pdx va) := h.pde hlt
  unfold checkVa2pa BootView.va2pa
  simp only [exec_bind, exec_load, hpde, and_pteP_eq_zero, ← hd, ← ht]
  by_cases he : entryPage (v.pde (pdx va)) = none
  · simp [he]
  · obtain ⟨pt, hpt⟩ := Option.ne_none_iff_exists'.mp he
    have htab : tableOf (oneDir kq) s.mem () (pdx va) = some pt := (h.tableOf_eq hlt).trans hpt
    have hpage := (entryPage_eq_some.mp hpt).2
    have hrange := (h.range (h.table ho hlt htab).1).2.1
    rw [← h.layout] at hrange
    have hpte : s.mem.read32 (pt * pgsize + 4 * ptx va) = v.pte (pdx va) (ptx va) := by
      rw [← h.pte ho hlt (ptx_lt va), pteOf_some htab]
    have hkaddr : exec (kaddr (pteAddr (v.pde (pdx va)))) s = (.ok (pt * pgsize), s) := by
      rw [exec_kaddr, pgnum_pteAddr, hpage, if_pos hrange, pteAddr_toNat, hpage]
      rfl
    simp only [if_neg he, exec_bind, hkaddr, exec_load, hpte]
    by_cases he' : entryPage (v.pte (pdx va) (ptx va)) = none
    · simp [he']
    · simp [he']

theorem exec_assertKernPgdir (p : Bool) : exec (assertKernPgdir p) s = if p then (.ok (), s) else (.error .kernPgdir, s) := by
  cases p <;> rfl

theorem checkLoop_triple {f : Nat → PmapM Unit} {p : Nat → Prop} (n : Nat)
    (hf : ∀ i, i < n → Triple (f i) s (fun _ s' => s = s' ∧ p i) (fun _ _ => ¬ p i)) :
    Triple ((List.range n).forM f) s (fun _ s' => s = s' ∧ ∀ i, i < n → p i) (fun _ _ => ¬ ∀ i, i < n → p i) := by
  refine .forM_range (I := fun j s' => s = s' ∧ ∀ i, i < j → p i) ⟨rfl, fun i hi => absurd hi (Nat.not_lt_zero i)⟩ ?_
  rintro j _ hj ⟨rfl, hok⟩
  refine (hf j hj).mono ?_ fun _ _ hx hall => hx (hall j hj)
  rintro _ _ ⟨rfl, hj'⟩
  refine ⟨rfl, fun i hi => ?_⟩
  obtain hlt | rfl := Nat.lt_succ_iff_lt_or_eq.mp hi
  · exact hok i hlt
  · exact hj'

theorem assert_triple {x : PmapM α} {f : α → Bool} (hx : exec x s = (.ok a, s)) (hf : f a = true ↔ ok) :
    Triple (do assertKernPgdir (f (← x))) s (fun _ s' => s = s' ∧ ok) (fun _ _ => ¬ ok) := by
  have hexec : exec (do assertKernPgdir (f (← x))) s = if f a then (.ok (), s) else (.error .kernPgdir, s) :=
    (exec_bind_ok hx).trans (exec_assertKernPgdir _)
  by_cases hok : f a = true
  · rw [if_pos hok] at hexec
    exact .of_ok hexec ⟨rfl, hf.mp hok⟩
  · rw [if_neg hok] at hexec
    exact .of_error hexec fun h => hok (hf.mpr h)

theorem checkPage_triple (h : Views L kq R v s) (hva : va.toNat = pgsize * g) (hi : g + i < 1048576)
    (ho : Mine ((g + i) / 1024)) (pa : Word) :
    Triple (do assertKernPgdir ((← checkVa2pa (kq * pgsize) (va + BitVec.ofNat 32 (pgsize * i))) == pa)) s
      (fun _ s' => s = s' ∧ v.va2pa (g + i) = pa) (fun _ _ => ¬ v.va2pa (g + i) = pa) := by
  obtain ⟨hd, ht⟩ := page_indices (j := i) hva hi
  exact assert_triple (f := (· == pa)) (exec_checkVa2pa h (hd ▸ ho) hd ht) beq_iff_eq

theorem checkRange_triple (h : Views L kq R v s) (hva : va.toNat = pgsize * g) (hn : g + n ≤ 1048576)
    (ho : ∀ i, i < n → Mine ((g + i) / 1024)) :
    Triple (checkRange (kq * pgsize) va pa n) s
      (fun _ s' => s = s' ∧ ∀ i, i < n → v.va2pa (g + i) = pa + BitVec.ofNat 32 (pgsize * i))
      (fun _ _ => ¬ ∀ i, i < n → v.va2pa (g + i) = pa + BitVec.ofNat 32 (pgsize * i)) :=
  checkLoop_triple n fun i hi => checkPage_triple h hva (by omega) (ho i hi) _

/-- What `check_kern_pgdir` asks for. -/
structure BootView.Passes (v : BootView) (mach : Machine) (L : Layout) : Prop where
  pages : ∀ i, i < roundupPage (L.npages * sizeofPageInfo) / pgsize →
    v.va2pa (0xEF000 + i) = BitVec.ofNat 32 L.pages + BitVec.ofNat 32 (pgsize * i)
  envs : ∀ i, i < roundupPage (nenv * sizeofEnv) / pgsize →
    v.va2pa (0xEEC00 + i) = BitVec.ofNat 32 L.envs + BitVec.ofNat 32 (pgsize * i)
  phys : ∀ i, i < L.npages → v.va2pa (0xF0000 + i) = 0 + BitVec.ofNat 32 (pgsize * i)
  kstacks : ∀ n, n < ncpu →
    (∀ i, i < 8 → v.va2pa (0xF0000 - 16 * (n + 1) + 8 + i) = mach.percpuKstacks n + BitVec.ofNat 32 (pgsize * i)) ∧
    ∀ i, i < 8 → v.va2pa (0xF0000 - 16 * (n + 1) + i) = 0xFFFFFFFF
  pdes : ∀ i, i < npdentries → kernPdeOk i (v.pde i) = true

theorem kstack_toNat : ∀ n, n < ncpu →
    (kstacktop - (kstksize + kstkgap) * BitVec.ofNat 32 (n + 1) + kstkgap).toNat =
      pgsize * (0xF0000 - 16 * (n + 1) + 8) ∧
    (kstacktop - (kstksize + kstkgap) * BitVec.ofNat 32 (n + 1)).toNat = pgsize * (0xF0000 - 16 * (n + 1)) ∧
    (kstacktop - BitVec.ofNat 32 n * (kstksize + kstkgap) - kstksize).toNat = pgsize * (0xEFFF8 - 16 * n) := by
  decide

variable (mach) in
theorem checkKernPgdir_triple (h : Views L kq R v s) (hle : L.npages ≤ 16639) :
    Triple (checkKernPgdir mach) s (fun _ s' => s = s' ∧ v.Passes mach L) (fun _ _ => ¬ v.Passes mach L) := by
  refine .get_bind ?_
  dsimp only
  rw [h.layout, h.pgdir]
  have hmine : ∀ g, 0xEEC00 ≤ g → g / 1024 ≠ 957 → Mine (g / 1024) := fun g _ hne => by
    unfold Mine
    exact hne
  have hpages : roundupPage (L.npages * sizeofPageInfo) / pgsize ≤ 33 := by
    unfold roundupPage sizeofPageInfo pgsize
    omega
  refine .bind ((checkRange_triple (g := 0xEF000) h (by decide) (by omega)
    fun i hi => hmine _ (by omega) (by omega)).imp_error fun _ _ hx hp => hx hp.pages) ?_
  rintro _ _ ⟨rfl, h1⟩
  refine .bind ((checkRange_triple (g := 0xEEC00) (n := roundupPage (nenv * sizeofEnv) / pgsize) h (by decide)
    (by decide) fun i hi => hmine _ (by omega) ?_).imp_error fun _ _ hx hp => hx hp.envs) ?_
  · have : roundupPage (nenv * sizeofEnv) / pgsize = 31 := by decide
    omega
  rintro _ _ ⟨rfl, h2⟩
  refine .bind ((checkRange_triple (g := 0xF0000) h (by decide) (by omega)
    fun i hi => hmine _ (by omega) (by omega)).imp_error fun _ _ hx hp => hx hp.phys) ?_
  rintro _ _ ⟨rfl, h3⟩
  refine .bind ((checkLoop_triple (p := fun n =>
    (∀ i, i < 8 → v.va2pa (0xF0000 - 16 * (n + 1) + 8 + i) = mach.percpuKstacks n + BitVec.ofNat 32 (pgsize * i)) ∧
    ∀ i, i < 8 → v.va2pa (0xF0000 - 16 * (n + 1) + i) = 0xFFFFFFFF) ncpu fun n hn => ?_).imp_error fun _ _ hx hp => hx hp.kstacks) ?_
  · obtain ⟨hs, hg, -⟩ := kstack_toNat n hn
    unfold ncpu at hn
    refine .bind ((checkRange_triple h hs (by omega) fun i hi => hmine _ (by omega) (by omega)).imp_error fun _ _ hx hp => hx hp.1) ?_
    rintro _ _ ⟨rfl, hs'⟩
    refine (checkLoop_triple 8 fun i hi => checkPage_triple h hg (by omega) (hmine _ (by omega) (by omega)) _).mono
      (fun _ _ h => ⟨h.1, hs', h.2⟩) fun _ _ hx hp => hx hp.2
  rintro _ _ ⟨rfl, h4⟩
  refine (checkLoop_triple (p := fun i => kernPdeOk i (v.pde i) = true) npdentries fun i hi => ?_).mono
    (fun _ _ h => ⟨h.1, h1, h2, h3, h4, h.2⟩) fun _ _ hx hp => hx hp.pdes
  refine assert_triple (f := kernPdeOk i) (exec_load _) ?_
  rw [show s.mem.read32 (kq * pgsize + 4 * i) = v.pde i from h.pde hi]

/-! ## The mappings of `mem_init` -/

def BootView.kstacks (v : BootView) (mach : Machine) (n : Nat) : BootView :=
  (List.range n).foldl (fun v i => v.region (0xEFFF8 - 16 * i) (frames (mach.percpuKstacks i) (pteW ||| pteP))
    (pteW ||| pteP) 8) v

theorem BootView.kstacks_succ : v.kstacks mach (n + 1) = (v.kstacks mach n).region (0xEFFF8 - 16 * n)
    (frames (mach.percpuKstacks n) (pteW ||| pteP)) (pteW ||| pteP) 8 := by
  simp [BootView.kstacks, List.range_succ, List.foldl_append]

def BootView.windows (v : BootView) (L : Layout) : BootView :=
  (v.region 0xEF000 (frames (BitVec.ofNat 32 L.pages) pteU) pteU 1024).region 0xEEC00
    (frames (BitVec.ofNat 32 L.envs) pteU) pteU 1024

def BootView.kernelMaps (v : BootView) (mach : Machine) : BootView :=
  ((v.region 0xEFFF8 (frames mach.bootstack (pteW ||| pteP)) (pteW ||| pteP) 8).region 0xF0000
    (frames 0 (pteW ||| pteP)) (pteW ||| pteP) 65536).kstacks mach ncpu

theorem mine_div (h : g / 1024 ≠ 957) : Mine (g / 1024) := by
  unfold Mine
  exact h

theorem kstack_noWrap : ∀ n, n < ncpu →
    ¬ (kstacktop - BitVec.ofNat 32 n * (kstksize + kstkgap) - kstksize) + kstksize <
      kstacktop - BitVec.ofNat 32 n * (kstksize + kstkgap) - kstksize := by
  decide

variable (mach) in
theorem memInitMp_views (h : Views L kq R v s) :
    Triple (memInitMp mach) s (fun _ s' => Views L kq R (v.kstacks mach ncpu) s') (fun _ _ => False) := by
  refine .get_bind ?_
  rw [h.layout, h.pgdir]
  refine .forM_range (I := fun j s' => Views L kq R (v.kstacks mach j) s') h fun n t hn ht => ?_
  obtain ⟨-, -, hva⟩ := kstack_toNat n hn
  have hwrap := kstack_noWrap n hn
  unfold ncpu at hn
  rw [BootView.kstacks_succ]
  exact (bootMapRegion_views ht hva (n := 8) (by decide) (by omega) (fun j hj => mine_div (by omega))
    (by decide)).imp_error fun _ _ hx => hwrap hx

theorem memInitMaps_views (h : MmioAt L kq R v g b) (hle : L.npages ≤ 16639) :
    Triple (memInitMaps mach) b
      (fun _ b' => MmioAt L kq R ((v.windows L).kernelMaps mach) g b' ∧ ((v.windows L).kernelMaps mach).Passes mach L)
      (fun _ _ => ¬ ((v.windows L).kernelMaps mach).Passes mach L) := by
  have hmaps : Triple (do
      let layout := (← get).layout
      let pgdir := layout.kernPgdir
      bootMapRegion pgdir upages ptsize (BitVec.ofNat 32 layout.pages) pteU
      bootMapRegion pgdir uenvs ptsize (BitVec.ofNat 32 layout.envs) pteU
      bootMapRegion pgdir (kstacktop - kstksize) kstksize mach.bootstack (pteW ||| pteP)
      bootMapRegion pgdir kernbase (0xFFFFFFFF - kernbase) 0 (pteW ||| pteP)
      memInitMp mach
      checkKernPgdir mach) b.pmap
      (fun _ s' => Views L kq R ((v.windows L).kernelMaps mach) s' ∧
        ((v.windows L).kernelMaps mach).Passes mach L)
      (fun _ _ => ¬ ((v.windows L).kernelMaps mach).Passes mach L) := by
    refine .get_bind ?_
    dsimp only
    rw [h.views.layout, h.views.pgdir]
    refine .bind ((bootMapRegion_views h.views (g := 0xEF000) (n := 1024) (by decide) (by decide) (by decide)
      (fun j hj => mine_div (by omega)) (by decide)).imp_error fun _ _ hx => absurd hx (by decide)) fun _ t1 h1 => ?_
    refine .bind ((bootMapRegion_views h1 (g := 0xEEC00) (n := 1024) (by decide) (by decide) (by decide)
      (fun j hj => mine_div (by omega)) (by decide)).imp_error fun _ _ hx => absurd hx (by decide)) fun _ t2 h2 => ?_
    refine .bind ((bootMapRegion_views h2 (g := 0xEFFF8) (n := 8) (by decide) (by decide) (by decide)
      (fun j hj => mine_div (by omega)) (by decide)).imp_error fun _ _ hx => absurd hx (by decide)) fun _ t3 h3 => ?_
    refine .bind ((bootMapRegion_views h3 (g := 0xF0000) (n := 65536) (by decide) (by decide) (by decide)
      (fun j hj => mine_div (by omega)) (by decide)).imp_error fun _ _ hx => absurd hx (by decide)) fun _ t4 h4 => ?_
    refine .bind ((memInitMp_views mach h4).imp_error fun _ _ hx => hx.elim) fun _ t5 h5 => ?_
    refine (checkKernPgdir_triple mach h5 hle).imp ?_
    rintro _ _ ⟨rfl, hp⟩
    exact ⟨h5, hp⟩
  refine (liftBoot_triple hmaps).imp ?_
  rintro _ b' ⟨⟨hv, hp⟩, -, hb⟩
  exact ⟨⟨hv, by rw [hb]; exact h.base, h.ge, h.le⟩, hp⟩

/-! ## What has been mapped when the checks pass -/

/-- Directory entry `d` shows user mode the 1024 frames from `pa` on. -/
def BootView.Shows (v : BootView) (d : Nat) (pa : Nat) : Prop :=
  ∃ kt, kt < 65536 ∧ v.pde d = page2pa kt ||| pteP ||| (pteU ||| pteP) ∧
    ∀ t, t < 1024 → v.pte d t = frames (BitVec.ofNat 32 pa) pteU t

/-- The part of the directory above `UTOP` that user mode is concerned with. -/
structure BootView.Maps (v : BootView) (L : Layout) : Prop where
  upages : v.Shows 956 L.pages
  uenvs : v.Shows 955 L.envs
  hidden : ∀ d, 958 ≤ d → d < 1024 → v.pde d &&& pteU = 0#32

theorem BootView.Shows.congr {v' : BootView} (h : v.Shows d pa) (hpde : v'.pde d = v.pde d)
    (hpte : v'.pte d = v.pte d) : v'.Shows d pa := by
  obtain ⟨kt, hlt, hp, ht⟩ := h
  exact ⟨kt, hlt, hpde.trans hp, fun t hk => by rw [hpte]; exact ht t hk⟩

theorem BootView.Maps.region (h : v.Maps L) (hg : ∀ j, j < n → 958 ≤ (g + j) / 1024)
    (hperm : perm &&& pteU = 0#32) : (v.region g w perm n).Maps L := by
  have hne : ∀ d, d < 958 → ∀ j, j < n → (g + j) / 1024 ≠ d := fun d hd j hj => by
    have := hg j hj
    omega
  obtain ⟨hp, ht⟩ := region_of_ne (v := v) (w := w) (f := perm) (hne 956 (by decide))
  obtain ⟨hp', ht'⟩ := region_of_ne (v := v) (w := w) (f := perm) (hne 955 (by decide))
  exact ⟨h.upages.congr hp ht, h.uenvs.congr hp' ht',
    fun d hd hlt => region_hidden hperm (h.hidden d hd hlt)⟩

theorem BootView.Maps.kstacks (h : v.Maps L) (hn : n ≤ 8) : (v.kstacks mach n).Maps L := by
  induction n with
  | zero => exact h
  | succ n ih =>
    rw [kstacks_succ]
    exact (ih (by omega)).region (fun j hj => by omega) (by decide)

theorem BootView.Maps.kernelMaps (h : v.Maps L) : (v.kernelMaps mach).Maps L := by
  exact ((h.region (fun j hj => by omega) (by decide)).region (fun j hj => by omega) (by decide)).kstacks
    (Nat.le_refl 8)

variable (mach) in
theorem BootView.kstacks_of_ne (hd : d ≠ 959) (hn : n ≤ 8) :
    (v.kstacks mach n).pde d = v.pde d ∧ (v.kstacks mach n).pte d = v.pte d := by
  induction n with
  | zero => exact ⟨rfl, rfl⟩
  | succ n ih =>
    obtain ⟨hp, ht⟩ := region_of_ne (v := v.kstacks mach n) (g := 0xEFFF8 - 16 * n) (n := 8) (d := d)
      (w := frames (mach.percpuKstacks n) (pteW ||| pteP)) (f := pteW ||| pteP) fun j hj => by omega
    rw [kstacks_succ, hp, ht]
    exact ih (by omega)

variable (mach) in
theorem BootView.kernelMaps_of_lt (hd : d < 959) :
    (v.kernelMaps mach).pde d = v.pde d ∧ (v.kernelMaps mach).pte d = v.pte d := by
  rw [BootView.kernelMaps]
  obtain ⟨hp, ht⟩ := kstacks_of_ne (v := (v.region 0xEFFF8 (frames mach.bootstack (pteW ||| pteP))
    (pteW ||| pteP) 8).region 0xF0000 (frames 0 (pteW ||| pteP)) (pteW ||| pteP) 65536) mach (d := d)
    (by omega) (Nat.le_refl ncpu)
  rw [hp, ht, (region_of_ne fun j hj => by omega).1, (region_of_ne fun j hj => by omega).1,
    (region_of_ne fun j hj => by omega).2, (region_of_ne fun j hj => by omega).2]
  exact ⟨rfl, rfl⟩

theorem BootView.shows_window (hg : g = 1024 * d) (hnone : entryPage (v.pde d) = none) (hf : v.free = p :: l)
    (hp : p < 65536) : (v.region g (frames (BitVec.ofNat 32 a) pteU) pteU 1024).Shows d a := by
  rw [window_cons hg hnone hf (by decide) hp (by decide) (Nat.le_refl _)]
  refine ⟨p, hp, by simp, fun t ht => ?_⟩
  simp [ht]

theorem va2pa_of_none (hd : g / 1024 = d) (h : entryPage (v.pde d) = none) : v.va2pa g = 0xFFFFFFFF := by
  subst hd
  exact if_pos h

theorem aligned_ne_ones (h : a % 4096 = 0) : BitVec.ofNat 32 a + BitVec.ofNat 32 (pgsize * 0) ≠ 0xFFFFFFFF#32 := by
  intro heq
  have := congrArg BitVec.toNat heq
  simp at this
  omega

/-- If the checks pass, there was memory for the windows. -/
theorem BootView.maps_of_passes (h955 : v.pde 955 = 0#32) (h956 : v.pde 956 = 0#32)
    (hhidden : ∀ d, 958 ≤ d → d < 1024 → v.pde d &&& pteU = 0#32) (hfree : ∀ p ∈ v.free, p < 65536)
    (hpages : L.pages % 4096 = 0) (henvs : L.envs % 4096 = 0) (hn : 0 < L.npages)
    (hpass : ((v.windows L).kernelMaps mach).Passes mach L) : ((v.windows L).kernelMaps mach).Maps L := by
  apply BootView.Maps.kernelMaps
  have hz : entryPage 0#32 = none := entryPage_zero
  -- The two windows one after the other; a missing table would show in the checks.
  have hpass956 : entryPage ((v.windows L).pde 956) ≠ none := by
    intro hnone
    rw [← (kernelMaps_of_lt mach (by decide)).1] at hnone
    have hlt : 0 < roundupPage (L.npages * sizeofPageInfo) / pgsize := by
      unfold roundupPage sizeofPageInfo pgsize
      omega
    exact aligned_ne_ones hpages ((hpass.pages 0 hlt).symm.trans (va2pa_of_none (by decide) hnone))
  have hpass955 : entryPage ((v.windows L).pde 955) ≠ none := by
    intro hnone
    rw [← (kernelMaps_of_lt mach (by decide)).1] at hnone
    exact aligned_ne_ones henvs ((hpass.envs 0 (by decide)).symm.trans (va2pa_of_none (by decide) hnone))
  rw [BootView.windows] at hpass956 hpass955 ⊢
  cases hf : v.free with
  | nil =>
    have hw : v.region 0xEF000 (frames (BitVec.ofNat 32 L.pages) pteU) pteU 1024 = v :=
      window_nil (d := 956) (by decide) (by rw [h956, hz]) hf (Nat.le_refl _)
    rw [hw, (region_of_ne fun j hj => by omega).1, h956, hz] at hpass956
    exact absurd rfl hpass956
  | cons p l =>
    have hwin := window_cons (g := 0xEF000) (n := 1024) (w := frames (BitVec.ofNat 32 L.pages) pteU) (by decide)
      (by rw [h956, hz] : entryPage (v.pde 956) = none) hf (by decide : IsPerm pteU) (hfree p (by simp [hf]))
      (by decide) (Nat.le_refl _)
    have hshow := shows_window (g := 0xEF000) (a := L.pages) (by decide) (by rw [h956, hz] : entryPage (v.pde 956) = none) hf
      (hfree p (by simp [hf]))
    have hother : ∀ d, d ≠ 956 →
        (v.region 0xEF000 (frames (BitVec.ofNat 32 L.pages) pteU) pteU 1024).pde d = v.pde d := fun d hd =>
      (region_of_ne fun j hj => by omega).1
    have hl : (v.region 0xEF000 (frames (BitVec.ofNat 32 L.pages) pteU) pteU 1024).free = l := by
      rw [hwin]
    generalize v.region 0xEF000 (frames (BitVec.ofNat 32 L.pages) pteU) pteU 1024 = v1 at *
    have h955' : entryPage (v1.pde 955) = none := by rw [hother 955 (by decide), h955, hz]
    cases l with
    | nil =>
      have hw : v1.region 0xEEC00 (frames (BitVec.ofNat 32 L.envs) pteU) pteU 1024 = v1 :=
        window_nil (d := 955) (by decide) h955' hl (Nat.le_refl _)
      rw [hw] at hpass955
      exact absurd h955' hpass955
    | cons p' l' =>
      have hshow' := shows_window (g := 0xEEC00) (a := L.envs) (by decide) h955' hl (hfree p' (by simp [hf]))
      obtain ⟨hk, hk'⟩ := region_of_ne (v := v1) (g := 0xEEC00) (n := 1024) (d := 956)
        (w := frames (BitVec.ofNat 32 L.envs) pteU) (f := pteU) fun j hj => by omega
      refine ⟨hshow.congr hk hk', hshow', fun d hd hlt => ?_⟩
      rw [(region_of_ne fun j hj => by omega).1, hother d (by omega)]
      exact hhidden d hd hlt

end

/-! ## `mem_init` up to `page_init` -/

/-- What `page_init` puts on the free list, with the kernel's data up to the page `first`. -/
def Unused (npages first p : Nat) : Prop :=
  p < npages ∧ p ≠ 0 ∧ ¬ (160 ≤ p ∧ p < 256) ∧ ¬ (256 ≤ p ∧ p < first) ∧ p ≠ 7

instance : DecidablePred (Unused npages first) := fun p => by
  unfold Unused
  infer_instance

namespace Machine

variable (mach : Machine)

def kq : Nat := roundupPage mach.kernelEnd / pgsize

def pagesLen : Nat := roundupPage (mach.npages * sizeofPageInfo) / pgsize

def envsLen : Nat := 31

def layout : Layout where
  npages := mach.npages
  npages_le := mach.npages_fits
  kernPgdir := mach.kq * pgsize
  pages := (mach.kq + 1) * pgsize
  envs := (mach.kq + 1 + mach.pagesLen) * pgsize

def first : Nat := mach.kq + 1 + mach.pagesLen + envsLen

def Free (p : Nat) : Prop :=
  p < mach.npages ∧ p ≠ 0 ∧ ¬ (160 ≤ p ∧ p < 256) ∧ ¬ (256 ≤ p ∧ p < mach.first) ∧ p ≠ 7

instance : DecidablePred mach.Free := inferInstanceAs (DecidablePred (Unused mach.npages mach.first))

def freeList : List Nat := ((List.range mach.npages).filter fun p => mach.Free p).reverse

theorem roundupPage_div_mul (a : Nat) : roundupPage a / pgsize * pgsize = roundupPage a := by
  unfold roundupPage pgsize
  omega

theorem roundupPage_add (n a : Nat) : roundupPage (n * pgsize + a) = (n + roundupPage a / pgsize) * pgsize := by
  unfold roundupPage pgsize
  omega

theorem kq_ge : 256 ≤ mach.kq := by
  have := mach.kernelEnd_ge
  unfold kq roundupPage pgsize
  omega

theorem kq_le : mach.kq ≤ 1024 := by
  have := mach.kernelEnd_le
  unfold kq roundupPage pgsize
  omega

theorem pagesLen_le : mach.pagesLen ≤ 33 := by
  have := mach.npages_le
  unfold pagesLen roundupPage sizeofPageInfo pgsize
  omega

theorem free_range (h : mach.Free p) : p ≠ 0 ∧ p < mach.layout.npages ∧ p ≠ mach.kq := by
  obtain ⟨hlt, h0, -, hk, -⟩ := h
  refine ⟨h0, hlt, ?_⟩
  rintro rfl
  have := mach.kq_ge
  unfold first at hk
  omega

def firstView : BootView where
  free := mach.freeList
  pde := Function.update (fun _ => 0#32) (pdx uvpt) (BitVec.ofNat 32 (mach.kq * pgsize) ||| pteU ||| pteP)
  pte := fun _ _ => 0#32

end Machine

section
variable {mach : Machine} {b : Boot}

theorem bootAlloc_triple (n : Nat) (hb : (if b.nextfree = 0 then roundupPage mach.kernelEnd else b.nextfree) = a * pgsize)
    (hn : 0 < n) :
    Triple (bootAlloc mach n) b
      (fun r b' => r = a * pgsize ∧ b' = { b with nextfree := (a + roundupPage n / pgsize) * pgsize } ∧
        a + roundupPage n / pgsize ≤ b.pmap.layout.npages)
      (fun _ _ => b.pmap.layout.npages < a + roundupPage n / pgsize) := by
  have hstate : (if b.nextfree = 0 then { b with nextfree := roundupPage mach.kernelEnd } else b) =
      { b with nextfree := a * pgsize } := by
    rw [← hb]
    split <;> rfl
  unfold bootAlloc
  refine .bind (.modify (Q := fun _ b' => b' = { b with nextfree := a * pgsize }) hstate) ?_
  rintro _ _ rfl
  refine .get_bind ?_
  dsimp only
  rw [if_pos hn, Machine.roundupPage_add]
  refine .modify_bind ?_
  refine .get_bind ?_
  dsimp only
  split
  · rename_i hgt
    refine .bind (Q := fun _ _ => False) (.throw ?_) fun _ _ h => h.elim
    exact Nat.lt_of_mul_lt_mul_right hgt
  · rename_i hle
    exact .pure ⟨rfl, rfl, Nat.le_of_mul_le_mul_right (Nat.not_lt.mp hle) (by decide)⟩

theorem exec_bootAlloc_zero (hb : b.nextfree ≠ 0) : exec (bootAlloc mach 0) b = (.ok b.nextfree, b) := by
  simp [bootAlloc, exec_bind, exec_map, hb]

/-- The state of `page_init` with pages below `j` looked at. -/
structure PageInit (Free : Nat → Prop) [DecidablePred Free] (b0 : Boot) (j : Nat) (b : Boot) : Prop where
  layout : b.pmap.layout = b0.pmap.layout
  uninit : b.pmap.uninit = b0.pmap.uninit
  mem : b.pmap.mem = b0.pmap.mem
  nextfree : b.nextfree = b0.nextfree
  base : b.base = b0.base
  ref : b.pmap.ref p = 0#16
  chain : Chain b.pmap.next b.pmap.pageFreeList (((List.range j).filter fun p => Free p).reverse)

theorem pageInit_step (h : PageInit (Unused n first) b0 j b) (hfirst : b0.nextfree = first * pgsize) (hpos : first ≠ 0)
    (hj : j < n) :
    Triple (do
      let first ← bootAlloc mach 0
      let used : Bool := j = 0 ∨ (0x0A0000 / pgsize ≤ j ∧ j < 0x100000 / pgsize) ∨
        (0x100000 / pgsize ≤ j ∧ j < first / pgsize) ∨ j = 0x7000 / pgsize
      if used then modifyPmap fun s => s.setPage j ⟨none, 0#16⟩
      else modifyPmap fun s => { s.setPage j ⟨s.pageFreeList, 0#16⟩ with pageFreeList := some j }) b
      (fun _ b' => PageInit (Unused n first) b0 (j + 1) b') (fun _ _ => False) := by
  have hnf : b.nextfree ≠ 0 := by
    rw [h.nextfree, hfirst]
    exact Nat.mul_ne_zero hpos (by decide)
  refine .bind (.of_ok (exec_bootAlloc_zero hnf) (Q := fun r b' => r = first * pgsize ∧ b = b')
    ⟨h.nextfree.trans hfirst, rfl⟩) ?_
  rintro _ _ ⟨rfl, rfl⟩
  dsimp only
  have hused : (j = 0 ∨ (0x0A0000 / pgsize ≤ j ∧ j < 0x100000 / pgsize) ∨
      (0x100000 / pgsize ≤ j ∧ j < first * pgsize / pgsize) ∨ j = 0x7000 / pgsize) ↔ ¬ Unused n first j := by
    unfold Unused pgsize
    omega
  have hnotin : j ∉ ((List.range j).filter fun p => Unused n first p).reverse := by simp
  by_cases hf : Unused n first j
  · have hlist : ((List.range (j + 1)).filter fun p => Unused n first p).reverse =
        j :: ((List.range j).filter fun p => Unused n first p).reverse := by
      simp [List.range_succ, List.filter_append, hf]
    rw [if_neg (by simpa using fun hu => (hused.mp hu) hf)]
    refine .modify ⟨h.layout, h.uninit, h.mem, h.nextfree, h.base, fun {p} => ?_, ?_⟩
    · change (b.pmap.setPage j ⟨b.pmap.pageFreeList, 0#16⟩).ref p = 0#16
      rw [Pmap.ref_update, Function.update_apply]
      split
      · rfl
      · exact h.ref
    · rw [hlist]
      change Chain (b.pmap.setPage j ⟨b.pmap.pageFreeList, 0#16⟩).next (some j) _
      rw [Pmap.next_update]
      exact h.chain.push hnotin
  · have hlist : ((List.range (j + 1)).filter fun p => Unused n first p).reverse =
        ((List.range j).filter fun p => Unused n first p).reverse := by
      simp [List.range_succ, List.filter_append, hf]
    rw [if_pos (by simpa using hused.mpr hf)]
    refine .modify ⟨h.layout, h.uninit, h.mem, h.nextfree, h.base, fun {p} => ?_, ?_⟩
    · change (b.pmap.setPage j ⟨none, 0#16⟩).ref p = 0#16
      rw [Pmap.ref_update, Function.update_apply]
      split
      · rfl
      · exact h.ref
    · rw [hlist]
      change Chain (b.pmap.setPage j ⟨none, 0#16⟩).next b.pmap.pageFreeList _
      rw [Pmap.next_update]
      refine h.chain.frame fun x hx => Function.update_of_ne ?_ _ _
      rintro rfl
      exact hnotin hx

theorem pageInit_triple (hfirst : b.nextfree = first * pgsize) (hpos : first ≠ 0)
    (hpages : b.pmap.pages = fun _ => ⟨none, 0#16⟩) (hlist : b.pmap.pageFreeList = none) :
    Triple (pageInit mach) b (fun _ b' => PageInit (Unused b.pmap.layout.npages first) b b.pmap.layout.npages b')
      (fun _ _ => False) := by
  refine .get_bind ?_
  refine .forM_range (I := fun j b' => PageInit (Unused b.pmap.layout.npages first) b j b')
    ⟨rfl, rfl, rfl, rfl, rfl, ?_, ?_⟩ fun j t hj ht => pageInit_step ht hfirst hpos hj
  · simp [Pmap.ref, hpages]
  · rw [hlist]
    exact .nil

theorem read32_selfMap (m : Mem) (hd : d < 1024) :
    ((m.fill (kq * pgsize) pgsize 0#8).write32 (kq * pgsize + 4 * pdx uvpt) w).read32 (kq * pgsize + 4 * d) =
      Function.update (fun _ => 0#32) (pdx uvpt) w d := by
  rw [read32_write32_page (pdx_lt uvpt) hd, read32_fill_page hd, Function.update_apply]
  simp

theorem memInitPages_views (mach : Machine) (m : Mem) :
    Triple (memInitPages mach) (mach.start m)
      (fun _ b => MmioAt mach.layout mach.kq mach.Free mach.firstView 0xEF800 b ∧ mach.first ≤ mach.npages)
      (fun _ _ => mach.npages < mach.first) := by
  have hpages : roundupPage pgsize / pgsize = 1 := by decide
  have henvs : roundupPage (nenv * sizeofEnv) / pgsize = 31 := by decide
  have hne : ∀ a, (mach.kq + a) * pgsize ≠ 0 := fun a => by
    have := mach.kq_ge
    unfold pgsize
    omega
  have hdir : mach.kq * pgsize + 4 * pdx uvpt ≠ 0 := by
    have := hne 0
    rw [Nat.add_zero] at this
    omega
  refine .bind ((bootAlloc_triple (a := mach.kq) pgsize ?_ (by decide)).imp_error fun _ _ hx => ?_) ?_
  · exact (Machine.roundupPage_div_mul _).symm
  · unfold Machine.first
    exact Nat.lt_of_lt_of_le hx (by omega)
  rintro _ _ ⟨rfl, rfl, hle⟩
  refine .modify_bind ?_
  refine .ok_bind (exec_liftBoot_ok (exec_store hdir)) ?_
  refine .get_bind ?_
  have hnp : 0 < mach.npages := by
    have : mach.kq + 1 ≤ mach.npages := hle
    omega
  refine .bind ((bootAlloc_triple (a := mach.kq + 1) (mach.npages * sizeofPageInfo) (if_neg (hne 1))
    (Nat.mul_pos hnp (by decide))).imp_error fun _ _ hx => ?_) ?_
  · unfold Machine.first Machine.pagesLen
    exact Nat.lt_of_lt_of_le hx (by omega)
  rintro _ _ ⟨rfl, rfl, -⟩
  refine .modify_bind ?_
  refine .bind ((bootAlloc_triple (a := mach.kq + 1 + mach.pagesLen) (nenv * sizeofEnv) (if_neg ?_)
    (by decide)).imp_error fun _ _ hx => ?_) ?_
  · rw [Nat.add_assoc]
    exact hne _
  · exact hx
  rintro _ _ ⟨rfl, rfl, hle'⟩
  refine .modify_bind ?_
  refine (pageInit_triple rfl (Nat.succ_ne_zero _) rfl rfl).mono ?_ fun _ _ hx => hx.elim
  rintro _ b hb
  refine ⟨⟨?_, ?_, Nat.le_refl _, by decide⟩, hle'⟩
  · have hpde : ∀ d, d < 1024 → pdeOf (oneDir mach.kq) b.pmap.mem () d = mach.firstView.pde d := fun d hd => by
      rw [hb.mem]
      exact read32_selfMap _ hd
    have hnone : ∀ d, Mine d → d < 1024 → tableOf (oneDir mach.kq) b.pmap.mem () d = none := fun d ho hd => by
      unfold tableOf
      rw [hpde d hd]
      simp [Machine.firstView, Function.update_of_ne ho, entryPage_zero]
    refine ⟨hb.layout, ?_, rfl, by have := mach.kq_ge; omega, mach.free_range, hb.chain, fun {p} hp => ⟨?_, hb.ref⟩,
      fun hd => hpde _ hd, fun ho hd _ => pteOf_none (hnone _ ho hd), ⟨fun _ _ => rfl, ?_, ?_⟩, ?_⟩
    · rw [hb.uninit]
      exact Nat.one_ne_zero
    · simp only [Machine.firstView, Machine.freeList, List.mem_reverse, List.mem_filter, decide_eq_true_eq] at hp
      exact hp.2
    · intro _ _ d _ _ _ ho hd ht
      rw [hnone d ho hd] at ht
      simp at ht
    · intro d _ _ _ _ ho hd _ _ ht
      rw [hnone d ho hd] at ht
      simp at ht
    · intro d _ ho hd ht
      rw [hnone d ho hd] at ht
      simp at ht
  · rw [hb.base]
    change mmiobase.toNat = _
    decide

end

/-! ## The whole start -/

section
variable {L : Layout} {kq : Nat} {R : Nat → Prop} {v : BootView} {s s' : Pmap} {b : Boot} {mach : Machine}

/-- The tests change the order of the free list and nothing else one can see. -/
theorem Views.tested (h : Views L kq R v s) (ht : Tested s s') :
    ∃ l, l.Perm v.free ∧ Views L kq R { v with free := l } s' := by
  obtain ⟨l0, l, hc0, hc, hperm, -, hmem⟩ := ht.free
  obtain rfl := hc0.unique h.chain
  have hin : ∀ p, p ∈ l ↔ p ∈ v.free := fun p => hperm.mem_iff
  have hkq : ∀ a, a / pgsize = kq → s'.mem a = s.mem a := fun a ha => hmem a fun hf => by
    rw [ha] at hf
    exact (h.range (h.free hf).1).2.2 rfl
  have hpde : ∀ d, d < 1024 → pdeOf (oneDir kq) s'.mem () d = pdeOf (oneDir kq) s.mem () d := fun d hd =>
    pdeOf_congr (fun q hq a ha => hkq a (ha.trans (Option.some.inj hq).symm)) hd
  have htable : ∀ d, d < 1024 → tableOf (oneDir kq) s'.mem () d = tableOf (oneDir kq) s.mem () d :=
    fun d hd => congrArg entryPage (hpde d hd)
  refine ⟨l, hperm, ht.layout.trans h.layout, ht.uninit, h.pgdir, h.kq_pos, h.range, hc, fun {p} hp => ?_,
    fun hd => (hpde _ hd).trans (h.pde hd), fun {d t} ho hd hk => ?_, h.sep.congr fun _ d _ hd => htable d hd,
    fun {d pt} ho hd hpt => ?_⟩
  · obtain ⟨hR, href⟩ := h.free ((hin p).mp hp)
    exact ⟨hR, (ht.ref p).trans href⟩
  · rw [← h.pte ho hd hk]
    refine pteOf_congr (hpde d hd) (fun pt hpt a ha => hmem a fun hf => ?_) hk
    rw [ha] at hf
    exact (h.table ho hd hpt).2 hf
  · rw [htable d hd] at hpt
    obtain ⟨hR, hnot⟩ := h.table ho hd hpt
    exact ⟨hR, fun hm => hnot ((hin pt).mp hm)⟩

theorem mmioMapRegion_maps (h : MmioAt L kq R v g b) (hm : v.Maps L) (pa size : Word) :
    Triple (do let _ ← mmioMapRegion pa size) b
      (fun _ b' => ∃ v' g', MmioAt L kq R v' g' b' ∧ v'.Maps L) (fun _ _ => True) := by
  refine .bind ((mmioMapRegion_views (a := pa) h (roundup_pages size)).imp_error fun _ _ _ => trivial) ?_
  rintro _ b' ⟨-, hb'⟩
  refine .pure ⟨_, _, hb', hm.region (fun j hj => ?_) (by decide)⟩
  have := h.ge
  omega

theorem devices_maps (h : MmioAt L kq R v g b) (hm : v.Maps L) (devices : List (Word × Word)) :
    Triple (devices.forM fun d => do let _ ← mmioMapRegion d.1 d.2) b
      (fun _ b' => ∃ v' g', MmioAt L kq R v' g' b' ∧ v'.Maps L) (fun _ _ => True) :=
  .forM (I := fun _ b' => ∃ v' g', MmioAt L kq R v' g' b' ∧ v'.Maps L) ⟨v, g, h, hm⟩
    fun d _ _ ⟨_, _, h', hm'⟩ => mmioMapRegion_maps h' hm' d.1 d.2

theorem mmioTested_pde (hd : d ≠ 958) : v.mmioTested.pde d = v.pde d := by
  unfold BootView.mmioTested BootView.clear
  rw [(BootView.region_of_ne fun j hj => by omega).1, (BootView.region_of_ne fun j hj => by omega).1]

theorem mmioTested_hidden (hd : v.pde d &&& pteU = 0#32) : v.mmioTested.pde d &&& pteU = 0#32 := by
  unfold BootView.mmioTested BootView.clear
  exact BootView.region_hidden (by decide) (BootView.region_hidden (by decide) hd)

theorem mmioTested_free : v.mmioTested.free <:+ v.free := by
  exact BootView.region_free.trans BootView.region_free

theorem firstView_pde (mach : Machine) (hd : d ≠ 957) : mach.firstView.pde d = 0#32 := by
  simp [Machine.firstView, pdx_uvpt, hd]

/-- The state after a start: the kernel's mappings are there, and memory is as
`mem_init` and the drivers left it. -/
structure Started (mach : Machine) (v : BootView) (s : Pmap) : Prop where
  views : Views mach.layout mach.kq mach.Free v s
  maps : v.Maps mach.layout

theorem BootView.Maps.reorder (h : v.Maps L) (l : List Nat) : ({ v with free := l } : BootView).Maps L :=
  ⟨h.upages, h.uenvs, h.hidden⟩

/-- `b` is the state in which `mem_init` returns. -/
inductive MemInits (mach : Machine) (b : Boot) : Prop
  | intro (m : Mem) (b1 b2 : Boot) (s1 s3 : Pmap) :
      exec (memInitPages mach) (mach.start m) = (.ok (), b1) →
      Tested b1.pmap s1 →
      exec (do checkMmio; memInitMaps mach) { b1 with pmap := s1 } = (.ok (), b2) →
      Tested b2.pmap s3 →
      b = { b2 with pmap := s3 } → MemInits mach b

theorem BootView.Passes.window (h : v.Passes mach L) : entryPage (v.pde 958) ≠ none := by
  have hpde := h.pdes 958 (by decide)
  exact mt and_pteP_eq_zero.mpr (of_decide_eq_true hpde)

/-- From the tests of the allocator to `check_kern_pgdir`. -/
theorem memInitMaps_maps (h : MmioAt mach.layout mach.kq mach.Free v 0xEF800 b) (hv : v.pde = mach.firstView.pde)
    (hfirst : mach.first ≤ mach.npages) :
    Triple (do checkMmio; memInitMaps mach) b
      (fun _ b' => ∃ v', MmioAt mach.layout mach.kq mach.Free v' 0xEF803 b' ∧ v'.Maps mach.layout ∧
        entryPage (v'.pde 958) ≠ none) (fun _ _ => True) := by
  refine .bind ((checkMmio_views h).imp_error fun _ _ _ => trivial) fun _ b1 h1 => ?_
  refine (memInitMaps_views h1 mach.npages_le).mono ?_ fun _ _ _ => trivial
  rintro _ b2 ⟨h2, hpass⟩
  refine ⟨_, h2, BootView.maps_of_passes ?_ ?_ (fun d hd hlt => mmioTested_hidden ?_) (fun p hp => ?_) ?_ ?_ ?_ hpass,
    hpass.window⟩
  · rw [mmioTested_pde (by decide), hv]
    exact firstView_pde mach (by decide)
  · rw [mmioTested_pde (by decide), hv]
    exact firstView_pde mach (by decide)
  · rw [hv, firstView_pde mach (by omega)]
    exact BitVec.zero_and
  · have hlt := (h.views.range (h.views.free (mmioTested_free.subset hp)).1).2.1
    have hle := mach.layout.npages_le
    omega
  · exact Nat.mul_mod_left _ _
  · exact Nat.mul_mod_left _ _
  · unfold Machine.first at hfirst
    change 0 < mach.npages
    omega

/-- The kernel's mappings are there, and a table for the device window. -/
theorem MemInits.maps (h : MemInits mach b) : ∃ v, MmioAt mach.layout mach.kq mach.Free v 0xEF803 b ∧
    v.Maps mach.layout ∧ entryPage (v.pde 958) ≠ none := by
  obtain ⟨m, b1, b2, s1, s3, hpages, ht1, hmaps, ht3, rfl⟩ := h
  obtain ⟨h1, hfirst⟩ := (memInitPages_views mach m).ok hpages
  obtain ⟨l, -, hv1⟩ := h1.views.tested ht1
  have hat : MmioAt mach.layout mach.kq mach.Free { mach.firstView with free := l } 0xEF800
      { b1 with pmap := s1 } := ⟨hv1, h1.base, h1.ge, h1.le⟩
  obtain ⟨v2, h2, hm, hp⟩ := (memInitMaps_maps hat rfl hfirst).ok hmaps
  obtain ⟨l', -, hv3⟩ := h2.views.tested ht3
  exact ⟨_, ⟨hv3, h2.base, h2.ge, h2.le⟩, hm.reorder l', hp⟩

theorem Boots.started (h : Boots mach k) :
    ∃ (v : BootView) (b : Boot), Started mach v b.pmap ∧ exec envInit b.kernel = (.ok (), k) := by
  obtain ⟨m, b1, b2, b3, b4, s1, s3, devices, hpages, ht1, hmaps, ht3, hb, hdev, hinit⟩ := h
  obtain ⟨v3, h3, hm3, -⟩ := MemInits.maps ⟨m, b1, b2, s1, s3, hpages, ht1, hmaps, ht3, hb⟩
  obtain ⟨v, g, h4, hm4⟩ := (devices_maps h3 hm3 devices).ok hdev
  exact ⟨v, b4, ⟨h4.views, hm4⟩, hinit⟩

end

end Jos
