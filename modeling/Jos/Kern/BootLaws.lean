import Jos.Kern.Boot
import Jos.Kern.EnvLaws

/-!
# What `mem_init` maps

While the kernel starts there is one page directory, its own. `BootView` is
what matters of it: the pages still free, the directory entries and the table
entries. Each page `boot_map_region` maps is one `BootView.map`, so what
`mem_init` leaves is read off a computation on views.
-/

namespace Jos

open Lib
open Function (update update_apply update_idem update_of_ne update_self)

structure BootView where
  free : List Nat
  pde : Nat → Word
  pte : Nat → Nat → Word

namespace BootView

def put (v : BootView) (d t : Nat) (w perm : Word) : BootView :=
  { v with
    pde := update v.pde d (v.pde d ||| (perm ||| pteP))
    pte := update v.pte d (update (v.pte d) t w) }

def grow (v : BootView) (d p : Nat) (l : List Nat) : BootView :=
  { v with free := l, pde := update v.pde d (page2pa p ||| pteP) }

def map (v : BootView) (d t : Nat) (w perm : Word) : BootView :=
  match entryPage (v.pde d), v.free with
  | some _, _ => v.put d t w perm
  | none, [] => v
  | none, p :: l => (v.grow d p l).put d t w perm

end BootView

/-- The directory entries other than the one that names the directory itself. -/
def Mine (d : Nat) : Prop := d ≠ pdx uvpt

instance : DecidablePred Mine := fun d => inferInstanceAs (Decidable (d ≠ pdx uvpt))

/-- The state `s` shows `v`, with the kernel's directory at page `kq` and its
tables and free pages among `R`. -/
structure Views (L : Layout) (kq : Nat) (R : Nat → Prop) (v : BootView) (s : Pmap) : Prop where
  layout : s.layout = L
  uninit : s.uninit ≠ 0
  pgdir : L.kernPgdir = kq * pgsize
  kq_pos : kq ≠ 0
  range : R p → p ≠ 0 ∧ p < L.npages ∧ p ≠ kq
  chain : Chain s.next s.pageFreeList v.free
  free : p ∈ v.free → R p ∧ s.ref p = 0#16
  pde : d < 1024 → pdeOf (oneDir kq) s.mem () d = v.pde d
  pte : Mine d → d < 1024 → t < 1024 → pteOf (oneDir kq) s.mem () d t = v.pte d t
  sep : TabSep Mine (oneDir kq) s.mem
  table : Mine d → d < 1024 → tableOf (oneDir kq) s.mem () d = some pt → R pt ∧ pt ∉ v.free

section
variable {L : Layout} {kq : Nat} {R : Nat → Prop} {v : BootView} {s : Pmap}

theorem Views.tableOf_eq (h : Views L kq R v s) (hd : d < 1024) :
    tableOf (oneDir kq) s.mem () d = entryPage (v.pde d) :=
  congrArg entryPage (h.pde hd)

theorem Views.put (h : Views L kq R v s) (ho : Mine d) (hd : d < 1024) (hk : t < 1024)
    (ht : tableOf (oneDir kq) s.mem () d = some pt) (hperm : IsPerm perm) :
    Views L kq R (v.put d t w perm) { s with mem := withMapping s.mem pt t kq d w (perm ||| pteP) } := by
  have hp : IsPerm (perm ||| pteP) := by
    unfold IsPerm at hperm ⊢
    rw [BitVec.toNat_or]
    exact Nat.or_lt_two_pow (n := 12) hperm (by decide)
  have hpde : ∀ d', d' < 1024 → pdeOf (oneDir kq) (withMapping s.mem pt t kq d w (perm ||| pteP)) () d' =
      (v.put d t w perm).pde d' := by
    intro d' hd'
    rw [pdeOf_withMapping h.sep rfl ht ho hd hk hd', h.pde hd, h.pde hd']
    simp [BootView.put, update_apply]
  have htable : ∀ d', d' < 1024 → tableOf (oneDir kq) (withMapping s.mem pt t kq d w (perm ||| pteP)) () d' =
      tableOf (oneDir kq) s.mem () d' := by
    intro d' hd'
    unfold tableOf
    rw [pdeOf_withMapping h.sep rfl ht ho hd hk hd']
    by_cases hdd : d' = d
    · subst hdd
      simp only [true_and, if_true]
      exact (entryPage_or hp ht).trans ht.symm
    · simp [hdd]
  refine ⟨h.layout, h.uninit, h.pgdir, h.kq_pos, h.range, h.chain, h.free, fun hd' => hpde _ hd', fun {d' t'} ho' hd' hk' => ?_,
    h.sep.congr fun _ d' _ hd' => htable d' hd', fun {d' pt'} ho' hd' ht' => ?_⟩
  · rw [pteOf_withMapping h.sep rfl ht ho hd hk hp ho' hd' hk', h.pte ho' hd' hk']
    by_cases hdd : d' = d
    · subst hdd
      simp [BootView.put, update_apply]
    · simp [BootView.put, hdd]
  · rw [htable d' hd'] at ht'
    exact h.table ho' hd' ht'

theorem Views.grow (h : Views L kq R v s) (hd : d < 1024) (hnone : entryPage (v.pde d) = none)
    (hf : v.free = p :: l) : Views L kq R (v.grow d p l) (s.newTable (kq * pgsize + 4 * d) p) := by
  have hpfree : p ∈ v.free := by simp [hf]
  obtain ⟨hR, href⟩ := h.free hpfree
  obtain ⟨hp0, hplt, hpkq⟩ := h.range hR
  have hle := L.npages_le
  have hw : entryPage (page2pa p ||| pteP) = some p := entryPage_page2pa (by omega)
  have hnone' : tableOf (oneDir kq) s.mem () d = none := (h.tableOf_eq hd).trans hnone
  have hq : oneDir kq () = some kq := rfl
  have hfresh : ∀ j, oneDir kq j ≠ some p := fun _ hj => hpkq (Option.some.inj hj).symm
  have hmem : (s.newTable (kq * pgsize + 4 * d) p).mem = withTable s.mem kq d p (page2pa p ||| pteP) := rfl
  have hpde : ∀ d', d' < 1024 → pdeOf (oneDir kq) (withTable s.mem kq d p (page2pa p ||| pteP)) () d' =
      (v.grow d p l).pde d' := by
    intro d' hd'
    rw [pdeOf_withTable hq (fun _ _ => rfl) hfresh hd hd', h.pde hd']
    simp [BootView.grow, update_apply]
  have htable : ∀ d', d' < 1024 → tableOf (oneDir kq) (withTable s.mem kq d p (page2pa p ||| pteP)) () d' =
      if d' = d then some p else tableOf (oneDir kq) s.mem () d' := by
    intro d' hd'
    unfold tableOf
    rw [pdeOf_withTable hq (fun _ _ => rfl) hfresh hd hd']
    by_cases hdd : d' = d
    · simp [hdd, hw]
    · simp [hdd]
  have hold : ∀ d', Mine d' → d' < 1024 → tableOf (oneDir kq) s.mem () d' ≠ some p := fun d' ho' hd' ht' =>
    (h.table ho' hd' ht').2 hpfree
  have hchain := h.chain
  rw [hf] at hchain
  have hnodup := List.nodup_cons.mp hchain.nodup
  have hne : ∀ x ∈ l, x ≠ p := by
    rintro x hx rfl
    exact hnodup.1 hx
  rw [hchain.head_eq, List.head?_cons] at hchain
  obtain ⟨l', hl', hchain'⟩ := Chain.some_iff.mp hchain
  obtain ⟨-, rfl⟩ := List.cons.inj hl'
  refine ⟨h.layout, h.uninit, h.pgdir, h.kq_pos, h.range, ?_, ?_, fun hd' => hpde _ hd', fun {d' t'} ho' hd' hk' => ?_, ?_, ?_⟩
  · change Chain (s.newTable _ _).next (s.next p) l
    rw [Pmap.newTable_next]
    exact hchain'.frame fun x hx => update_of_ne (hne x hx) _ _
  · intro x hx
    have hx' : x ∈ v.free := by
      rw [hf]
      exact List.mem_cons_of_mem _ hx
    rw [Pmap.newTable_ref, update_of_ne (hne x hx)]
    exact h.free hx'
  · rw [hmem, pteOf_withTable hq (fun _ _ => rfl) hfresh hd h.sep hnone' hw (fun _ => hold) ho' hd' hk']
    exact h.pte ho' hd' hk'
  · rw [hmem]
    refine ⟨fun _ _ => rfl, ?_, ?_⟩
    · rintro _ q d' _ pt hq ho' hd' ht' rfl
      obtain rfl := Option.some.inj hq
      rw [htable d' hd'] at ht'
      split at ht'
      · exact hpkq (Option.some.inj ht')
      · exact h.sep.dir_ne_table (i := ()) rfl ho' hd' ht' rfl
    · intro d1 d2 _ pt _ ho1 hd1 ho2 hd2 ht1 ht2
      refine ⟨rfl, ?_⟩
      rw [htable d1 hd1] at ht1
      rw [htable d2 hd2] at ht2
      split at ht1 <;> split at ht2
      · rename_i h1 h2
        rw [h1, h2]
      · exact absurd (ht2.trans ht1.symm) (hold d2 ho2 hd2)
      · exact absurd (ht1.trans ht2.symm) (hold d1 ho1 hd1)
      · exact (h.sep.table_inj ho1 hd1 ho2 hd2 ht1 ht2).2
  · intro d' pt ho' hd' ht'
    rw [hmem, htable d' hd'] at ht'
    split at ht'
    · obtain rfl := Option.some.inj ht'
      exact ⟨hR, hnodup.1⟩
    · obtain ⟨hR', hnot⟩ := h.table ho' hd' ht'
      refine ⟨hR', fun hmem' => hnot ?_⟩
      rw [hf]
      exact List.mem_cons_of_mem _ hmem'

/-! ## `boot_map_region` -/

theorem bootMapPage_views (h : Views L kq R v s) (ho : Mine (pdx va)) (hperm : IsPerm perm) :
    Triple (bootMapPage (kq * pgsize) va a perm) s
      (fun _ s' => Views L kq R (v.map (pdx va) (ptx va) (a ||| perm ||| pteP) perm) s') (fun _ _ => False) := by
  have hd := pdx_lt va
  have hdir : kq * pgsize + 4 * pdx va ≠ 0 := by
    have := h.kq_pos
    unfold pgsize
    omega
  -- With the table there, both stores go through.
  have hput : ∀ {v : BootView} {t : Pmap} {pt : Nat}, Views L kq R v t →
      tableOf (oneDir kq) t.mem () (pdx va) = some pt →
      exec (do
        store (pt * pgsize + 4 * ptx va) (a ||| perm ||| pteP)
        store (kq * pgsize + 4 * pdx va) ((← load (kq * pgsize + 4 * pdx va)) ||| (perm ||| pteP)) : PmapM Unit) t =
      (.ok (), { t with mem := withMapping t.mem pt (ptx va) kq (pdx va) (a ||| perm ||| pteP) (perm ||| pteP) }) := by
    intro v t pt hv ht
    have hpt := (hv.range (hv.table ho hd ht).1).1
    have hne : pt * pgsize + 4 * ptx va ≠ 0 := by
      unfold pgsize
      omega
    simp [exec_bind, exec_store hne, exec_store hdir, withMapping]
  have hwalk : ∀ {t : Pmap} {pt : Nat}, exec (pgdirWalk (kq * pgsize) va true) s =
      (.ok (some (pt * pgsize + 4 * ptx va)), t) →
      exec (bootMapPage (kq * pgsize) va a perm) s = exec (do
        store (pt * pgsize + 4 * ptx va) (a ||| perm ||| pteP)
        store (kq * pgsize + 4 * pdx va) ((← load (kq * pgsize + 4 * pdx va)) ||| (perm ||| pteP)) : PmapM Unit) t := by
    intro t pt hw
    exact exec_bind_ok hw
  cases ht : tableOf (oneDir kq) s.mem () (pdx va) with
  | some pt =>
    have hmap : v.map (pdx va) (ptx va) (a ||| perm ||| pteP) perm =
        v.put (pdx va) (ptx va) (a ||| perm ||| pteP) perm := by
      rw [h.tableOf_eq hd] at ht
      simp [BootView.map, ht]
    have hpt := (h.range (h.table ho hd ht).1).2.1
    rw [← h.layout] at hpt
    rw [hmap]
    exact .of_ok ((hwalk (exec_pgdirWalk_present ht hpt)).trans (hput h ht)) (h.put ho hd (ptx_lt va) ht hperm)
  | none =>
    have hnone : entryPage (v.pde (pdx va)) = none := (h.tableOf_eq hd).symm.trans ht
    cases hf : v.free with
    | nil =>
      have hmap : v.map (pdx va) (ptx va) (a ||| perm ||| pteP) perm = v := by
        simp [BootView.map, hnone, hf]
      have hlist : s.pageFreeList = none := by rw [h.chain.head_eq, hf, List.head?_nil]
      rw [hmap]
      exact .of_ok (exec_bind_ok (exec_pgdirWalk_full ht hlist)) h
    | cons p l =>
      have hmap : v.map (pdx va) (ptx va) (a ||| perm ||| pteP) perm =
          (v.grow (pdx va) p l).put (pdx va) (ptx va) (a ||| perm ||| pteP) perm := by
        simp [BootView.map, hnone, hf]
      have hgrow := h.grow hd hnone hf
      have hp := (h.range (h.free (p := p) (by simp [hf])).1).2.1
      rw [← h.layout] at hp
      have hlist : s.pageFreeList = some p := by rw [h.chain.head_eq, hf, List.head?_cons]
      have htab : tableOf (oneDir kq) (s.newTable (kq * pgsize + 4 * pdx va) p).mem () (pdx va) = some p := by
        have hle := s.layout.npages_le
        have hw : entryPage (page2pa p ||| pteP) = some p := entryPage_page2pa (by omega)
        rw [hgrow.tableOf_eq hd]
        simp [BootView.grow, hw]
      rw [hmap]
      exact .of_ok ((hwalk (exec_pgdirWalk_new ht hlist hp hdir)).trans (hput hgrow htab))
        (hgrow.put ho hd (ptx_lt va) htab hperm)

/-- Pages `g`, `g + 1`, … of the address space mapped by `w 0`, `w 1`, … -/
def BootView.region (v : BootView) (g : Nat) (w : Nat → Word) (perm : Word) (n : Nat) : BootView :=
  (List.range n).foldl (fun v j => v.map ((g + j) / 1024) ((g + j) % 1024) (w j) perm) v

theorem BootView.region_zero : v.region g w perm 0 = v := rfl

theorem BootView.region_succ : v.region g w perm (n + 1) =
    (v.region g w perm n).map ((g + n) / 1024) ((g + n) % 1024) (w n) perm := by
  simp [BootView.region, List.range_succ, List.foldl_append]

def frames (pa perm : Word) (j : Nat) : Word := pa + BitVec.ofNat 32 (pgsize * j) ||| perm ||| pteP

theorem page_indices {va : Word} (hva : va.toNat = pgsize * g) (hj : g + j < 1048576) :
    pdx (va + BitVec.ofNat 32 (pgsize * j)) = (g + j) / 1024 ∧
      ptx (va + BitVec.ofNat 32 (pgsize * j)) = (g + j) % 1024 := by
  have hto : (va + BitVec.ofNat 32 (pgsize * j)).toNat = 4096 * (g + j) := by
    rw [BitVec.toNat_add, hva, BitVec.toNat_ofNat]
    unfold pgsize
    omega
  rw [pdx_eq, ptx_eq, hto]
  omega

theorem bootMapRegion_views (h : Views L kq R v s) (hva : va.toNat = pgsize * g)
    (hsize : (z.toNat + pgsize - 1) / pgsize = n) (hn : g + n ≤ 1048576)
    (ho : ∀ j, j < n → Mine ((g + j) / 1024)) (hperm : IsPerm f) :
    Triple (bootMapRegion (kq * pgsize) va z a f) s
      (fun _ s' => Views L kq R (v.region g (frames a f) f n) s') (fun _ _ => va + z < va) := by
  unfold bootMapRegion
  split
  · exact .throw ‹_›
  · rw [hsize]
    refine .forM_range (I := fun j s' => Views L kq R (v.region g (frames a f) f j) s') h
      fun j t hj ht => ?_
    obtain ⟨hpdx, hptx⟩ := page_indices (j := j) hva (by omega)
    have hpage := bootMapPage_views (a := a + BitVec.ofNat 32 (pgsize * j)) ht (hpdx ▸ ho j hj) hperm
    rw [hpdx, hptx] at hpage
    rw [BootView.region_succ]
    exact hpage.imp_error fun _ _ hx => hx.elim

/-! ## What a region leaves -/

namespace BootView

theorem map_of_ne (h : d' ≠ d) :
    (v.map d t w f).pde d' = v.pde d' ∧ (v.map d t w f).pte d' = v.pte d' := by
  unfold map
  split <;> simp [put, grow, h]

theorem map_free : (v.map d t w perm).free <:+ v.free := by
  unfold map
  split
  · exact List.suffix_refl _
  · exact List.suffix_refl _
  · rename_i p l _ hf
    rw [hf]
    exact List.suffix_cons p l

theorem region_of_ne (h : ∀ j, j < n → (g + j) / 1024 ≠ d) :
    (v.region g w f n).pde d = v.pde d ∧ (v.region g w f n).pte d = v.pte d := by
  induction n with
  | zero => exact ⟨rfl, rfl⟩
  | succ n ih =>
    obtain ⟨hpde, hpte⟩ := ih fun j hj => h j (by omega)
    obtain ⟨hpde', hpte'⟩ := map_of_ne (v := v.region g w f n) (t := (g + n) % 1024) (w := w n) (f := f)
      (Ne.symm (h n (by omega)))
    rw [region_succ]
    exact ⟨hpde'.trans hpde, hpte'.trans hpte⟩

theorem region_free : (v.region g w perm n).free <:+ v.free := by
  induction n with
  | zero => exact List.suffix_refl _
  | succ n ih =>
    rw [region_succ]
    exact map_free.trans ih

theorem or_and_zero {a b f : Word} (ha : a &&& f = 0#32) (hb : b &&& f = 0#32) : (a ||| b) &&& f = 0#32 := by
  rw [and_or_mask, ha, hb, BitVec.or_zero]

theorem page2pa_and_pteU (p : Nat) : page2pa p &&& pteU = 0#32 := by
  have h : page2pa p &&& pteU = page2pa p &&& 0xFFF#32 &&& pteU := by
    rw [BitVec.and_assoc]
    rfl
  rw [h, mask_page2pa, BitVec.zero_and]

/-- Without `PTE_U` in `perm` nothing becomes visible to user mode. -/
theorem region_hidden (hperm : perm &&& pteU = 0#32) (h : v.pde d &&& pteU = 0#32) :
    (v.region g w perm n).pde d &&& pteU = 0#32 := by
  induction n with
  | zero => exact h
  | succ n ih =>
    have hp : (perm ||| pteP) &&& pteU = 0#32 := or_and_zero hperm (by decide)
    rw [region_succ]
    by_cases hd : d = (g + n) / 1024
    · subst hd
      unfold map
      split
      · simpa [put] using or_and_zero ih hp
      · exact ih
      · simpa [put, grow] using or_and_zero (or_and_zero (page2pa_and_pteU _) (by decide)) hp
    · rw [(map_of_ne hd).1]
      exact ih

theorem window_nil (hg : g = 1024 * d) (hnone : entryPage (v.pde d) = none) (hf : v.free = []) (hn : n ≤ 1024) :
    v.region g w perm n = v := by
  induction n with
  | zero => rfl
  | succ n ih =>
    rw [region_succ, ih (by omega)]
    have hd : (g + n) / 1024 = d := by omega
    simp [map, hd, hnone, hf]

theorem window_succ (hnone : entryPage (v.pde d) = none) (hf : v.free = p :: l) (hperm : IsPerm perm)
    (hp : p < 65536) (hn : n < 1024) :
    v.region (1024 * d) w perm (n + 1) = {
      free := l
      pde := update v.pde d (page2pa p ||| pteP ||| (perm ||| pteP))
      pte := update v.pte d fun t => if t < n + 1 then w t else v.pte d t } := by
  induction n with
  | zero =>
    have hd : (1024 * d + 0) / 1024 = d := by omega
    have ht : (1024 * d + 0) % 1024 = 0 := by omega
    rw [region_succ, region_zero, hd, ht]
    simp only [map, hnone, hf, put, grow, update_self, update_idem]
    congr 2
    funext t
    by_cases h0 : t = 0
    · simp [h0]
    · simp [h0]
  | succ n ih =>
    have hd : (1024 * d + (n + 1)) / 1024 = d := by omega
    have ht : (1024 * d + (n + 1)) % 1024 = n + 1 := by omega
    have hpres : entryPage (page2pa p ||| pteP ||| (perm ||| pteP)) = some p := by
      have hperm' : IsPerm (perm ||| pteP) := by
        unfold IsPerm at hperm ⊢
        rw [BitVec.toNat_or]
        exact Nat.or_lt_two_pow (n := 12) hperm (by decide)
      exact entryPage_or hperm' (entryPage_page2pa hp)
    have hidem : page2pa p ||| pteP ||| (perm ||| pteP) ||| (perm ||| pteP) =
        page2pa p ||| pteP ||| (perm ||| pteP) := by
      rw [BitVec.or_assoc (page2pa p ||| pteP), BitVec.or_self]
    rw [region_succ, ih (by omega), hd, ht]
    simp only [map, update_self, hpres]
    simp only [put, update_self, update_idem, hidem]
    congr 2
    funext t
    rw [update_apply]
    by_cases h1 : t = n + 1
    · simp [h1]
    · have : t < n + 1 + 1 ↔ t < n + 1 := by omega
      simp [h1, this]

theorem window_cons (hg : g = 1024 * d) (hnone : entryPage (v.pde d) = none) (hf : v.free = p :: l)
    (hperm : IsPerm perm) (hp : p < 65536) (h0 : 0 < n) (hn : n ≤ 1024) :
    v.region g w perm n = {
      free := l
      pde := update v.pde d (page2pa p ||| pteP ||| (perm ||| pteP))
      pte := update v.pte d fun t => if t < n then w t else v.pte d t } := by
  obtain ⟨n, rfl⟩ := Nat.exists_eq_succ_of_ne_zero (Nat.pos_iff_ne_zero.mp h0)
  subst hg
  exact window_succ hnone hf hperm hp hn

theorem isSome_entryPage {w : Word} : (entryPage w).isSome = true ↔ w &&& pteP = pteP := by
  unfold entryPage
  split <;> simp [*]

def tables (v : BootView) : Finset Nat := (Finset.range 1024).filter fun d => (entryPage (v.pde d)).isSome = true

theorem mem_tables : d ∈ v.tables ↔ d < 1024 ∧ (entryPage (v.pde d)).isSome = true := by
  simp [tables]

/-- Memory for all the tables there can be, and `r` pages more. -/
def Enough (v : BootView) (r : Nat) : Prop := 1024 + r ≤ v.free.length + v.tables.card

theorem Enough.free_ne_nil (h : v.Enough r) (hd : d < 1024) (hnone : entryPage (v.pde d) = none) : v.free ≠ [] := by
  intro hf
  have hsub : v.tables ⊂ Finset.range 1024 := by
    refine Finset.filter_ssubset.mpr ⟨d, Finset.mem_range.mpr hd, ?_⟩
    simp [hnone]
  have hcard := Finset.card_lt_card hsub
  unfold Enough at h
  rw [hf, List.length_nil] at h
  rw [Finset.card_range] at hcard
  omega

theorem Enough.spare (h : v.Enough r) : r ≤ v.free.length := by
  have hcard := Finset.card_le_card (Finset.filter_subset (fun d => (entryPage (v.pde d)).isSome = true)
    (Finset.range 1024))
  rw [Finset.card_range] at hcard
  unfold Enough tables at h
  omega

theorem sub_put : Sub (perm ||| pteP) ((v.put d t w perm).pde d) := by
  have hpde : (v.put d t w perm).pde d = perm ||| pteP ||| v.pde d := by simp [put, BitVec.or_comm]
  rw [hpde]
  exact (sub_refl _).or_right _

theorem present_of_sub {x : Word} (h : Sub (perm ||| pteP) x) : (entryPage x).isSome = true := by
  rw [isSome_entryPage]
  have hp : Sub pteP (perm ||| pteP) := by
    rw [BitVec.or_comm]
    exact (sub_refl _).or_right _
  rw [BitVec.and_comm]
  exact hp.trans h

theorem tables_put (hd : d < 1024) : (v.put d t w perm).tables = insert d v.tables := by
  ext x
  by_cases hx : x = d
  · subst hx
    simp [mem_tables, hd, present_of_sub sub_put]
  · simp [mem_tables, put, hx]

theorem Enough.map (h : v.Enough r) (hd : d < 1024) : (v.map d t w perm).Enough r := by
  unfold Enough at h ⊢
  cases he : entryPage (v.pde d) with
  | some p =>
    have hmem : d ∈ v.tables := by simp [mem_tables, hd, he]
    have hmap : v.map d t w perm = v.put d t w perm := by simp [BootView.map, he]
    rw [hmap, tables_put hd, Finset.insert_eq_self.mpr hmem]
    exact h
  | none =>
    cases hf : v.free with
    | nil => exact absurd hf (Enough.free_ne_nil h hd he)
    | cons p l =>
      have hmap : v.map d t w perm = (v.grow d p l).put d t w perm := by simp [BootView.map, he, hf]
      have hnot : d ∉ v.tables := by simp [mem_tables, he]
      have hgrow : insert d (v.grow d p l).tables = insert d v.tables := by
        ext x
        by_cases hx : x = d
        · simp [hx]
        · simp [mem_tables, grow, hx]
      rw [hmap, tables_put hd, hgrow, Finset.card_insert_of_notMem hnot]
      rw [hf, List.length_cons] at h
      simp only [put, grow]
      omega

theorem map_exact (h : v.Enough r) (hd : d < 1024) :
    (v.map d t w perm).pte = update v.pte d (update (v.pte d) t w) ∧
      Sub (perm ||| pteP) ((v.map d t w perm).pde d) := by
  cases he : entryPage (v.pde d) with
  | some p =>
    have hmap : v.map d t w perm = v.put d t w perm := by simp [BootView.map, he]
    rw [hmap]
    exact ⟨rfl, sub_put⟩
  | none =>
    cases hf : v.free with
    | nil => exact absurd hf (h.free_ne_nil hd he)
    | cons p l =>
      have hmap : v.map d t w perm = (v.grow d p l).put d t w perm := by simp [BootView.map, he, hf]
      rw [hmap]
      exact ⟨rfl, sub_put⟩

section
variable (h : v.Enough r) (hn : g + n ≤ 1048576)
include h hn

theorem Enough.region : (v.region g w f n).Enough r := by
  induction n with
  | zero => exact h
  | succ n ih =>
    rw [region_succ]
    exact (ih (by omega)).map (by omega)

theorem region_pte (ht : t < 1024) : (v.region g w f n).pte d t =
      if g ≤ 1024 * d + t ∧ 1024 * d + t < g + n then w (1024 * d + t - g) else v.pte d t := by
  induction n with
  | zero =>
    rw [if_neg (by omega)]
    rfl
  | succ n ih =>
    rw [region_succ, (map_exact (h.region (n := n) (by omega)) (by omega)).1]
    by_cases hd : d = (g + n) / 1024
    · subst hd
      rw [update_self, update_apply, ih (by omega)]
      by_cases hk : t = (g + n) % 1024
      · have hidx : 1024 * ((g + n) / 1024) + t = g + n := by omega
        rw [if_pos hk, if_pos (by omega), hidx, Nat.add_sub_cancel_left]
      · have hiff : 1024 * ((g + n) / 1024) + t < g + (n + 1) ↔ 1024 * ((g + n) / 1024) + t < g + n := by omega
        simp only [if_neg hk, hiff]
    · have hiff : 1024 * d + t < g + (n + 1) ↔ 1024 * d + t < g + n := by omega
      rw [update_of_ne hd, ih (by omega)]
      simp only [hiff]

theorem region_sub (hj : j < n) : Sub (f ||| pteP) ((v.region g w f n).pde ((g + j) / 1024)) := by
  induction n with
  | zero => omega
  | succ n ih =>
    rw [region_succ]
    by_cases hd : (g + j) / 1024 = (g + n) / 1024
    · rw [hd]
      exact (map_exact (h.region (by omega)) (by omega)).2
    · rw [(map_of_ne hd).1]
      exact ih (by omega) (by
        by_contra hjn
        exact hd (by rw [show j = n by omega]))

end

end BootView

end

end Jos
