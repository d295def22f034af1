import Jos.Kern.Mmu

/-!
# File descriptors as windows in the address space (`lib/fd.c`)

Descriptor `i` has its `struct Fd` in the page at `FDTABLE + i * PGSIZE` and a
data page at `FILEDATA + i * PGSIZE`. Here are `close` and `dup` on the pages of
the caller, with addresses that wrap.
-/

namespace Jos.Fd

open Function (update update_apply update_of_ne update_self)

/-! ## The address space -/

/-- A page and the `PTE_SYSCALL` bits with which it is mapped. -/
structure Entry where
  page : Nat
  perm : Word
  deriving DecidableEq

abbrev Space := Nat → Option Entry

/-- The contents of the pages and the answers of the others. -/
structure World where
  /-- `fd_dev_id` in a page. -/
  devId : Nat → Word
  /-- The answer of the file server or the network server to a close. -/
  answer : Int
  /-- The kernel has no page for a page table that it would need. -/
  refuses : Nat → Bool
  /-- The page table for the descriptors is there. -/
  table : ∀ p, p / 1024 = 832 → refuses p = false

def maxfd : Nat := 32
def fdtable : Word := 0xD0000000#32
def filedata : Word := 0xD0020000#32

def index2fd (i : Word) : Word := fdtable + i * 4096#32

def index2data (i : Word) : Word := filedata + i * 4096#32

def fd2num (fd : Word) : Word := (fd - fdtable) / 4096#32

def fd2data (fd : Word) : Word := index2data (fd2num fd)

section
variable (w : World)

/-- `sys_page_map(0, src, 0, dst, uvpt[PGNUM(src)] & PTE_SYSCALL)`. -/
def sysPageMap (src dst : Word) (s : Space) : Int × Space :=
  if utop ≤ src ∨ utop ≤ dst then (-eInval, s)
  else match s (pgnum src) with
    | none => (-eInval, s)
    | some e =>
      if w.refuses (pgnum dst) then (-eNoMem, s) else (0, update s (pgnum dst) (some e))

def sysPageUnmap (va : Word) (s : Space) : Int × Space :=
  if utop ≤ va then (-eInval, s) else (0, update s (pgnum va) none)

/-! ## `close` -/

def fdLookup (fdnum : Word) (s : Space) : Except Int Word :=
  if fdnum.toInt < 0 ∨ 32 ≤ fdnum.toInt then .error (-eInval)
  else
    let fd := index2fd fdnum
    if (s (pgnum fd)).isNone then .error (-eInval) else .ok fd

inductive Dev
  | file
  | sock
  | pipe
  | cons
  deriving DecidableEq

def devLookup (id : Word) : Option Dev :=
  if id = 0x66#32 then some .file
  else if id = 0x73#32 then some .sock
  else if id = 0x70#32 then some .pipe
  else if id = 0x63#32 then some .cons
  else none

def devClose (fd : Word) (s : Space) : Dev → Int × Space
  | .file => (w.answer, s)
  | .sock => (w.answer, s)
  | .pipe => sysPageUnmap (fd2data fd) (sysPageUnmap fd s).2
  | .cons => (0, s)

def fdDevId (fd : Word) (s : Space) : Word :=
  match s (pgnum fd) with
  | some e => w.devId e.page
  | none => 0

def fdClose (fd : Word) (mustExist : Bool) (s : Space) : Int × Space :=
  match fdLookup (fd2num fd) s with
  | .error r => (if mustExist then r else 0, s)
  | .ok fd2 =>
    if fd ≠ fd2 then (0, s)
    else
      let r := match devLookup (fdDevId w fd s) with
        | none => (-eInval, s)
        | some dev => devClose w fd s dev
      (r.1, (sysPageUnmap fd r.2).2)

def close (fdnum : Word) (s : Space) : Int × Space :=
  match fdLookup fdnum s with
  | .error r => (r, s)
  | .ok fd => fdClose w fd true s

/-! ## `dup` -/

def mapData (ova nva : Word) (s : Space) : Int × Space :=
  if (s (pgnum ova)).isSome then sysPageMap w ova nva s else (0, s)

def mapBoth (oldfd newfd : Word) (s : Space) : Int × Space :=
  let r := mapData w (fd2data oldfd) (fd2data newfd) s
  if r.1 < 0 then r else sysPageMap w oldfd newfd r.2

def dup (oldfdnum newfdnum : Word) (s : Space) : Int × Space :=
  match fdLookup oldfdnum s with
  | .error r => (r, s)
  | .ok oldfd =>
    let newfd := index2fd newfdnum
    let r := mapBoth w oldfd newfd (close w newfdnum s).2
    if r.1 < 0 then (r.1, (sysPageUnmap (fd2data newfd) (sysPageUnmap newfd r.2).2).2)
    else (newfdnum.toInt, r.2)

end

/-! ## What is wanted -/

def fdPage (i : Nat) : Nat := 0xD0000 + i

def dataPage (i : Nat) : Nat := 0xD0020 + i

/-- The call changes its target only, and makes it the same as `old`. -/
structure OnlyTarget (old : Nat) (new : Int) (s : Space) (r : Int) (t : Space) : Prop where
  fds : ∀ i < maxfd, (i : Int) ≠ new → t (fdPage i) = s (fdPage i)
  datas : ∀ i < maxfd, (i : Int) ≠ new → t (dataPage i) = s (dataPage i)
  target : 0 ≤ r → 0 ≤ new ∧ new < maxfd ∧ t (fdPage new.toNat) = s (fdPage old) ∧
    t (dataPage new.toNat) = s (dataPage old)

def InWindows (p : Nat) : Prop := 0xD0000 ≤ p ∧ p < 0xD0040

/-- `newfd` and `nva` of `dup`, as pages. -/
def newFdPage (new : Word) : Nat := (0xD0000 + new.toNat) % 0x100000

def newDataPage (new : Word) : Nat := (0xD0020 + new.toNat) % 0x100000

/-- The kernel does not map anything there. -/
def Refused (w : World) (p : Nat) : Prop := 0xEEC00 ≤ p ∨ w.refuses p = true

def MapFails (w : World) (old : Nat) (new : Word) (s : Space) : Prop :=
  ((s (dataPage old)).isSome ∧ Refused w (newDataPage new)) ∨ Refused w (newFdPage new)

def isPipe (w : World) (i : Nat) (s : Space) : Bool :=
  (s (fdPage i)).any fun e => devLookup (w.devId e.page) = some .pipe

/-- A number that is not one of a descriptor: neither `newfd` nor `nva` hits a
window in which the call makes a difference. -/
def Misses (w : World) (old : Nat) (new : Word) (s : Space) : Prop :=
  (MapFails w old new s ∧ (InWindows (newFdPage new) → s (newFdPage new) = none) ∧
    (InWindows (newDataPage new) → s (newDataPage new) = none)) ∨
  (¬ MapFails w old new s ∧ new.toInt < 0 ∧ (InWindows (newFdPage new) → s (newFdPage new) = s (fdPage old)) ∧
    ((s (dataPage old)).isSome → InWindows (newDataPage new) → s (newDataPage new) = s (dataPage old)))

/-! ## Addresses and pages -/

theorem utop_le_iff (va : Word) : utop ≤ va ↔ 0xEEC00 ≤ pgnum va := by
  rw [BitVec.le_def, utop_toNat, pgnum_eq]
  omega

theorem pgnum_index2fd (n : Word) : pgnum (index2fd n) = newFdPage n := by
  rw [pgnum_eq, index2fd, newFdPage, BitVec.toNat_add, BitVec.toNat_mul]
  have hf : fdtable.toNat = 0xD0000000 := rfl
  rw [hf]
  bv_omega

theorem fd2num_index2fd (n : Word) : (fd2num (index2fd n)).toNat = n.toNat % 0x100000 := by
  have hsub : index2fd n - fdtable = n * 4096#32 := by
    unfold index2fd
    rw [BitVec.add_comm, BitVec.add_sub_cancel]
  rw [fd2num, hsub, BitVec.toNat_udiv, BitVec.toNat_mul]
  simp only [BitVec.toNat_ofNat, Nat.reducePow, Nat.reduceMod]
  omega

theorem pgnum_fd2data (n : Word) : pgnum (fd2data (index2fd n)) = newDataPage n := by
  have hf : filedata.toNat = 0xD0020000 := rfl
  rw [pgnum_eq, fd2data, index2data, newDataPage, BitVec.toNat_add, BitVec.toNat_mul, fd2num_index2fd, hf]
  bv_omega

theorem newFdPage_of_lt {n : Word} (h : n.toNat < 32) : newFdPage n = fdPage n.toNat := by
  unfold newFdPage fdPage
  omega

theorem newDataPage_of_lt {n : Word} (h : n.toNat < 32) : newDataPage n = dataPage n.toNat := by
  unfold newDataPage dataPage
  omega

theorem newFdPage_ne (n : Word) : newFdPage n ≠ newDataPage n := by
  unfold newFdPage newDataPage
  omega

theorem outside_iff (n : Word) : n.toInt < 0 ∨ 32 ≤ n.toInt ↔ 32 ≤ n.toNat := by
  have h := n.isLt
  rw [BitVec.toInt_eq_toNat_cond]
  split <;> omega

theorem toInt_of_lt {n : Word} (h : n.toNat < 32) : n.toInt = n.toNat := by
  rw [BitVec.toInt_eq_toNat_cond, if_pos (by omega)]

/-! ## The calls -/

section
variable {w : World} {s : Space}

theorem sysPageUnmap_snd (va : Word) (s : Space) (h : p < 0xEEC00) :
    (sysPageUnmap va s).2 p = if p = pgnum va then none else s p := by
  unfold sysPageUnmap
  split
  · rename_i hle
    rw [utop_le_iff] at hle
    rw [if_neg (by omega)]
  · exact update_apply ..

theorem sysPageMap_none (h : s (pgnum src) = none) (dst : Word) : sysPageMap w src dst s = (-eInval, s) := by
  unfold sysPageMap
  rw [h]
  split <;> rfl

theorem sysPageMap_refused (h : Refused w (pgnum dst)) (src : Word) :
    (sysPageMap w src dst s).1 < 0 ∧ (sysPageMap w src dst s).2 = s := by
  unfold sysPageMap
  split
  · exact ⟨(by decide : -eInval < 0), rfl⟩
  · rename_i hno
    have href : w.refuses (pgnum dst) = true := by
      rw [utop_le_iff, utop_le_iff, not_or] at hno
      exact h.resolve_left hno.2
    split
    · exact ⟨(by decide : -eInval < 0), rfl⟩
    · rw [if_pos href]
      exact ⟨(by decide : -eNoMem < 0), rfl⟩

theorem sysPageMap_ok (h : ¬ Refused w (pgnum dst)) (hsrc : pgnum src < 0xEEC00) (hs : (s (pgnum src)).isSome) :
    sysPageMap w src dst s = (0, update s (pgnum dst) (s (pgnum src))) := by
  obtain ⟨e, he⟩ := Option.isSome_iff_exists.mp hs
  unfold Refused at h
  rw [not_or] at h
  unfold sysPageMap
  rw [if_neg (by rw [utop_le_iff, utop_le_iff]; omega), he]
  exact if_neg h.2

def withData (old : Nat) (new : Word) (s : Space) : Space :=
  if (s (dataPage old)).isSome then update s (newDataPage new) (s (dataPage old)) else s

theorem withData_of_ne (h : p ≠ newDataPage new) : withData old new s p = s p := by
  unfold withData
  split
  · rw [update_of_ne h]
  · rfl

theorem withData_self : withData old new s (newDataPage new) =
    if (s (dataPage old)).isSome then s (dataPage old) else s (newDataPage new) := by
  unfold withData
  split
  · rw [update_self]
  · rfl

theorem withData_isSome (h : (s p).isSome) (new : Word) : (withData old new s p).isSome := by
  by_cases hp : p = newDataPage new
  · subst hp
    rw [withData_self]
    split <;> assumption
  · rwa [withData_of_ne hp]

theorem withData_eq (h : (s (dataPage old)).isSome → p = newDataPage new → s p = s (dataPage old)) :
    withData old new s p = s p := by
  by_cases hp : p = newDataPage new
  · subst hp
    rw [withData_self]
    split
    · rename_i hs
      exact (h hs rfl).symm
    · rfl
  · exact withData_of_ne hp

theorem mapData_refused (ho : old.toNat < 32) (hs : (s (dataPage old.toNat)).isSome) (h : Refused w (newDataPage new)) :
    (mapData w (fd2data (index2fd old)) (fd2data (index2fd new)) s).1 < 0 ∧
      (mapData w (fd2data (index2fd old)) (fd2data (index2fd new)) s).2 = s := by
  unfold mapData
  rw [pgnum_fd2data, newDataPage_of_lt ho, if_pos hs]
  exact sysPageMap_refused (pgnum_fd2data new ▸ h) _

theorem mapData_ok (ho : old.toNat < 32) (h : (s (dataPage old.toNat)).isSome → ¬ Refused w (newDataPage new)) :
    mapData w (fd2data (index2fd old)) (fd2data (index2fd new)) s = (0, withData old.toNat new s) := by
  have hold : pgnum (fd2data (index2fd old)) = dataPage old.toNat := by rw [pgnum_fd2data, newDataPage_of_lt ho]
  unfold mapData withData
  rw [hold]
  split
  · rename_i hs
    rw [sysPageMap_ok (pgnum_fd2data new ▸ h hs) (by rw [hold, dataPage]; omega) (hold ▸ hs), hold, pgnum_fd2data]
  · rfl

theorem mapBoth_fails (ho : old.toNat < 32) (h : MapFails w old.toNat new s) :
    (mapBoth w (index2fd old) (index2fd new) s).1 < 0 ∧
      ∀ p, p ≠ newDataPage new → (mapBoth w (index2fd old) (index2fd new) s).2 p = s p := by
  unfold mapBoth
  by_cases hd : (s (dataPage old.toNat)).isSome ∧ Refused w (newDataPage new)
  · obtain ⟨hneg, hsame⟩ := mapData_refused ho hd.1 hd.2
    rw [if_pos hneg]
    exact ⟨hneg, fun p _ => congrFun hsame p⟩
  · have hf : Refused w (pgnum (index2fd new)) := pgnum_index2fd new ▸ h.resolve_left hd
    rw [mapData_ok ho fun hs hr => hd ⟨hs, hr⟩]
    obtain ⟨hneg, hsame⟩ := sysPageMap_refused (s := withData old.toNat new s) hf (index2fd old)
    exact ⟨hneg, fun p hp => (congrFun hsame p).trans (withData_of_ne hp)⟩

theorem mapBoth_ok (ho : old.toNat < 32) (hopen : (withData old.toNat new s (fdPage old.toNat)).isSome)
    (h : ¬ MapFails w old.toNat new s) : mapBoth w (index2fd old) (index2fd new) s =
      (0, update (withData old.toNat new s) (newFdPage new) (withData old.toNat new s (fdPage old.toNat))) := by
  have hold : pgnum (index2fd old) = fdPage old.toNat := by rw [pgnum_index2fd, newFdPage_of_lt ho]
  unfold MapFails at h
  rw [not_or] at h
  unfold mapBoth
  rw [mapData_ok ho fun hs hr => h.1 ⟨hs, hr⟩]
  dsimp only
  rw [if_neg (by decide), sysPageMap_ok (pgnum_index2fd new ▸ h.2) (by rw [hold, fdPage]; omega) (hold ▸ hopen), hold,
    pgnum_index2fd]

theorem mapBoth_gone (ho : old.toNat < 32) (hgone : withData old.toNat new s (fdPage old.toNat) = none) :
    (mapBoth w (index2fd old) (index2fd new) s).1 < 0 ∧
      ∀ p, p ≠ newDataPage new → (mapBoth w (index2fd old) (index2fd new) s).2 p = s p := by
  by_cases h : MapFails w old.toNat new s
  · exact mapBoth_fails ho h
  · unfold MapFails at h
    rw [not_or] at h
    have hold : pgnum (index2fd old) = fdPage old.toNat := by rw [pgnum_index2fd, newFdPage_of_lt ho]
    unfold mapBoth
    rw [mapData_ok ho fun hs hr => h.1 ⟨hs, hr⟩]
    dsimp only
    rw [if_neg (by decide), sysPageMap_none (hold ▸ hgone)]
    exact ⟨(by decide : -eInval < 0), fun p hp => withData_of_ne hp⟩

/-! ## `close` -/

theorem fdLookup_outside (h : 32 ≤ n.toNat) (s : Space) : fdLookup n s = .error (-eInval) := by
  unfold fdLookup
  exact if_pos ((outside_iff n).mpr h)

theorem fdLookup_lt {n : Word} (h : n.toNat < 32) (s : Space) :
    fdLookup n s = if (s (fdPage n.toNat)).isNone then .error (-eInval) else .ok (index2fd n) := by
  unfold fdLookup
  rw [if_neg (by rw [outside_iff]; omega)]
  dsimp only
  rw [pgnum_index2fd, newFdPage_of_lt h]

theorem close_outside (h : 32 ≤ n.toNat) (s : Space) : (close w n s).2 = s := by
  unfold close
  rw [fdLookup_outside h]

theorem close_open {n : Word} (h : n.toNat < 32) (he : s (fdPage n.toNat) = some e) :
    ∃ u, (close w n s).2 = (sysPageUnmap (index2fd n) u).2 ∧
      u = match devLookup (w.devId e.page) with
        | none => s
        | some dev => (devClose w (index2fd n) s dev).2 := by
  have hlook : fdLookup n s = .ok (index2fd n) := by
    rw [fdLookup_lt h, he]
    rfl
  have hnum : fd2num (index2fd n) = n := by
    apply BitVec.eq_of_toNat_eq
    rw [fd2num_index2fd]
    omega
  have hid : fdDevId w (index2fd n) s = w.devId e.page := by
    unfold fdDevId
    rw [pgnum_index2fd, newFdPage_of_lt h, he]
  unfold close
  rw [hlook]
  dsimp only
  unfold fdClose
  rw [hnum, hlook]
  dsimp only
  rw [if_neg (not_not_intro rfl), hid]
  refine ⟨_, rfl, ?_⟩
  split <;> rfl

theorem close_space {n : Word} (h : n.toNat < 32) (hp : p < 0xEEC00) : (close w n s).2 p =
    if p = fdPage n.toNat then none
    else if p = dataPage n.toNat ∧ isPipe w n.toNat s then none
    else s p := by
  unfold isPipe
  cases he : s (fdPage n.toNat) with
  | none =>
    have hclose : (close w n s).2 = s := by
      unfold close
      rw [fdLookup_lt h, he]
      rfl
    rw [hclose]
    simp only [Option.any_none, Bool.false_eq_true, and_false, if_false]
    split
    · rename_i hp
      rw [hp, he]
    · rfl
  | some e =>
    obtain ⟨u, hclose, hu⟩ := close_open (w := w) h he
    rw [hclose, sysPageUnmap_snd _ _ hp, pgnum_index2fd, newFdPage_of_lt h]
    by_cases hfd : p = fdPage n.toNat
    · rw [if_pos hfd, if_pos hfd]
    rw [if_neg hfd, if_neg hfd, hu]
    cases hdev : devLookup (w.devId e.page) with
    | none => simp [hdev]
    | some dev =>
      cases dev with
      | file => simp [hdev, devClose]
      | sock => simp [hdev, devClose]
      | cons => simp [hdev, devClose]
      | pipe =>
        unfold devClose
        dsimp only
        rw [sysPageUnmap_snd _ _ hp, sysPageUnmap_snd _ _ hp, pgnum_fd2data, pgnum_index2fd, newDataPage_of_lt h,
          newFdPage_of_lt h, if_neg hfd]
        simp [hdev]

theorem close_other {n : Word} (hn : n.toNat < 32) (hp : p < 0xEEC00) (h₁ : p ≠ fdPage n.toNat)
    (h₂ : p ≠ dataPage n.toNat) : (close w n s).2 p = s p := by
  rw [close_space hn hp, if_neg h₁, if_neg fun hc => h₂ hc.1]

/-! ## `dup` -/

def undone (new : Word) (s : Space) : Space :=
  (sysPageUnmap (fd2data (index2fd new)) (sysPageUnmap (index2fd new) s).2).2

theorem undone_space (new : Word) (s : Space) (hp : p < 0xEEC00) :
    undone new s p = if p = newDataPage new ∨ p = newFdPage new then none else s p := by
  unfold undone
  rw [sysPageUnmap_snd _ _ hp, sysPageUnmap_snd _ _ hp, pgnum_fd2data, pgnum_index2fd]
  by_cases h₁ : p = newDataPage new
  · rw [if_pos h₁, if_pos (.inl h₁)]
  · by_cases h₂ : p = newFdPage new
    · rw [if_neg h₁, if_pos h₂, if_pos (.inr h₂)]
    · rw [if_neg h₁, if_neg h₂, if_neg (not_or.mpr ⟨h₁, h₂⟩)]

theorem not_refused (h : InWindows p) : ¬ Refused w p := by
  obtain ⟨h₁, h₂⟩ := h
  rintro (h | h)
  · omega
  · rw [w.table p (by omega)] at h
    cases h

theorem fdPage_inWindows {i : Nat} (h : i < maxfd) : InWindows (fdPage i) := by
  unfold InWindows fdPage maxfd at *
  omega

theorem dataPage_inWindows {i : Nat} (h : i < maxfd) : InWindows (dataPage i) := by
  unfold InWindows dataPage maxfd at *
  omega

theorem inWindows_iff : InWindows p ↔ ∃ i < maxfd, p = fdPage i ∨ p = dataPage i := by
  constructor
  · rintro ⟨h₁, h₂⟩
    unfold fdPage dataPage maxfd
    rcases Nat.lt_or_ge p 0xD0020 with h | h
    · exact ⟨p - 0xD0000, by omega, .inl (by omega)⟩
    · exact ⟨p - 0xD0020, by omega, .inr (by omega)⟩
  · rintro ⟨i, hi, rfl | rfl⟩
    · exact fdPage_inWindows hi
    · exact dataPage_inWindows hi

theorem fdPage_lt {i : Nat} (h : i < maxfd) : fdPage i < 0xEEC00 := by
  unfold fdPage maxfd at *
  omega

theorem dataPage_lt {i : Nat} (h : i < maxfd) : dataPage i < 0xEEC00 := by
  unfold dataPage maxfd at *
  omega

theorem fdPage_ne_dataPage (i : Nat) {j : Nat} (h : i < maxfd) : fdPage i ≠ dataPage j := by
  unfold fdPage dataPage maxfd at *
  omega

theorem others_same {new : Word} {t : Space} (hn : new.toNat < maxfd)
    (h : ∀ p < 0xEEC00, p ≠ fdPage new.toNat → p ≠ dataPage new.toNat → t p = s p) :
    (∀ i < maxfd, (i : Int) ≠ new.toInt → t (fdPage i) = s (fdPage i)) ∧
      ∀ i < maxfd, (i : Int) ≠ new.toInt → t (dataPage i) = s (dataPage i) := by
  rw [toInt_of_lt hn]
  refine ⟨fun i hi hne => h _ (fdPage_lt hi) ?_ (fdPage_ne_dataPage i hi), fun i hi hne => h _ (dataPage_lt hi) ?_ ?_⟩
  · unfold fdPage
    omega
  · exact (fdPage_ne_dataPage _ hn).symm
  · unfold dataPage
    omega

theorem onlyTarget_outside_iff {new : Word} {t : Space} (hn : maxfd ≤ new.toNat) :
    OnlyTarget old new.toInt s r t ↔ r < 0 ∧ ∀ p, InWindows p → t p = s p := by
  have hno : ∀ i < maxfd, (i : Int) ≠ new.toInt := by
    intro i hi heq
    have := (outside_iff new).mpr hn
    unfold maxfd at hi
    omega
  constructor
  · intro h
    refine ⟨?_, fun p hp => ?_⟩
    · by_contra hge
      obtain ⟨h₁, h₂, -⟩ := h.target (by omega)
      exact hno new.toInt.toNat (by omega) (by omega)
    · obtain ⟨i, hi, rfl | rfl⟩ := inWindows_iff.mp hp
      · exact h.fds i hi (hno i hi)
      · exact h.datas i hi (hno i hi)
  · rintro ⟨hneg, h⟩
    exact ⟨fun i hi _ => h _ (fdPage_inWindows hi), fun i hi _ => h _ (dataPage_inWindows hi), fun hge => by omega⟩

theorem mapped_iff {old : Nat} {new : Word} (ho : old < maxfd) :
    (∀ p, InWindows p → update (withData old new s) (newFdPage new) (withData old new s (fdPage old)) p = s p) ↔
      (InWindows (newFdPage new) → s (newFdPage new) = s (fdPage old)) ∧
        ((s (dataPage old)).isSome → InWindows (newDataPage new) → s (newDataPage new) = s (dataPage old)) := by
  constructor
  · intro h
    have hdata : (s (dataPage old)).isSome → InWindows (newDataPage new) → s (newDataPage new) = s (dataPage old) := by
      intro hs hw
      have hd := h _ hw
      rw [update_of_ne (newFdPage_ne new).symm, withData_self, if_pos hs] at hd
      exact hd.symm
    refine ⟨fun hw => ?_, hdata⟩
    have hf := h _ hw
    rw [update_self, withData_eq fun hs heq => heq ▸ hdata hs (heq ▸ fdPage_inWindows ho)] at hf
    exact hf.symm
  · rintro ⟨hfd, hdata⟩ p hp
    by_cases hf : p = newFdPage new
    · subst hf
      rw [update_self, withData_eq fun hs heq => heq ▸ hdata hs (heq ▸ fdPage_inWindows ho)]
      exact (hfd hp).symm
    · rw [update_of_ne hf]
      exact withData_eq fun hs heq => heq ▸ hdata hs (heq ▸ hp)

section
variable {old new : Word} (ho : old.toNat < maxfd) (hopen : (s (fdPage old.toNat)).isSome)
include ho hopen

theorem dup_open : dup w old new s =
    if (mapBoth w (index2fd old) (index2fd new) (close w new s).2).1 < 0 then
      ((mapBoth w (index2fd old) (index2fd new) (close w new s).2).1,
        undone new (mapBoth w (index2fd old) (index2fd new) (close w new s).2).2)
    else (new.toInt, (mapBoth w (index2fd old) (index2fd new) (close w new s).2).2) := by
  unfold dup
  rw [fdLookup_lt ho, if_neg (by rw [Option.isNone_iff_eq_none]; exact Option.isSome_iff_ne_none.mp hopen)]
  rfl

theorem dup_fails (h : (mapBoth w (index2fd old) (index2fd new) (close w new s).2).1 < 0) :
    (dup w old new s).1 < 0 ∧
      (dup w old new s).2 = undone new (mapBoth w (index2fd old) (index2fd new) (close w new s).2).2 := by
  rw [dup_open ho hopen, if_pos h]
  exact ⟨h, rfl⟩

theorem dup_succeeds (h : mapBoth w (index2fd old) (index2fd new) (close w new s).2 = (0, t)) :
    dup w old new s = (new.toInt, t) := by
  rw [dup_open ho hopen, h]
  rfl

/-- A descriptor onto itself: it is closed, and then there is nothing to map. -/
theorem dup_self : OnlyTarget old.toNat old.toInt s (dup w old old s).1 (dup w old old s).2 := by
  have hgone : withData old.toNat old (close w old s).2 (fdPage old.toNat) = none := by
    rw [withData_of_ne (newDataPage_of_lt ho ▸ fdPage_ne_dataPage _ ho), close_space ho (fdPage_lt ho), if_pos rfl]
  obtain ⟨hneg, hsame⟩ := mapBoth_gone (w := w) ho hgone
  obtain ⟨hr, ht⟩ := dup_fails ho hopen hneg
  have hpage : ∀ p < 0xEEC00, p ≠ fdPage old.toNat → p ≠ dataPage old.toNat → (dup w old old s).2 p = s p := by
    intro p hp h₁ h₂
    rw [ht, undone_space _ _ hp, newFdPage_of_lt ho, newDataPage_of_lt ho, if_neg (not_or.mpr ⟨h₂, h₁⟩),
      hsame p (newDataPage_of_lt ho ▸ h₂), close_other ho hp h₁ h₂]
  obtain ⟨hfds, hdatas⟩ := others_same ho hpage
  exact ⟨hfds, hdatas, fun h => by omega⟩

theorem dup_inside_iff (hn : new.toNat < maxfd) :
    OnlyTarget old.toNat new.toInt s (dup w old new s).1 (dup w old new s).2 ↔ new = old ∨
      (s (dataPage old.toNat)).isSome ∨ s (dataPage new.toNat) = none ∨ isPipe w new.toNat s = true := by
  by_cases heq : new = old
  · subst heq
    exact iff_of_true (dup_self ho hopen) (.inl rfl)
  have hne : new.toNat ≠ old.toNat := fun h => heq (BitVec.eq_of_toNat_eq h)
  have hfd : fdPage old.toNat ≠ fdPage new.toNat := by
    unfold fdPage
    omega
  have hdata : dataPage old.toNat ≠ dataPage new.toNat := by
    unfold dataPage
    omega
  have hclosedFd : (close w new s).2 (fdPage old.toNat) = s (fdPage old.toNat) :=
    close_other hn (fdPage_lt ho) hfd (fdPage_ne_dataPage _ ho)
  have hclosedData : (close w new s).2 (dataPage old.toNat) = s (dataPage old.toNat) :=
    close_other hn (dataPage_lt ho) (fdPage_ne_dataPage _ hn).symm hdata
  have hwith : withData old.toNat new (close w new s).2 (fdPage old.toNat) = s (fdPage old.toNat) := by
    rw [withData_of_ne (newDataPage_of_lt hn ▸ fdPage_ne_dataPage _ ho), hclosedFd]
  have hfits : ¬ MapFails w old.toNat new (close w new s).2 := by
    unfold MapFails
    rw [newFdPage_of_lt hn, newDataPage_of_lt hn]
    exact not_or.mpr ⟨fun h => not_refused (dataPage_inWindows hn) h.2, not_refused (fdPage_inWindows hn)⟩
  rw [dup_succeeds ho hopen (mapBoth_ok ho (hwith.symm ▸ hopen) hfits), hwith, newFdPage_of_lt hn]
  dsimp only
  have hpage : ∀ p < 0xEEC00, p ≠ fdPage new.toNat → p ≠ dataPage new.toNat →
      update (withData old.toNat new (close w new s).2) (fdPage new.toNat) (s (fdPage old.toNat)) p = s p := by
    intro p hp h₁ h₂
    rw [update_of_ne h₁, withData_of_ne (newDataPage_of_lt hn ▸ h₂), close_other hn hp h₁ h₂]
  obtain ⟨hfds, hdatas⟩ := others_same hn hpage
  have htarget : withData old.toNat new (close w new s).2 (dataPage new.toNat) = s (dataPage old.toNat) ↔
      (s (dataPage old.toNat)).isSome ∨ s (dataPage new.toNat) = none ∨ isPipe w new.toNat s = true := by
    unfold withData
    rw [hclosedData, newDataPage_of_lt hn]
    by_cases hsome : (s (dataPage old.toNat)).isSome
    · rw [if_pos hsome, update_self]
      exact iff_of_true rfl (.inl hsome)
    · rw [if_neg hsome, close_space hn (dataPage_lt hn), if_neg (fdPage_ne_dataPage _ hn).symm]
      rw [Option.not_isSome_iff_eq_none] at hsome
      rw [hsome]
      by_cases hpipe : isPipe w new.toNat s = true
      · simp [hpipe]
      · simp [hpipe]
  constructor
  · intro h
    have htgt := h.target (by rw [toInt_of_lt hn]; omega)
    rw [toInt_of_lt hn, Int.toNat_natCast, update_of_ne (fdPage_ne_dataPage _ hn).symm] at htgt
    exact .inr (htarget.mp htgt.2.2.2)
  · intro h
    refine ⟨hfds, hdatas, fun _ => ?_⟩
    rw [toInt_of_lt hn, Int.toNat_natCast, update_self, update_of_ne (fdPage_ne_dataPage _ hn).symm]
    exact ⟨by omega, by exact_mod_cast hn, rfl, htarget.mpr (h.resolve_left heq)⟩

theorem dup_outside_iff (hn : maxfd ≤ new.toNat) :
    OnlyTarget old.toNat new.toInt s (dup w old new s).1 (dup w old new s).2 ↔ Misses w old.toNat new s := by
  have hclose : (close w new s).2 = s := close_outside hn s
  have hlt : ∀ {p}, InWindows p → p < 0xEEC00 := fun h => Nat.lt_trans h.2 (by decide)
  rw [onlyTarget_outside_iff hn]
  by_cases hfail : MapFails w old.toNat new s
  · obtain ⟨hneg, hsame⟩ := mapBoth_fails ho hfail
    rw [← hclose] at hneg
    obtain ⟨hr, ht⟩ := dup_fails ho hopen hneg
    have hpage : ∀ p, InWindows p → ((dup w old new s).2 p = s p ↔
        (p = newDataPage new ∨ p = newFdPage new → s p = none)) := by
      intro p hp
      rw [ht, undone_space _ _ (hlt hp), hclose]
      by_cases hit : p = newDataPage new ∨ p = newFdPage new
      · rw [if_pos hit]
        exact ⟨fun h _ => h.symm, fun h => (h hit).symm⟩
      · rw [if_neg hit, hsame p fun h => hit (.inl h)]
        exact iff_of_true rfl fun h => absurd h hit
    constructor
    · rintro ⟨-, h⟩
      exact .inl ⟨hfail, fun hw => (hpage _ hw).mp (h _ hw) (.inr rfl), fun hw => (hpage _ hw).mp (h _ hw) (.inl rfl)⟩
    · rintro (⟨-, hf, hd⟩ | ⟨hno, -⟩)
      · refine ⟨hr, fun p hp => (hpage p hp).mpr ?_⟩
        rintro (rfl | rfl)
        · exact hd hp
        · exact hf hp
      · exact absurd hfail hno
  · rw [dup_succeeds ho hopen (hclose.symm ▸ mapBoth_ok ho (withData_isSome hopen new) hfail)]
    unfold Misses
    rw [and_iff_right hfail, or_iff_right fun h => hfail h.1, ← mapped_iff ho, hclose]

/-- `dup` of an open descriptor touches its target only, and makes it the same, if and only if
the target is a descriptor that no stale data page is left to, or a number whose pages make
no difference to any descriptor. -/
theorem dup_only_target_iff :
    OnlyTarget old.toNat new.toInt s (dup w old new s).1 (dup w old new s).2 ↔
      (new.toNat < maxfd ∧ (new = old ∨ (s (dataPage old.toNat)).isSome ∨ s (dataPage new.toNat) = none ∨
        isPipe w new.toNat s = true)) ∨ (maxfd ≤ new.toNat ∧ Misses w old.toNat new s) := by
  rcases Nat.lt_or_ge new.toNat maxfd with hn | hn
  · rw [dup_inside_iff ho hopen hn]
    exact ⟨fun h => .inl ⟨hn, h⟩, fun h => (h.resolve_right fun h => Nat.not_lt.mpr h.1 hn).2⟩
  · rw [dup_outside_iff ho hopen hn]
    exact ⟨fun h => .inr ⟨hn, h⟩, fun h => (h.resolve_left fun h => Nat.not_lt.mpr hn h.1).2⟩

end

def calm : World := ⟨fun _ => 0x66#32, 0, fun _ => false, fun _ _ => rfl⟩

def oneFile : Space := fun p => if p = 0xD0000 then some ⟨1, 7⟩ else none

theorem dup_only_target_one : OnlyTarget 0 1 oneFile (dup calm 0 1 oneFile).1 (dup calm 0 1 oneFile).2 :=
  (@dup_only_target_iff calm oneFile 0 1 (by decide) rfl).mpr (.inl ⟨by decide, .inr (.inr (.inl rfl))⟩)

/-- `dup(0, 32)` succeeds and makes the `struct Fd` the data page of descriptor 0. -/
theorem dup_takes_data_page : (dup calm 0 32 oneFile).1 = 32 ∧
    (dup calm 0 32 oneFile).2 (dataPage 0) ≠ oneFile (dataPage 0) := by
  decide

end

end Jos.Fd
