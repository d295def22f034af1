import Jos.User.InitStack
import Jos.Fs.Disk

/-!
# The whole of `spawn` (`lib/spawn.c`)

Here are all the exits of `spawn`, and what it holds at each: a descriptor, an
environment, a page at `UTEMP`. What the other programs answer is given, by the
place of the call. `sys_page_unmap` of `UTEMP` in `map_segment`,
`sys_env_destroy` of the child and `close` of the program file do not fail.
-/

namespace Jos.SpawnCall

open Function (update update_eq_self update_idem update_self)

open Lib Spawn InitStack

/-! ## `map_segment` over any calls -/

/-- The calls that `map_segment` makes. -/
structure PageCalls (σ : Type) where
  pageAlloc : Word → Word → Word → M σ Spawn.Stop Int
  pageMap : Word → Word → Word → Word → Word → M σ Spawn.Stop Int
  pageUnmap : Word → Word → M σ Spawn.Stop Int
  seek : Word → M σ Spawn.Stop Int
  readn : Word → Nat → M σ Spawn.Stop Int

section
variable {σ : Type}

def mapPage (o : PageCalls σ) (child va filesz fileoffset perm i : Word) : M σ Spawn.Stop Int := do
  if filesz ≤ i then o.pageAlloc child (va + i) perm
  else
    let r ← o.pageAlloc 0 utemp (pteP ||| pteU ||| pteW)
    if r < 0 then return r
    else
      let r ← o.seek (fileoffset + i)
      if r < 0 then return r
      else
        let r ← o.readn utemp (min 4096 (filesz - i).toNat)
        if r < 0 then return r
        else
          let r ← o.pageMap 0 utemp child (va + i) perm
          if r < 0 then throw .panic
          else
            let _ ← o.pageUnmap 0 utemp
            return 0

def mapPages (o : Word → PageCalls σ) (child va memsz filesz fileoffset perm i : Word) : M σ Spawn.Stop Int :=
  if i < memsz then do
    let r ← mapPage (o i) child va filesz fileoffset perm i
    if r < 0 then return r
    else if h : i.toNat + 4096 < 4294967296 then mapPages o child va memsz filesz fileoffset perm (i + 4096)
    else throw .overflow
  else return 0
termination_by 4294967296 - i.toNat
decreasing_by
  have hi : (i + 4096).toNat = i.toNat + 4096 := by
    rw [BitVec.toNat_add]
    exact Nat.mod_eq_of_lt h
  omega

def mapSegment (o : Word → PageCalls σ) (child va memsz filesz fileoffset perm : Word) : M σ Spawn.Stop Int :=
  let i := BitVec.ofNat 32 (pgoff va)
  if i ≠ 0 then mapPages o child (va - i) (memsz + i) (filesz + i) (fileoffset - i) perm 0
  else mapPages o child va memsz filesz fileoffset perm 0

end

def kernelCalls (w : World) (c : Nat) (cur : EnvPtr) : PageCalls Caller where
  pageAlloc := Spawn.sysPageAlloc w c cur
  pageMap := Spawn.sysPageMap w c cur
  pageUnmap := Spawn.sysPageUnmap w c cur
  seek := Spawn.seek
  readn buf n := Spawn.readn w cur buf n 0

theorem mapPages_kernel (w : World) (c : Nat) (cur : EnvPtr) (child va memsz filesz fileoffset perm i : Word) :
    Spawn.mapPages w c cur child va memsz filesz fileoffset perm i =
      mapPages (fun _ => kernelCalls w c cur) child va memsz filesz fileoffset perm i := by
  fun_induction mapPages (fun _ => kernelCalls w c cur) child va memsz filesz fileoffset perm i with
  | case1 i hi ih =>
    rw [Spawn.mapPages, if_pos hi]
    refine bind_congr fun r => ?_
    split
    · rfl
    · split
      · exact ih ‹_›
      · rfl
  | case2 i hi => rw [Spawn.mapPages, if_neg hi]

/-- `map_segment` on the kernel is this one. -/
theorem mapSegment_kernel (w : World) (c : Nat) (cur : EnvPtr) (child va memsz filesz fileoffset perm : Word) :
    Spawn.mapSegment w c cur child va memsz filesz fileoffset perm =
      mapSegment (fun _ => kernelCalls w c cur) child va memsz filesz fileoffset perm := by
  simp only [Spawn.mapSegment, mapSegment, mapPages_kernel]

/-! ## `spawn` -/

/-- The caller: its open descriptors, its memory with the page at `UTEMP`, the
environments that the call has created and the first `eip` and `esp` of the
last one. `reads` lists the places, from `elf_buf` on, of the fields of
program headers that were read. -/
structure Parent where
  opened : Nat → Bool
  page : InitStack.State
  children : List Word
  entry : Option (Word × Word)
  reads : List Word

/-- The results of the calls for one page of a segment. -/
structure PageResults where
  pageAlloc : Int
  seek : Int
  readn : Int
  pageMap : Int

/-- The answers of the kernel and the file server, and the memory around `elf_buf`. -/
structure Answers where
  openFile : Int
  /-- The result of reading the header, and what `elf_buf` holds then. -/
  headerRead : Int
  header : Nat → BitVec 8
  /-- What is outside of `elf_buf` when the loop comes to a header. -/
  beyond : Nat → Word → BitVec 8
  readable : Nat → Word → Bool
  writable : Nat → Bool
  kernel_top : ∀ a, 0xFFFFF000 ≤ a → writable a = false
  /-- In the child the result would be 0, but the child does not come here. -/
  exofork : Word
  exofork_ne : exofork ≠ 0
  stack : Results
  segment : Nat → Word → PageResults
  copySharedPages : Int
  setTrapframe : Int
  setStatus : Int

abbrev ParentM := M Parent Spawn.Stop

def eNotExec : Int := 14

def Parent.withTemp (s : Parent) (b : Bool) : Parent := { s with page := { s.page with utempMapped := b } }

def pageCalls (x : PageResults) : PageCalls Parent where
  pageAlloc envid _ _ := do
    if x.pageAlloc < 0 then return x.pageAlloc
    else
      modify fun s => if envid = 0 then s.withTemp true else s
      return 0
  pageMap _ _ _ _ _ := if x.pageMap < 0 then return x.pageMap else return 0
  pageUnmap _ _ := do
    modify fun s => s.withTemp false
    return 0
  seek _ := if x.seek < 0 then return x.seek else return 0
  readn _ _ := return x.readn

section
variable (w : Answers)

def fdAlloc (opened : Nat → Bool) : Option Nat := (List.range 32).find? fun i => !opened i

def openFile : ParentM Int := do
  let s ← get
  match fdAlloc s.opened with
  | none => return -Fs.eMaxOpen
  | some fd =>
    if w.openFile < 0 then return w.openFile
    else
      set { s with opened := update s.opened fd true }
      return fd

def close (fd : Nat) : ParentM Unit := modify fun s => { s with opened := update s.opened fd false }

def sysEnvDestroy (child : Word) : ParentM Unit :=
  modify fun s => { s with children := s.children.filter (· ≠ child) }

def initStack (argv : List Arg) : ParentM Int := do
  let s ← get
  match exec (InitStack.initStack w.writable w.stack argv) s.page with
  | (.ok r, p) =>
    set { s with page := p }
    return r
  | (.error .fault, p) =>
    set { s with page := p }
    throw .fault
  | (.error .assertion, p) =>
    set { s with page := p }
    throw .panic

/-- The word at a place from `elf_buf` on when the loop comes to header `i`. -/
def Answers.word (i : Nat) (a : Word) : Word :=
  let byte := fun x : Word => if x.toNat < 512 then w.header x.toNat else w.beyond i x
  byte (a + 3) ++ byte (a + 2) ++ byte (a + 1) ++ byte a

def Inside (a : Word) : Prop := a.toNat + 4 ≤ 512

instance (a : Word) : Decidable (Inside a) := inferInstanceAs (Decidable (_ ≤ _))

def Answers.CanRead (i : Nat) (a : Word) : Prop := Inside a ∨ w.readable i a = true

instance (i : Nat) (a : Word) : Decidable (w.CanRead i a) := inferInstanceAs (Decidable (_ ∨ _))

def loadField (i : Nat) (a : Word) : ParentM Word := do
  modify fun s => { s with reads := a :: s.reads }
  if w.CanRead i a then return w.word i a else throw .fault

def Answers.magic : Word := wordAt w.header 0
def Answers.entry : Word := wordAt w.header 24
def Answers.phoff : Word := wordAt w.header 28
def Answers.phnum : Nat := (halfAt w.header 44).toNat

def Answers.place (i : Nat) : Word := w.phoff + BitVec.ofNat 32 (32 * i)

def mapHeader (child : Word) (i : Nat) : ParentM Int := do
  let ph := w.place i
  let type ← loadField w i ph
  if type ≠ elfProgLoad then return 0
  else
    let flags ← loadField w i (ph + 24)
    let va ← loadField w i (ph + 8)
    let memsz ← loadField w i (ph + 20)
    let filesz ← loadField w i (ph + 16)
    let offset ← loadField w i (ph + 4)
    let perm := segmentPerm ⟨type, offset, va, filesz, memsz, flags⟩
    mapSegment (fun j => pageCalls (w.segment i j)) child va memsz filesz offset perm

def mapHeaders (child : Word) : (i n : Nat) → ParentM Int
  | _, 0 => return 0
  | i, n + 1 => do
    let r ← mapHeader w child i
    if r < 0 then return r else mapHeaders child (i + 1) n

def load (fd : Nat) (child : Word) : ParentM Int := do
  let r ← mapHeaders w child 0 w.phnum
  if r < 0 then
    sysEnvDestroy child
    close fd
    return r
  else
    close fd
    if w.copySharedPages < 0 then throw .panic
    else if w.setTrapframe < 0 then throw .panic
    else
      modify fun s => { s with entry := some (w.entry, s.page.initEsp) }
      if w.setStatus < 0 then throw .panic else return child.toInt

def create (fd : Nat) (argv : List Arg) : ParentM Int := do
  if w.exofork.toInt < 0 then return w.exofork.toInt
  else
    let child := w.exofork
    modify fun s => { s with children := child :: s.children }
    let r ← initStack w argv
    if r < 0 then return r else load w fd child

def spawn (argv : List Arg) : ParentM Int := do
  let r ← openFile w
  if r < 0 then return r
  else
    let fd := r.toNat
    if w.headerRead ≠ 512 ∨ w.magic ≠ elfMagic then
      close fd
      return -eNotExec
    else create w fd argv

end

/-! ## One segment -/

/-- How a turn of the loop in `map_segment` ends. -/
inductive PageEnd
  | done
  /-- There was no page to be had. -/
  | refused (r : Int)
  /-- The file could not be read into the page at `UTEMP`. -/
  | unread (r : Int)
  | panics
  deriving DecidableEq

def pageEnd (x : PageResults) (blank : Bool) : PageEnd :=
  if x.pageAlloc < 0 then .refused x.pageAlloc
  else if blank then .done
  else if x.seek < 0 then .unread x.seek
  else if x.readn < 0 then .unread x.readn
  else if x.pageMap < 0 then .panics
  else .done

def PageEnd.exit (s : Parent) : PageEnd → Except Spawn.Stop Int × Parent
  | .done => (.ok 0, s)
  | .refused r => (.ok r, s)
  | .unread r => (.ok r, s.withTemp true)
  | .panics => (.error .panic, s.withTemp true)

theorem pageEnd_refused (h : pageEnd x b = .refused r) : r < 0 := by
  unfold pageEnd at h
  split at h
  · cases h
    assumption
  · split_ifs at h

theorem pageEnd_unread (h : pageEnd x b = .unread r) : r < 0 := by
  unfold pageEnd at h
  split_ifs at h
  · cases h
    assumption
  · cases h
    assumption

theorem withTemp_withTemp (s : Parent) (a b : Bool) : (s.withTemp a).withTemp b = s.withTemp b := rfl

theorem withTemp_self {s : Parent} (h : s.page.utempMapped = b) : s.withTemp b = s := by
  subst h
  rfl

theorem exec_mapPage {s : Parent} (hc : child ≠ 0) (hs : s.page.utempMapped = false) :
    exec (mapPage (pageCalls x) child va filesz fileoffset perm i) s = (pageEnd x (filesz ≤ i)).exit s := by
  unfold mapPage pageEnd
  by_cases hb : filesz ≤ i
  · rw [if_pos hb, if_pos (decide_eq_true hb)]
    simp only [pageCalls, if_neg hc]
    split
    · rfl
    · rfl
  · rw [if_neg hb, decide_eq_false hb]
    by_cases ha : x.pageAlloc < 0
    · simp [pageCalls, ha, PageEnd.exit]
    by_cases hk : x.seek < 0
    · simp [pageCalls, exec_map, ha, hk, PageEnd.exit]
    by_cases hn : x.readn < 0
    · simp [pageCalls, exec_map, ha, hk, hn, PageEnd.exit]
    by_cases hm : x.pageMap < 0
    · simp [pageCalls, exec_bind, ha, hk, hn, hm, PageEnd.exit]
    · simp [pageCalls, exec_bind, exec_map, ha, hk, hn, hm, PageEnd.exit, withTemp_withTemp, withTemp_self hs]

section
variable (res : Word → PageResults) (memsz filesz : Word)

/-- How the turn for page `k` ends. -/
def endAt (k : Nat) : PageEnd :=
  pageEnd (res (BitVec.ofNat 32 (4096 * k))) (filesz ≤ BitVec.ofNat 32 (4096 * k))

def AllDone : Prop := ∀ k, 4096 * k < memsz.toNat → endAt res filesz k = .done

/-- The loop does not get past page `k`. -/
structure EndsAt (k : Nat) (x : PageEnd) : Prop where
  lt : 4096 * k < memsz.toNat
  before : ∀ j < k, endAt res filesz j = .done
  ends : endAt res filesz k = x
  early : x ≠ .done

end

section
variable {res : Word → PageResults} {memsz filesz : Word}

theorem EndsAt.not_allDone (h : EndsAt res memsz filesz k x) : ¬ AllDone res memsz filesz :=
  fun hall => h.early (h.ends.symm.trans (hall k h.lt))

theorem EndsAt.unique (h : EndsAt res memsz filesz k x) (h' : EndsAt res memsz filesz k' x') : x = x' := by
  rcases Nat.lt_trichotomy k k' with hlt | rfl | hlt
  · exact (h.early (h.ends.symm.trans (h'.before k hlt))).elim
  · exact h.ends.symm.trans h'.ends
  · exact (h'.early (h'.ends.symm.trans (h.before k' hlt))).elim

/-- The last value that the counter of the loop can have and go on. -/
def lastTurn : Nat := 0xFFFFF000

theorem exec_mapPages {s : Parent} (hc : child ≠ 0) (hs : s.page.utempMapped = false) (hk : 4096 * k < 4294967296)
    (hb : ∀ j < k, endAt res filesz j = .done) :
    let run := exec (mapPages (fun j => pageCalls (res j)) child va memsz filesz fileoffset perm
      (BitVec.ofNat 32 (4096 * k))) s
    (AllDone res memsz filesz ∧ memsz.toNat ≤ lastTurn ∧ run = (.ok 0, s)) ∨
    (AllDone res memsz filesz ∧ lastTurn < memsz.toNat ∧ run = (.error .overflow, s)) ∨
    ∃ j x, EndsAt res memsz filesz j x ∧ run = x.exit s := by
  induction h : 1048576 - k generalizing k with
  | zero => omega
  | succ n ih =>
    intro run
    have hto : (BitVec.ofNat 32 (4096 * k) : Word).toNat = 4096 * k := by
      rw [BitVec.toNat_ofNat]
      exact Nat.mod_eq_of_lt hk
    have hrun : run = exec (mapPages (fun j => pageCalls (res j)) child va memsz filesz fileoffset perm
      (BitVec.ofNat 32 (4096 * k))) s := rfl
    rw [mapPages] at hrun
    by_cases hlt : 4096 * k < memsz.toNat
    · rw [if_pos (by rw [BitVec.lt_def, hto]; exact hlt)] at hrun
      have hpage : exec (mapPage (pageCalls (res (BitVec.ofNat 32 (4096 * k)))) child va filesz fileoffset perm
          (BitVec.ofNat 32 (4096 * k))) s = (endAt res filesz k).exit s := exec_mapPage hc hs
      cases hend : endAt res filesz k with
      | done =>
        rw [hend] at hpage
        rw [exec_bind_ok hpage, if_neg (by decide)] at hrun
        by_cases hmore : 4096 * k + 4096 < 4294967296
        · rw [dif_pos (by rw [hto]; exact hmore)] at hrun
          have hnext : BitVec.ofNat 32 (4096 * k) + 4096 = (BitVec.ofNat 32 (4096 * (k + 1)) : Word) := by
            rw [Nat.mul_add, BitVec.ofNat_add]
            rfl
          rw [hrun, hnext]
          refine ih (by omega) (fun j hj => ?_) (by omega)
          rcases Nat.lt_succ_iff_lt_or_eq.mp hj with hj | rfl
          · exact hb j hj
          · exact hend
        · rw [dif_neg (by rw [hto]; exact hmore)] at hrun
          have hm := memsz.isLt
          refine .inr (.inl ⟨fun j hj => ?_, by unfold lastTurn; omega, hrun⟩)
          rcases Nat.lt_or_ge j k with hj' | hj'
          · exact hb j hj'
          · obtain rfl : j = k := by omega
            exact hend
      | refused r =>
        rw [hend] at hpage
        rw [exec_bind_ok hpage, if_pos (pageEnd_refused hend)] at hrun
        exact .inr (.inr ⟨k, _, ⟨hlt, hb, hend, by simp⟩, hrun⟩)
      | unread r =>
        rw [hend] at hpage
        rw [exec_bind_ok hpage, if_pos (pageEnd_unread hend)] at hrun
        exact .inr (.inr ⟨k, _, ⟨hlt, hb, hend, by simp⟩, hrun⟩)
      | panics =>
        rw [hend] at hpage
        rw [exec_bind_error hpage] at hrun
        exact .inr (.inr ⟨k, _, ⟨hlt, hb, hend, by simp⟩, hrun⟩)
    · rw [if_neg (by rw [BitVec.lt_def, hto]; exact hlt)] at hrun
      exact .inl ⟨fun j hj => hb j (by omega), by unfold lastTurn; omega, hrun⟩

/-- The segment with the part of its first page before it. -/
def startsAt (x va : Word) : Word := x + BitVec.ofNat 32 (pgoff va)

theorem exec_mapSegment {s : Parent} (hc : child ≠ 0) (hs : s.page.utempMapped = false) :
    let run := exec (mapSegment (fun j => pageCalls (res j)) child va memsz filesz fileoffset perm) s
    (AllDone res (startsAt memsz va) (startsAt filesz va) ∧ (startsAt memsz va).toNat ≤ lastTurn ∧ run = (.ok 0, s)) ∨
    (AllDone res (startsAt memsz va) (startsAt filesz va) ∧ lastTurn < (startsAt memsz va).toNat ∧
      run = (.error .overflow, s)) ∨
    ∃ j x, EndsAt res (startsAt memsz va) (startsAt filesz va) j x ∧ run = x.exit s := by
  unfold mapSegment startsAt
  dsimp only
  generalize BitVec.ofNat 32 (pgoff va) = i
  split
  · exact exec_mapPages (k := 0) hc hs (by decide) fun _ hj => absurd hj (Nat.not_lt_zero _)
  · rename_i hi
    rw [not_not] at hi
    subst hi
    rw [show memsz + 0 = memsz from BitVec.add_zero _, show filesz + 0 = filesz from BitVec.add_zero _]
    exact exec_mapPages (k := 0) hc hs (by decide) fun _ hj => absurd hj (Nat.not_lt_zero _)

end

/-! ## One header -/

section
variable (w : Answers)

def Answers.IsLoad (i : Nat) : Prop := w.word i (w.place i) = elfProgLoad

instance (i : Nat) : Decidable (w.IsLoad i) := inferInstanceAs (Decidable (_ = _))

def Answers.va (i : Nat) : Word := w.word i (w.place i + 8)
def Answers.memsz (i : Nat) : Word := startsAt (w.word i (w.place i + 20)) (w.va i)
def Answers.filesz (i : Nat) : Word := startsAt (w.word i (w.place i + 16)) (w.va i)

def Answers.fields (i : Nat) : List Word :=
  let ph := w.place i
  if w.IsLoad i then [ph, ph + 24, ph + 8, ph + 20, ph + 16, ph + 4] else [ph]

def Answers.InBuffer (i : Nat) : Prop := (w.place i).toNat ≤ 508 ∧ (w.IsLoad i → (w.place i).toNat ≤ 484)

def Answers.Readable (i : Nat) : Prop := ∀ a ∈ w.fields i, w.CanRead i a

/-- The loop gets past header `i`. -/
def Answers.Passes (i : Nat) : Prop :=
  w.Readable i ∧ (w.IsLoad i → AllDone (w.segment i) (w.memsz i) (w.filesz i) ∧ (w.memsz i).toNat ≤ lastTurn)

/-- `map_segment` ends with a page at `UTEMP` that could not be read. -/
def Answers.Unread (i : Nat) : Prop :=
  w.Readable i ∧ w.IsLoad i ∧ ∃ k r, EndsAt (w.segment i) (w.memsz i) (w.filesz i) k (.unread r)

/-- The loop gets from header `i` to header `j`. -/
def Answers.Reaches (i j : Nat) : Prop := ∀ k, i ≤ k → k < j → w.Passes k

/-- What the loop does to the caller on `n` headers from `i` on. -/
structure Went (i n : Nat) (s u : Parent) : Prop where
  opened : u.opened = s.opened
  children : u.children = s.children
  grows : ∀ a ∈ s.reads, a ∈ u.reads
  only : ∀ a ∈ u.reads, a ∈ s.reads ∨ ∃ j, i ≤ j ∧ j < i + n ∧ w.Reaches i j ∧ a ∈ w.fields j
  probe : ∀ j, i ≤ j → j < i + n → w.Reaches i j → ¬ w.InBuffer j → ∃ a ∈ u.reads, ¬ Inside a

/-- Some fields of header `i` have been read, those in `l` among them. -/
structure Loads (i : Nat) (l : List Word) (s u : Parent) : Prop where
  frame : u = { s with reads := u.reads }
  grows : ∀ a ∈ s.reads, a ∈ u.reads
  only : ∀ a ∈ u.reads, a ∈ s.reads ∨ a ∈ w.fields i
  seen : ∀ a ∈ l, a ∈ u.reads

end

section
variable {w : Answers} {s u v : Parent} {child : Word}

theorem Answers.Unread.not_passes (h : w.Unread i) : ¬ w.Passes i := by
  obtain ⟨-, hload, k, r, hends⟩ := h
  exact fun hp => hends.not_allDone (hp.2 hload).1

theorem Answers.unread_iff (hr : w.Readable i) (hl : w.IsLoad i)
    (h : EndsAt (w.segment i) (w.memsz i) (w.filesz i) k x) : w.Unread i ↔ ∃ r, x = .unread r := by
  constructor
  · rintro ⟨-, -, k', r, h'⟩
    exact ⟨r, h.unique h'⟩
  · rintro ⟨r, rfl⟩
    exact ⟨hr, hl, k, r, h⟩

theorem loadField_rule (ha : a ∈ w.fields i) (h : Loads w i l s u) : Triple (loadField w i a) u
    (fun x v => x = w.word i a ∧ w.CanRead i a ∧ Loads w i (a :: l) s v)
    (fun _ v => ¬ w.CanRead i a ∧ Loads w i (a :: l) s v) := by
  have hl : Loads w i (a :: l) s { u with reads := a :: u.reads } := by
    refine ⟨?_, fun b hb => List.mem_cons_of_mem _ (h.grows b hb), fun b hb => ?_, fun b hb => ?_⟩
    · rw [h.frame]
    · rcases List.mem_cons.mp hb with rfl | hb
      · exact .inr ha
      · exact h.only b hb
    · rcases List.mem_cons.mp hb with rfl | hb
      · exact List.mem_cons_self
      · exact List.mem_cons_of_mem _ (h.seen b hb)
  refine .bind (.modify (Q := fun _ v => Loads w i (a :: l) s v) hl) fun _ v hv => ?_
  exact .ite (fun hr => .pure ⟨rfl, hr, hv⟩) fun hr => .throw ⟨hr, hv⟩

theorem Loads.went (h : Loads w i l s u) (h₀ : w.place i ∈ l)
    (h₁ : w.IsLoad i → Inside (w.place i) → w.place i + 24 ∈ l) :
    Went w i 1 s u := by
  refine ⟨by rw [h.frame], by rw [h.frame], h.grows, fun a ha => ?_, fun j hle hlt _ hout => ?_⟩
  · rcases h.only a ha with ha | ha
    · exact .inl ha
    · exact .inr ⟨i, Nat.le_refl _, Nat.lt_succ_self _, fun k h₁ h₂ => by omega, ha⟩
  · obtain rfl : j = i := by omega
    unfold Answers.InBuffer at hout
    by_cases hin : (w.place j).toNat ≤ 508
    · obtain ⟨hload, hbig⟩ : w.IsLoad j ∧ ¬ (w.place j).toNat ≤ 484 := by
        by_contra hno
        exact hout ⟨hin, fun hl => by_contra fun hb => hno ⟨hl, hb⟩⟩
      refine ⟨_, h.seen _ (h₁ hload (by unfold Inside; omega)), ?_⟩
      unfold Inside
      rw [BitVec.toNat_add]
      simp
      omega
    · refine ⟨_, h.seen _ h₀, ?_⟩
      unfold Inside
      omega

theorem Went.withTemp (h : Went w i n s u) (b : Bool) : Went w i n s (u.withTemp b) :=
  ⟨h.opened, h.children, h.grows, h.only, h.probe⟩

/-- How a turn of the loop over the headers ends. -/
structure Turned (w : Answers) (i : Nat) (s : Parent) (r : Int) (u : Parent) : Prop where
  went : Went w i 1 s u
  ends : (r = 0 ∧ w.Passes i ∧ u.page.utempMapped = false) ∨
    (r < 0 ∧ ¬ w.Passes i ∧ (u.page.utempMapped = true ↔ w.Unread i))

structure Stopped (w : Answers) (i : Nat) (s u : Parent) : Prop where
  went : Went w i 1 s u
  fails : ¬ w.Passes i
  read : ¬ w.Unread i

theorem Loads.stopped (h : Loads w i l s u) (h₀ : w.place i ∈ l)
    (h₁ : w.IsLoad i → Inside (w.place i) → w.place i + 24 ∈ l)
    (ha : a ∈ w.fields i) (hr : ¬ w.CanRead i a) : Stopped w i s u :=
  ⟨h.went h₀ h₁, fun hp => hr (hp.1 a ha), fun hu => hr (hu.1 a ha)⟩

theorem mapHeader_spec (hc : child ≠ 0) (hs : s.page.utempMapped = false) :
    Triple (mapHeader w child i) s (Turned w i s) (fun _ => Stopped w i s) := by
  have hstart : Loads w i [] s s := ⟨rfl, fun _ ha => ha, fun _ ha => .inl ha, by simp⟩
  have hplace : w.place i ∈ w.fields i := by
    unfold Answers.fields
    split <;> exact List.mem_cons_self
  unfold mapHeader
  refine .bind ((loadField_rule hplace hstart).imp_error fun _ v h => ?_) ?_
  · exact h.2.stopped (by simp) (fun _ hin => (h.1 (.inl hin)).elim) hplace h.1
  rintro type v ⟨rfl, hr, hl⟩
  refine .ite (fun hne => .pure ⟨hl.went (by simp) fun hload => absurd hload hne, .inl ⟨rfl, ⟨?_, ?_⟩, ?_⟩⟩) fun heq => ?_
  · have hfields : w.fields i = [w.place i] := if_neg hne
    intro a ha
    rw [hfields, List.mem_singleton] at ha
    exact ha ▸ hr
  · exact fun hload => absurd hload hne
  · rw [hl.frame]
    exact hs
  rw [not_not] at heq
  have hfields : w.fields i = [w.place i, w.place i + 24, w.place i + 8, w.place i + 20, w.place i + 16, w.place i + 4] :=
    if_pos heq
  -- The other fields are read one after the other; a read that fails ends the turn.
  have hnext : ∀ {a l v}, a ∈ w.fields i → w.place i ∈ l → w.place i + 24 ∈ a :: l → Loads w i l s v →
      Triple (loadField w i a) v (fun x v => x = w.word i a ∧ w.CanRead i a ∧ Loads w i (a :: l) s v)
        (fun _ => Stopped w i s) := fun ha h₀ h₁ h =>
    (loadField_rule ha h).imp_error fun _ _ h =>
      h.2.stopped (List.mem_cons_of_mem _ h₀) (fun _ _ => h₁) ha h.1
  refine .bind (hnext (by simp [hfields]) (by simp) (by simp) hl) ?_
  rintro flags v ⟨rfl, hr24, hl⟩
  refine .bind (hnext (by simp [hfields]) (by simp) (by simp) hl) ?_
  rintro va v ⟨rfl, hr8, hl⟩
  refine .bind (hnext (by simp [hfields]) (by simp) (by simp) hl) ?_
  rintro memsz v ⟨rfl, hr20, hl⟩
  refine .bind (hnext (by simp [hfields]) (by simp) (by simp) hl) ?_
  rintro filesz v ⟨rfl, hr16, hl⟩
  refine .bind (hnext (by simp [hfields]) (by simp) (by simp) hl) ?_
  rintro offset v ⟨rfl, hr4, hl⟩
  have hread : w.Readable i := by
    unfold Answers.Readable
    rw [hfields]
    simp only [List.forall_mem_cons, List.not_mem_nil, false_implies, implies_true, and_true]
    exact ⟨hr, hr24, hr8, hr20, hr16, hr4⟩
  have hwent : Went w i 1 s v := hl.went (by simp) fun _ _ => by simp
  have hv : v.page.utempMapped = false := by
    rw [hl.frame]
    exact hs
  rcases exec_mapSegment hc hv with ⟨hall, hle, hrun⟩ | ⟨hall, hlt, hrun⟩ | ⟨k, x, hends, hrun⟩
  · exact .of_ok hrun ⟨hwent, .inl ⟨rfl, ⟨hread, fun _ => ⟨hall, hle⟩⟩, hv⟩⟩
  · refine .of_error hrun ⟨hwent, fun hp => absurd (hp.2 heq).2 (Nat.not_le_of_lt hlt), ?_⟩
    rintro ⟨-, -, k, r, hends⟩
    exact hends.not_allDone hall
  · have hno : ¬ w.Passes i := fun hp => hends.not_allDone (hp.2 heq).1
    have hunread := Answers.unread_iff hread heq hends
    cases x with
    | done => exact absurd rfl hends.early
    | refused r => exact .of_ok hrun ⟨hwent, .inr ⟨pageEnd_refused hends.ends, hno, by simp [hunread, hv]⟩⟩
    | unread r =>
      exact .of_ok hrun ⟨hwent.withTemp _, .inr ⟨pageEnd_unread hends.ends, hno, by simp [hunread, Parent.withTemp]⟩⟩
    | panics => exact .of_error hrun ⟨hwent.withTemp _, hno, by simp [hunread]⟩

/-! ## The loop over the headers -/

theorem reaches_self (w : Answers) (i : Nat) : w.Reaches i i := fun _ h₁ h₂ => by omega

theorem reaches_of_passes (hp : w.Passes i) : w.Reaches i j ↔ w.Reaches (i + 1) j := by
  refine ⟨fun h k h₁ h₂ => h k (by omega) h₂, fun h k h₁ h₂ => ?_⟩
  rcases Nat.lt_or_eq_of_le h₁ with hlt | rfl
  · exact h k hlt h₂
  · exact hp

theorem le_of_not_passes (hp : ¬ w.Passes i) (h : w.Reaches i j) : j ≤ i :=
  Nat.le_of_not_lt fun hlt => hp (h i (Nat.le_refl _) hlt)

theorem Went.next (h : Went w i 1 s u) (hp : w.Passes i) (h' : Went w (i + 1) n u v) : Went w i (n + 1) s v := by
  refine ⟨h'.opened.trans h.opened, h'.children.trans h.children, fun a ha => h'.grows a (h.grows a ha),
    fun a ha => ?_, fun j h₁ h₂ hr hout => ?_⟩
  · rcases h'.only a ha with ha | ⟨j, h₁, h₂, hr, ha⟩
    · rcases h.only a ha with ha | ⟨j, h₁, h₂, hr, ha⟩
      · exact .inl ha
      · exact .inr ⟨j, h₁, by omega, hr, ha⟩
    · exact .inr ⟨j, by omega, by omega, (reaches_of_passes hp).mpr hr, ha⟩
  · rcases Nat.lt_or_eq_of_le h₁ with hlt | rfl
    · exact h'.probe j hlt (by omega) ((reaches_of_passes hp).mp hr) hout
    · obtain ⟨a, ha, hno⟩ := h.probe i (Nat.le_refl _) (by omega) hr hout
      exact ⟨a, h'.grows a ha, hno⟩

theorem Went.last (h : Went w i 1 s u) (hp : ¬ w.Passes i) : Went w i (n + 1) s u := by
  refine ⟨h.opened, h.children, h.grows, fun a ha => ?_, fun j h₁ h₂ hr hout => ?_⟩
  · rcases h.only a ha with ha | ⟨j, h₁, h₂, hr, ha⟩
    · exact .inl ha
    · exact .inr ⟨j, h₁, by omega, hr, ha⟩
  · exact h.probe j h₁ (by have := le_of_not_passes hp hr; omega) hr hout

/-- The loop over `n` headers from `i` on ends with a page left at `UTEMP`. -/
def Answers.LeavesPage (w : Answers) (i n : Nat) : Prop := ∃ j, i ≤ j ∧ j < i + n ∧ w.Reaches i j ∧ w.Unread j

theorem leavesPage_next (hp : w.Passes i) : w.LeavesPage i (n + 1) ↔ w.LeavesPage (i + 1) n := by
  constructor
  · rintro ⟨j, h₁, h₂, hr, hu⟩
    rcases Nat.lt_or_eq_of_le h₁ with hlt | rfl
    · exact ⟨j, hlt, by omega, (reaches_of_passes hp).mp hr, hu⟩
    · exact absurd hp hu.not_passes
  · rintro ⟨j, h₁, h₂, hr, hu⟩
    exact ⟨j, by omega, by omega, (reaches_of_passes hp).mpr hr, hu⟩

theorem leavesPage_last (hp : ¬ w.Passes i) : w.LeavesPage i (n + 1) ↔ w.Unread i := by
  constructor
  · rintro ⟨j, h₁, h₂, hr, hu⟩
    obtain rfl : j = i := Nat.le_antisymm (le_of_not_passes hp hr) h₁
    exact hu
  · exact fun hu => ⟨i, Nat.le_refl _, by omega, reaches_self w i, hu⟩

theorem mapHeaders_spec (hc : child ≠ 0) (hs : s.page.utempMapped = false) : Triple (mapHeaders w child i n) s
    (fun r u => Went w i n s u ∧ ((0 ≤ r ∧ ¬ w.LeavesPage i n) ∨ (r < 0 ∧ (u.page.utempMapped = true ↔ w.LeavesPage i n))))
    (fun _ u => Went w i n s u ∧ ¬ w.LeavesPage i n) := by
  induction n generalizing i s with
  | zero =>
    refine .pure ⟨⟨rfl, rfl, fun _ ha => ha, fun _ ha => .inl ha, fun j h₁ h₂ => by omega⟩, .inl ⟨Int.le_refl _, ?_⟩⟩
    rintro ⟨j, h₁, h₂, -⟩
    omega
  | succ n ih =>
    unfold mapHeaders
    refine .bind ((mapHeader_spec hc hs).imp_error fun _ u h => ?_) fun r u h => ?_
    · exact ⟨h.went.last h.fails, by rw [leavesPage_last h.fails]; exact h.read⟩
    · rcases h.ends with ⟨rfl, hp, hu⟩ | ⟨hr, hp, hiff⟩
      · refine .ite (fun hlt => absurd hlt (by decide)) fun _ => (ih hu).mono (fun r v h' => ?_) fun _ v h' => ?_
        · rw [leavesPage_next hp]
          exact ⟨h.went.next hp h'.1, h'.2⟩
        · rw [leavesPage_next hp]
          exact ⟨h.went.next hp h'.1, h'.2⟩
      · rw [if_pos hr, leavesPage_last hp]
        exact .pure ⟨h.went.last hp, .inr ⟨hr, hiff⟩⟩

/-! ## The whole call -/

/-- The fields in `l` are those of headers that the loop comes to, and one that
is not in `elf_buf` shows among them. -/
structure Reads (w : Answers) (l : List Word) : Prop where
  only : ∀ a ∈ l, ∃ j < w.phnum, w.Reaches 0 j ∧ a ∈ w.fields j
  probe : ∀ j < w.phnum, w.Reaches 0 j → ¬ w.InBuffer j → ∃ a ∈ l, ¬ Inside a

theorem Went.reads (h : Went w 0 w.phnum s u) (hs : s.reads = []) : Reads w u.reads := by
  refine ⟨fun a ha => ?_, fun j hj => h.probe j (Nat.zero_le _) (by omega)⟩
  rcases h.only a ha with ha | ⟨j, -, hj, hr, ha⟩
  · rw [hs] at ha
    cases ha
  · exact ⟨j, by omega, hr, ha⟩

theorem load_spec (w : Answers) (fd : Nat) (hc : child ≠ 0) (hpos : 0 ≤ child.toInt)
    (hs : s.page.utempMapped = false) (hr : s.reads = []) :
    Triple (load w fd child) s
      (fun r u => Reads w u.reads ∧ ((0 ≤ r ∧ ¬ w.LeavesPage 0 w.phnum) ∨
        (r < 0 ∧ u.opened = update s.opened fd false ∧ u.children = s.children.filter (· ≠ child) ∧
          (u.page.utempMapped = true ↔ w.LeavesPage 0 w.phnum))))
      (fun _ u => Reads w u.reads ∧ ¬ w.LeavesPage 0 w.phnum) := by
  unfold load
  refine .bind ((mapHeaders_spec hc hs).imp_error fun _ u h => ⟨h.1.reads hr, h.2⟩) ?_
  rintro r u ⟨hwent, ⟨hge, hno⟩ | ⟨hlt, hiff⟩⟩
  · refine .ite (fun hlt => by omega) fun _ => ?_
    refine .bind (.modify (Q := fun _ v => Reads w v.reads) (hwent.reads hr)) fun _ v hv => ?_
    refine .ite (fun _ => .throw ⟨hv, hno⟩) fun _ => .ite (fun _ => .throw ⟨hv, hno⟩) fun _ => ?_
    refine .bind (.modify (Q := fun _ v => Reads w v.reads) hv) fun _ v hv => ?_
    exact .ite (fun _ => .throw ⟨hv, hno⟩) fun _ => .pure ⟨hv, .inl ⟨hpos, hno⟩⟩
  · rw [if_pos hlt]
    refine .of_ok rfl ⟨hwent.reads hr, .inr ⟨hlt, ?_, ?_, hiff⟩⟩
    · rw [← hwent.opened]
    · rw [← hwent.children]

section
variable (w) (fd : Nat) (hc : child ≠ 0) (hpos : 0 ≤ child.toInt) (hs : s.page.utempMapped = false) (hr : s.reads = [])
include hc hpos hs hr

theorem load_reads : Reads w (exec (load w fd child) s).2.reads := by
  have h := load_spec w fd hc hpos hs hr
  unfold Triple at h
  split at h
  · rename_i hrun
    rw [hrun]
    exact h.1
  · rename_i hrun
    rw [hrun]
    exact h.1

theorem load_leaves (h : w.LeavesPage 0 w.phnum) :
    ∃ r t, exec (load w fd child) s = (.ok r, t) ∧ r < 0 ∧ t.page.utempMapped = true := by
  have hspec := load_spec w fd hc hpos hs hr
  obtain ⟨r, t, hrun, -, ⟨-, hno⟩ | ⟨hneg, -, -, hiff⟩⟩ :=
    (hspec.imp_error fun _ _ hno => hno.2 h).returns
  · exact absurd h hno
  · exact ⟨r, t, hrun, hneg, hiff.mpr h⟩

end

theorem exec_initStack_ok (h : exec (InitStack.initStack w.writable w.stack argv) s.page = (.ok r, p)) :
    exec (initStack w argv) s = (.ok r, { s with page := p }) := by
  unfold initStack
  rw [exec_bind_ok (exec_get s), h]
  rfl

theorem exec_initStack_error (h : exec (InitStack.initStack w.writable w.stack argv) s.page = (.error e, p)) :
    ∃ e', exec (initStack w argv) s = (.error e', { s with page := p }) := by
  unfold initStack
  rw [exec_bind_ok (exec_get s), h]
  cases e with
  | fault => exact ⟨_, rfl⟩
  | assertion => exact ⟨_, rfl⟩

theorem fdAlloc_free (h : fdAlloc opened = some fd) : opened fd = false := by
  have := List.find?_some h
  simpa using this

/-- The program file is open and its header is one of a program. -/
structure Loaded (w : Answers) (opened : Nat → Bool) (fd : Nat) : Prop where
  slot : fdAlloc opened = some fd
  openFile : 0 ≤ w.openFile
  headerRead : w.headerRead = 512
  magic : w.magic = elfMagic

theorem exec_openFile (hfd : fdAlloc s.opened = some fd) (h : 0 ≤ w.openFile) :
    exec (openFile w) s = (.ok fd, { s with opened := update s.opened fd true }) := by
  unfold openFile
  rw [exec_bind_ok (exec_get s), hfd]
  exact congrArg (exec · s) (if_neg (by omega))

theorem exec_spawn_loaded (h : Loaded w s.opened fd) :
    exec (spawn w argv) s = exec (create w fd argv) { s with opened := update s.opened fd true } := by
  unfold spawn
  rw [exec_bind_ok (exec_openFile h.slot h.openFile), if_neg (by omega), Int.toNat_natCast,
    if_neg (by simp [h.headerRead, h.magic])]

/-- The ways on from `sys_exofork`. -/
inductive Created (w : Answers) (fd : Nat) (argv : List Arg) (s : Parent) : Except Spawn.Stop Int × Parent → Prop
  | noEnv (h : w.exofork.toInt < 0) : Created w fd argv s (.ok w.exofork.toInt, s)
  | noStack (h : 0 ≤ w.exofork.toInt) (hs : Fails w.stack argv) (hr : r < 0) :
      Created w fd argv s (.ok r, { s with children := w.exofork :: s.children, page := p })
  | stopped (h : 0 ≤ w.exofork.toInt) (hs : ¬ Fails w.stack argv) (hn : ¬ need argv ≤ 4096) :
      Created w fd argv s (.error e, { s with children := w.exofork :: s.children, page := p })
  | loads (h : 0 ≤ w.exofork.toInt) (hs : Succeeds w.stack argv) (hp : p.utempMapped = false) : Created w fd argv s
      (exec (load w fd w.exofork) { s with children := w.exofork :: s.children, page := p })

theorem create_cases (w : Answers) (fd : Nat) (argv : List Arg) (s : Parent) :
    Created w fd argv s (exec (create w fd argv) s) := by
  unfold create
  by_cases hneg : w.exofork.toInt < 0
  · rw [if_pos hneg]
    exact .noEnv hneg
  rw [if_neg hneg, exec_bind_ok (exec_modify ..)]
  have hpos : 0 ≤ w.exofork.toInt := by omega
  have hspec : Triple (InitStack.initStack w.writable w.stack argv) s.page _ _ := initStack_spec w.kernel_top
  cases hrun : exec (InitStack.initStack w.writable w.stack argv) s.page with
  | mk x p =>
    cases x with
    | ok r =>
      rw [exec_bind_ok (exec_initStack_ok (s := { s with children := w.exofork :: s.children }) hrun)]
      rcases hspec.ok hrun with ⟨hr, hfails⟩ | ⟨rfl, hsucceeds, hp⟩
      · rw [if_pos hr]
        exact .noStack hpos hfails hr
      · rw [if_neg (by decide)]
        exact .loads hpos hsucceeds hp
    | error e =>
      obtain ⟨e', he⟩ := exec_initStack_error (s := { s with children := w.exofork :: s.children }) hrun
      rw [exec_bind_error he]
      exact .stopped hpos (hspec.error hrun).2 (hspec.error hrun).1

theorem exec_spawn_unloaded (argv : List Arg) (h : ¬ ∃ fd, Loaded w s.opened fd) :
    ∃ r < 0, exec (spawn w argv) s = (.ok r, s) := by
  unfold spawn
  cases hfd : fdAlloc s.opened with
  | none =>
    have hopen : exec (openFile w) s = (.ok (-Fs.eMaxOpen), s) := by
      unfold openFile
      rw [exec_bind_ok (exec_get s), hfd]
      rfl
    rw [exec_bind_ok hopen]
    exact ⟨-Fs.eMaxOpen, by decide, rfl⟩
  | some fd =>
    by_cases hneg : w.openFile < 0
    · have hopen : exec (openFile w) s = (.ok w.openFile, s) := by
        unfold openFile
        rw [exec_bind_ok (exec_get s), hfd]
        exact congrArg (exec · s) (if_pos hneg)
      rw [exec_bind_ok hopen, if_pos hneg]
      exact ⟨_, hneg, rfl⟩
    · have hbad : w.headerRead ≠ 512 ∨ w.magic ≠ elfMagic := by
        by_contra hno
        rw [not_or, not_not, not_not] at hno
        exact h ⟨fd, hfd, by omega, hno.1, hno.2⟩
      rw [exec_bind_ok (exec_openFile hfd (by omega)), if_neg (by omega), Int.toNat_natCast, if_pos hbad]
      refine ⟨-eNotExec, by decide, ?_⟩
      have hback : update (update s.opened fd true) fd false = s.opened := by
        rw [update_idem, ← fdAlloc_free hfd, update_eq_self]
      unfold close
      rw [exec_bind_ok (exec_modify ..), hback]
      rfl

end

def start (opened : Nat → Bool) (mem : Mem) (esp : Word) : Parent := ⟨opened, ⟨mem, false, none, esp⟩, [], none, []⟩

/-- Nothing is left of the call. -/
structure Clean (s t : Parent) : Prop where
  opened : t.opened = s.opened
  temp : t.page.utempMapped = false
  children : t.children = []

section
variable {w : Answers} {opened : Nat → Bool} {mem : Mem} {esp : Word} {argv : List Arg}

theorem leavesPage_zero : w.LeavesPage 0 w.phnum ↔ ∃ i < w.phnum, w.Reaches 0 i ∧ w.Unread i := by
  constructor
  · rintro ⟨i, -, hi, hr, hu⟩
    exact ⟨i, by omega, hr, hu⟩
  · rintro ⟨i, hi, hr, hu⟩
    exact ⟨i, Nat.zero_le _, by omega, hr, hu⟩

theorem spawn_cases (argv : List Arg) (mem : Mem) (esp : Word) (h : Loaded w opened fd) :
    Created w fd argv (start (update opened fd true) mem esp) (exec (spawn w argv) (start opened mem esp)) := by
  rw [exec_spawn_loaded (s := start opened mem esp) h]
  exact create_cases ..

/-- What a failed call leaves is nothing if and only if the call did not fail
for want of an environment, in `init_stack`, or reading a segment. -/
theorem failed_spawn_leaves_nothing_iff :
    (∀ r t, exec (spawn w argv) (start opened mem esp) = (.ok r, t) → r < 0 → Clean (start opened mem esp) t) ↔
      ∀ fd, Loaded w opened fd → 0 ≤ w.exofork.toInt ∧ ¬ Fails w.stack argv ∧
        (Succeeds w.stack argv → ∀ i < w.phnum, w.Reaches 0 i → ¬ w.Unread i) := by
  constructor
  · intro h fd hl
    have hopen : ∀ {t}, Clean (start opened mem esp) t → t.opened ≠ update opened fd true := by
      intro t ht heq
      have hfd := congrFun (ht.opened.symm.trans heq) fd
      rw [update_self] at hfd
      exact absurd ((fdAlloc_free hl.slot).symm.trans hfd) (by decide)
    have hcases := spawn_cases argv mem esp hl
    generalize exec (spawn w argv) (start opened mem esp) = run at h hcases
    cases hcases with
    | noEnv hneg => exact absurd rfl (hopen (h _ _ rfl hneg))
    | noStack _ _ hr => exact absurd rfl (hopen (h _ _ rfl hr))
    | stopped hpos hs hn => exact ⟨hpos, hs, fun hok => absurd hok.fits hn⟩
    | @loads p hpos hs hp =>
      refine ⟨hpos, hs.not_fails, fun _ i hi hreach hu => ?_⟩
      obtain ⟨r, t, hload, hneg, htemp⟩ := load_leaves w fd
        (s := ⟨update opened fd true, p, [w.exofork], none, []⟩) w.exofork_ne hpos hp rfl
        (leavesPage_zero.mpr ⟨i, hi, hreach, hu⟩)
      exact absurd (h r t hload hneg).temp (by simp [htemp])
  · intro h r t hrun hneg
    by_cases hl : ∃ fd, Loaded w opened fd
    · obtain ⟨fd, hl⟩ := hl
      have hcases := spawn_cases argv mem esp hl
      rw [hrun] at hcases
      obtain ⟨hpos, hstack, hseg⟩ := h fd hl
      generalize hx : (Except.ok r, t) = run at hcases
      cases hcases with
      | noEnv hlt => omega
      | noStack _ hfails _ => exact absurd hfails hstack
      | stopped => cases hx
      | @loads p _ hs hp =>
        have hspec := load_spec w fd (s := ⟨update opened fd true, p, [w.exofork], none, []⟩)
          w.exofork_ne hpos hp rfl
        obtain ⟨-, ⟨hge, -⟩ | ⟨-, hopened, hchildren, hiff⟩⟩ := hspec.ok hx.symm
        · omega
        · refine ⟨?_, ?_, ?_⟩
          · rw [hopened]
            change update (update opened fd true) fd false = opened
            rw [update_idem, ← fdAlloc_free hl.slot, update_eq_self]
          · rw [← Bool.not_eq_true, hiff, leavesPage_zero]
            rintro ⟨i, hi, hreach, hu⟩
            exact hseg hs i hi hreach hu
          · rw [hchildren]
            simp
    · obtain ⟨r', -, hsame⟩ := exec_spawn_unloaded (s := start opened mem esp) argv hl
      cases hrun.symm.trans hsame
      exact ⟨rfl, rfl, rfl⟩

def farHeader : Nat → BitVec 8
  | 0 => 0x7F
  | 1 => 0x45
  | 2 => 0x4C
  | 3 => 0x46
  | 29 => 2
  | 44 => 1
  | _ => 0

def farAnswers : Answers where
  openFile := 0
  headerRead := 512
  header := farHeader
  beyond _ _ := 0
  readable _ _ := false
  writable _ := false
  kernel_top _ _ := rfl
  exofork := 0x1001
  exofork_ne := by decide
  stack := .fine
  segment _ _ := ⟨0, 0, 0, 0⟩
  copySharedPages := 0
  setTrapframe := 0
  setStatus := 0

/-- Every call succeeds but `sys_exofork`, which returns `-E_NO_FREE_ENV`. -/
def fullAnswers : Answers := { farAnswers with exofork := 0xFFFFFFFB, exofork_ne := by decide }

/-- The program file stays open. -/
theorem spawn_keeps_descriptor : ∃ t, exec (spawn fullAnswers []) (start (fun _ => false) (fun _ => 0) 0) =
    (.ok (-eNoFreeEnv), t) ∧ ¬ Clean (start (fun _ => false) (fun _ => 0) 0) t := by
  have hl : Loaded fullAnswers (start (fun _ => false) (fun _ => 0) 0).opened 0 := ⟨rfl, by decide, rfl, by decide⟩
  rw [exec_spawn_loaded hl]
  refine ⟨_, congrArg (exec · _) (if_pos (by decide)), fun h => ?_⟩
  exact absurd (congrFun h.opened 0) (by decide)

theorem inside_of_inBuffer (h : w.InBuffer i) (ha : a ∈ w.fields i) : Inside a := by
  obtain ⟨h₀, h₁⟩ := h
  unfold Answers.fields at ha
  unfold Inside
  split at ha
  · have hload := h₁ ‹_›
    simp only [List.mem_cons, List.not_mem_nil, or_false] at ha
    rcases ha with rfl | rfl | rfl | rfl | rfl | rfl
    all_goals
      simp [BitVec.toNat_add]
      omega
  · rw [List.mem_singleton] at ha
    subst ha
    omega

/-- All fields of program headers that are read are in `elf_buf` if and only if
each header that the loop comes to is, as far as it is read. -/
theorem header_reads_inside_iff :
    (∀ a ∈ (exec (spawn w argv) (start opened mem esp)).2.reads, Inside a) ↔
      ∀ fd, Loaded w opened fd → 0 ≤ w.exofork.toInt → Succeeds w.stack argv →
        ∀ i < w.phnum, w.Reaches 0 i → w.InBuffer i := by
  constructor
  · intro h fd hl hpos hs i hi hreach
    have hcases := spawn_cases argv mem esp hl
    generalize exec (spawn w argv) (start opened mem esp) = run at h hcases
    cases hcases with
    | noEnv hneg => omega
    | noStack _ hfails => exact absurd hfails hs.not_fails
    | stopped _ _ hn => exact absurd hs.fits hn
    | @loads p _ _ hp =>
      have hreads := load_reads w fd (s := ⟨update opened fd true, p, [w.exofork], none, []⟩)
        w.exofork_ne hpos hp rfl
      by_contra hout
      obtain ⟨a, ha, hno⟩ := hreads.probe i hi hreach hout
      exact hno (h a ha)
  · intro h a ha
    by_cases hl : ∃ fd, Loaded w opened fd
    · obtain ⟨fd, hl⟩ := hl
      have hcases := spawn_cases argv mem esp hl
      generalize exec (spawn w argv) (start opened mem esp) = run at ha hcases
      cases hcases with
      | noEnv => cases ha
      | noStack => cases ha
      | stopped => cases ha
      | @loads p hpos hs hp =>
        have hreads := load_reads w fd (s := ⟨update opened fd true, p, [w.exofork], none, []⟩)
          w.exofork_ne hpos hp rfl
        obtain ⟨j, hj, hreach, hfield⟩ := hreads.only a ha
        exact inside_of_inBuffer (h fd hl hpos hs j hj hreach) hfield
    · obtain ⟨r', -, hsame⟩ := exec_spawn_unloaded (s := start opened mem esp) argv hl
      rw [hsame] at ha
      cases ha

/-- The only program header lies right behind `elf_buf`. -/
theorem spawn_reads_behind_buffer : farAnswers.magic = elfMagic ∧
    ∃ a ∈ (exec (spawn farAnswers []) (start (fun _ => false) (fun _ => 0) 0)).2.reads, ¬ Inside a := by
  have hl : Loaded farAnswers (fun _ => false) 0 := ⟨rfl, by decide, rfl, by decide⟩
  have hs : Succeeds farAnswers.stack [] := ⟨by decide, by decide, by decide, by decide⟩
  refine ⟨by decide, ?_⟩
  have hcases := spawn_cases [] (fun _ => 0) 0 hl
  generalize exec (spawn farAnswers []) (start (fun _ => false) (fun _ => 0) 0) = run at hcases
  cases hcases with
  | noEnv hneg => exact absurd hneg (by decide)
  | noStack _ hfails => exact absurd hfails hs.not_fails
  | stopped _ _ hn => exact absurd hs.fits hn
  | @loads p hpos _ hp =>
    have hreads := load_reads farAnswers 0
      (s := ⟨update (fun _ => false) 0 true, p, [farAnswers.exofork], none, []⟩) farAnswers.exofork_ne hpos hp rfl
    exact hreads.probe 0 (by decide) (reaches_self _ _) fun hin => absurd hin.1 (by decide)

end

end Jos.SpawnCall
