import Jos.Kern.Contents
import Jos.Kern.Family

/-!
# The two program loaders (`kern/env.c`, `lib/spawn.c`)

`env_create` loads an image that is linked into the kernel: it allocates the
pages of a segment, clears them and copies the file data. `spawn` loads a file:
it fills one page after another at `UTEMP` and maps it into the child. Here is
`map_segment` with the calls it makes, among other environments that run in
between, and what both loaders leave in the new environment.
-/

namespace Jos.Spawn

open Lib

/-! ## The image (`inc/elf.h`) -/

/-- A program file; its positions are 32-bit. -/
structure Image where
  size : Nat
  byte : Nat → BitVec 8
  size_le : size ≤ 4294967296

def halfAt (b : Nat → BitVec 8) (n : Nat) : BitVec 16 := b (n + 1) ++ b n

def wordAt (b : Nat → BitVec 8) (n : Nat) : Word := b (n + 3) ++ b (n + 2) ++ b (n + 1) ++ b n

/-- The fields of a `struct Proghdr` that the loaders read. -/
structure Phdr where
  type : Word
  offset : Word
  va : Word
  filesz : Word
  memsz : Word
  flags : Word
  deriving DecidableEq

def phdrAt (b : Nat → BitVec 8) (n : Nat) : Phdr where
  type := wordAt b n
  offset := wordAt b (n + 4)
  va := wordAt b (n + 8)
  filesz := wordAt b (n + 16)
  memsz := wordAt b (n + 20)
  flags := wordAt b (n + 24)

/-- The program headers that the header in `b` announces (`e_phoff`, `e_phnum`). -/
def phdrs (b : Nat → BitVec 8) : List Phdr :=
  (List.range (halfAt b 44).toNat).map fun i => phdrAt b ((wordAt b 28).toNat + 32 * i)

def Phdr.proghdr (b : Nat → BitVec 8) (ph : Phdr) : Proghdr where
  type := ph.type
  va := ph.va
  filesz := ph.filesz
  memsz := ph.memsz
  data := fun j => b (ph.offset.toNat + j)

def Image.elf (img : Image) : Elf where
  magic := wordAt img.byte 0
  entry := wordAt img.byte 24
  ph := (phdrs img.byte).map fun ph => ph.proghdr img.byte

/-- `elf_buf` of `spawn`: the first 512 bytes of the file, and then whatever follows on the stack. -/
def Image.elfBuf (img : Image) (stack : Nat → BitVec 8) (n : Nat) : BitVec 8 :=
  if n < 512 then img.byte n else stack n

/-! ## The calls `map_segment` makes -/

def utemp : Word := 0x400000#32

/-- The machine as the caller of `spawn` sees it, the seek position of the
open file, and how often others have had their turn. -/
structure Caller where
  kernel : Kernel
  fdOffset : Word
  now : Nat

inductive Stop
  /-- The kernel does not come back to the caller. -/
  | kernel (x : Exit)
  | panic
  | fault
  /-- The counter of a loop has no next value. -/
  | overflow

abbrev SpawnM := M Caller Stop

/-- What the caller does not do itself: `others` is the kernel after the other
environments have had their turn, and `answer` what the file server makes of a
request to read, by seek position and length. -/
structure World where
  others : Nat → Kernel → Kernel
  answer : Nat → Word → Word → Int × (Nat → BitVec 8)

section
variable (w : World) (c : Nat) (cur : EnvPtr)

def turn : SpawnM Unit :=
  modify fun s => { s with kernel := w.others s.now s.kernel, now := s.now + 1 }

/-- `syscall` of `lib/syscall.c`, with its check of the result. -/
def sys (a : Args) : SpawnM Int := do
  turn w
  let s ← get
  match exec (a.call c cur) s.kernel with
  | (.ok r, k) =>
    set { s with kernel := k }
    if 0 < r.toInt then throw .panic else return r.toInt
  | (.error x, k) =>
    set { s with kernel := k }
    throw (.kernel x)

def sysPageAlloc (envid va perm : Word) : SpawnM Int := sys w c cur ⟨4, envid, va, perm, 0, 0⟩

def sysPageMap (srcenv srcva dstenv dstva perm : Word) : SpawnM Int := sys w c cur ⟨5, srcenv, srcva, dstenv, dstva, perm⟩

def sysPageUnmap (envid va : Word) : SpawnM Int := sys w c cur ⟨6, envid, va, 0, 0, 0⟩

/-- A store by the caller itself. -/
def storeByte (va : Word) (b : BitVec 8) : SpawnM Unit := do
  let s ← get
  let m := s.kernel.pmap.mem
  let pgdir := (s.kernel.envs cur).pgdir
  match translate m pgdir va with
  | none => throw .fault
  | some (p, _) =>
    if userCanWrite m pgdir va then
      set { s with kernel := s.kernel.withPmap { s.kernel.pmap with mem := Function.update m (physical p va) b } }
    else throw .fault

def memmove (va : Word) (n : Nat) (bytes : Nat → BitVec 8) : SpawnM Unit :=
  (List.range n).forM fun j => storeByte cur (va + BitVec.ofNat 32 j) (bytes j)

def seek (offset : Word) : SpawnM Int := do
  modify fun s => { s with fdOffset := offset }
  return 0

/-- `read` of a file, which is `devfile_read`; `serve_read` moves the seek position. -/
def read (buf n : Word) : SpawnM Int := do
  turn w
  let s ← get
  let answer := w.answer s.now s.fdOffset n
  let r := answer.1
  if r < 0 then return r
  else if (n.toNat : Int) < r ∨ 4096 < r then throw .panic
  else
    set { s with fdOffset := s.fdOffset + BitVec.ofInt 32 r }
    memmove cur buf r.toNat answer.2
    return r

def readn (buf : Word) (n tot : Nat) : SpawnM Int :=
  if h : tot < n then do
    let m ← read w cur (buf + BitVec.ofNat 32 tot) (BitVec.ofNat 32 (n - tot))
    if hm : m < 0 then return m
    else if hz : m = 0 then return tot
    else readn buf n (tot + m.toNat)
  else return tot
termination_by n - tot
decreasing_by omega

/-! ## `map_segment` -/

def mapPage (child va filesz fileoffset perm i : Word) : SpawnM Int := do
  if filesz ≤ i then sysPageAlloc w c cur child (va + i) perm
  else
    let r ← sysPageAlloc w c cur 0 utemp (pteP ||| pteU ||| pteW)
    if r < 0 then return r
    else
      let r ← seek (fileoffset + i)
      if r < 0 then return r
      else
        let r ← readn w cur utemp (min 4096 (filesz - i).toNat) 0
        if r < 0 then return r
        else
          let r ← sysPageMap w c cur 0 utemp child (va + i) perm
          if r < 0 then throw .panic
          else
            let _ ← sysPageUnmap w c cur 0 utemp
            return 0

def mapPages (child va memsz filesz fileoffset perm i : Word) : SpawnM Int :=
  if i < memsz then do
    let r ← mapPage w c cur child va filesz fileoffset perm i
    if r < 0 then return r
    else if h : i.toNat + 4096 < 4294967296 then mapPages child va memsz filesz fileoffset perm (i + 4096)
    else throw .overflow
  else return 0
termination_by 4294967296 - i.toNat
decreasing_by
  have hi : (i + 4096).toNat = i.toNat + 4096 := by
    rw [BitVec.toNat_add]
    exact Nat.mod_eq_of_lt h
  omega

def mapSegment (child va memsz filesz fileoffset perm : Word) : SpawnM Int :=
  let i := BitVec.ofNat 32 (pgoff va)
  if i ≠ 0 then mapPages w c cur child (va - i) (memsz + i) (filesz + i) (fileoffset - i) perm 0
  else mapPages w c cur child va memsz filesz fileoffset perm 0

def elfProgFlagWrite : Word := 2

def segmentPerm (ph : Phdr) : Word :=
  if ph.flags &&& elfProgFlagWrite ≠ 0 then pteP ||| pteU ||| pteW else pteP ||| pteU

def mapSegments (child : Word) : List Phdr → SpawnM Int
  | [] => return 0
  | ph :: phs => do
    if ph.type ≠ elfProgLoad then mapSegments child phs
    else
      let r ← mapSegment w c cur child ph.va ph.memsz ph.filesz ph.offset (segmentPerm ph)
      if r < 0 then return r
      else mapSegments child phs

end

/-! ## What the page calls do to the child -/

section
variable {P : Platform} {k k' : Kernel} {cur e : EnvPtr} {child : Word}

/-- The caller may change the child. -/
structure Ready (P : Platform) (cur : EnvPtr) (child : Word) (e : EnvPtr) (k : Kernel) : Prop where
  ok : KernelOk P k
  bounded : k.Bounded
  live : k.Live cur
  child : k.resolve cur child true = some e

theorem Ready.steady (h : Ready P cur child e k) : Steady P k.dirs k.pmap := h.ok.steady h.bounded

theorem Ready.child_live (h : Ready P cur child e k) : k.Live e := live_resolve h.live h.child

theorem Ready.withPmap (h : Ready P cur child e k) (hs : Steady P k.dirs s) : Ready P cur child e (k.withPmap s) :=
  ⟨h.ok.withPmap hs.ok, hs.bounded, h.live, h.child⟩

/-- The child holds what it held, outside `A`. -/
structure Goes (P : Platform) (cur : EnvPtr) (child : Word) (e : EnvPtr) (A : Word → Prop) (k k' : Kernel) : Prop where
  ready : Ready P cur child e k'
  kept : a < utop → ¬ A a → k.Holds e a b → k'.Holds e a b

theorem Ready.refl {A : Word → Prop} (h : Ready P cur child e k) : Goes P cur child e A k k :=
  ⟨h, fun _ _ hb => hb⟩

theorem Goes.trans {A : Word → Prop} (h : Goes P cur child e A k k') (h' : Goes P cur child e A k' k'') :
    Goes P cur child e A k k'' :=
  ⟨h'.ready, fun ha hA hb => h'.kept ha hA (h.kept ha hA hb)⟩

theorem Goes.mono {A B : Word → Prop} (h : Goes P cur child e A k k') (hAB : ∀ a, A a → B a) :
    Goes P cur child e B k k' :=
  ⟨h.ready, fun ha hB hb => h.kept ha (mt (hAB _) hB) hb⟩

def Nowhere (_ : Word) : Prop := False

theorem Goes.anywhere {A : Word → Prop} (h : Goes P cur child e Nowhere k k') : Goes P cur child e A k k' :=
  h.mono fun _ ha => ha.elim

theorem Ready.goes {A : Word → Prop} (h : Ready P cur child e k) (hs : Steady P k.dirs s)
    (ho : HoldsOutside k.dirs e A k.pmap.mem s.mem) : Goes P cur child e A k (k.withPmap s) :=
  ⟨h.withPmap hs, fun ha hA hb => ho e _ _ ha (fun hc => hA hc.2) hb⟩

theorem Ready.goes_caller {A : Word → Prop} (h : Ready P cur child e k) (hne : e ≠ cur) (hs : Steady P k.dirs s)
    (ho : HoldsOutside k.dirs cur A k.pmap.mem s.mem) : Goes P cur child e Nowhere k (k.withPmap s) :=
  ⟨h.withPmap hs, fun ha _ hb => ho e _ _ ha (fun hc => hne hc.1) hb⟩

/-- The page at `UTEMP` is the caller's alone and holds `g`. -/
structure Temp (cur : EnvPtr) (g : Nat → BitVec 8) (k : Kernel) : Prop where
  sole : Sole k.dirs k.pmap.mem cur utemp
  holds : j < 4096 → k.Holds cur (utemp + BitVec.ofNat 32 j) (g j)

theorem onPage_add {va : Word} (ha : va.toNat % 4096 = 0) (hj : j < 4096) : OnPage va (va + BitVec.ofNat 32 j) := by
  unfold OnPage
  rw [(page_offset ha hj).1]
  omega

theorem onPage_lt {va a : Word} (h : OnPage va a) (hva : va < utop) : a < utop := by
  unfold OnPage at h
  rw [BitVec.lt_def, utop_toNat] at hva ⊢
  omega

theorem utemp_aligned : utemp.toNat % 4096 = 0 := by decide

theorem utemp_lt : utemp < utop := by decide

theorem utemp_offset (hj : j < 4096) : (utemp + BitVec.ofNat 32 j).toNat = utemp.toNat + j :=
  (page_offset utemp_aligned hj).1

/-- A cleared page that nothing else refers to is behind `va`. -/
structure Cleared (dirs : EnvPtr → Option Nat) (x : EnvPtr) (va : Word) (m m' : Mem) : Prop where
  lt : va < utop
  aligned : va.toNat % 4096 = 0
  sole : Sole dirs m' x va
  zero : OnPage va a → Jos.Holds dirs m' x a 0#8
  outside : HoldsOutside dirs x (OnPage va) m m'

theorem aligned_of_not_badVa (h : ¬ badVa va) : va.toNat % 4096 = 0 := by
  unfold badVa at h
  push Not at h
  exact congrArg BitVec.toNat h.2

def Refused (r : Int) : Prop := r = -eInval ∨ r = -eNoMem ∨ r = -eBadEnv

theorem call_int {m : KernelM Int} {Q : Kernel → Prop} (h : Triple m k (fun r k' => Refused r ∨ (r = 0 ∧ Q k')) E) :
    Triple (do return BitVec.ofInt 32 (← m) : KernelM Word) k (fun r k' => r.toInt < 0 ∨ Q k') E := by
  refine .bind h ?_
  rintro r k' ((rfl | rfl | rfl) | ⟨rfl, hq⟩)
  · exact .pure (.inl (by decide))
  · exact .pure (.inl (by decide))
  · exact .pure (.inl (by decide))
  · exact .pure (.inr hq)

theorem pageAlloc_call (h : KernelOk P k) (hb : k.Bounded) (hx : k.Live x) (he : k.resolve cur envid true = some x) :
    Triple (Args.call ⟨4, envid, va, perm, 0, 0⟩ c cur) k
      (fun r k' => r.toInt < 0 ∨ ∃ s, k' = k.withPmap s ∧ Steady P k.dirs s ∧ Cleared k.dirs x va k.pmap.mem s.mem)
      (fun _ _ => False) := by
  refine call_int (sysPageAlloc_rule (fun r hr => .inl (hr.imp id .inr)) fun e he' hva hperm => liftPmap_rule ?_)
  obtain rfl := Option.some.inj (he.symm.trans he')
  have hlt := lt_utop_of_not_badVa hva
  have huser := userPerm_of_not_badPerm hperm
  refine (h.pageAllocAt hb hx hva hperm).imp ?_
  rintro r s ⟨hst, htouch, ⟨rfl, -⟩ | ⟨rfl, pp, hsup, hone, hzero⟩⟩
  · exact .inl (.inr (.inl rfl))
  · obtain ⟨l, hok⟩ := h.mem
    have hpool : P.pool pp := (hok.counted.free_iff.mp (hsup.free l hok.counted.chain)).1
    have hpp : pp < 65536 := Nat.lt_of_lt_of_le (hok.pool_lt hpool) k.pmap.layout.npages_le
    have hentry := hsup.pte.entry hlt hpp huser
    refine .inr ⟨rfl, s, rfl, hst, hlt, aligned_of_not_badVa hva, ⟨pp, hentry, hone⟩, fun {a} ha => ?_,
      hsup.pte.outside htouch⟩
    exact ⟨pp, by rw [ha.entry]; exact hentry, hzero _ (physical_page pp a)⟩

/-- The page at `src` of the caller is behind `va` of `x` as well. -/
structure Mapped (P : Platform) (dirs : EnvPtr → Option Nat) (cur : EnvPtr) (src : Word) (x : EnvPtr) (va : Word)
    (m : Mem) (s : Pmap) : Prop where
  steady : Sole dirs m cur src → Steady P dirs s
  lt : va < utop
  aligned : va.toNat % 4096 = 0
  same : OnPage src a → OnPage va a' → a'.toNat % 4096 = a.toNat % 4096 → Jos.Holds dirs m cur a b →
    Jos.Holds dirs s.mem x a' b
  outside : HoldsOutside dirs x (OnPage va) m s.mem

theorem pageMap_call (h : KernelOk P k) (hb : k.Bounded) (hcur : k.Live cur) (hx : k.Live x)
    (he : k.resolve cur envid true = some x) :
    Triple (Args.call ⟨5, 0, src, envid, va, perm⟩ c cur) k
      (fun r k' => r.toInt < 0 ∨ ∃ s, k' = k.withPmap s ∧ Mapped P k.dirs cur src x va k.pmap.mem s)
      (fun _ _ => False) := by
  refine call_int (sysPageMap_rule (fun r hr => .inl (hr.imp id .inr))
    fun e e' hsrc hdst hva hva' hperm => liftPmap_rule ?_)
  obtain rfl : cur = e := Option.some.inj hsrc
  obtain rfl := Option.some.inj (he.symm.trans hdst)
  have hlt := lt_utop_of_not_badVa hva
  have hlt' := lt_utop_of_not_badVa hva'
  have huser := userPerm_of_not_badPerm hperm
  refine (h.pageMapAt hb hcur hx hva hva' hperm).imp ?_
  rintro r s (⟨rfl | rfl, -⟩ | ⟨rfl, p, hsh⟩)
  · exact .inl (.inl rfl)
  · exact .inl (.inr (.inl rfl))
  · obtain ⟨l, hok⟩ := h.mem
    have hins := hsh.inserted
    have hpool : P.pool p := hok.page_pool (own_pdx hlt) (ptx_lt src) hsh.source
    have hpp : p < 65536 := Nat.lt_of_lt_of_le (hok.pool_lt hpool) k.pmap.layout.npages_le
    refine .inr ⟨rfl, s, rfl, ?_, hlt', aligned_of_not_badVa hva', ?_, hins.pte.outside hins.touches⟩
    · rintro ⟨p', hp', hone⟩
      obtain rfl := Option.some.inj (hsh.source.symm.trans hp')
      have hre := hins.remapped hb
      exact ⟨hre.1, hre.2 (by omega)⟩
    · rintro a a' b ha ha' hoff ⟨p', hp', hbyte⟩
      rw [ha.entry] at hp'
      obtain rfl := Option.some.inj (hsh.source.symm.trans hp')
      refine ⟨p, by rw [ha'.entry]; exact hins.pte.entry hlt' hpp huser, ?_⟩
      have hphys : physical p a' = physical p a := by
        unfold physical
        rw [pgoff_eq, pgoff_eq, hoff]
      rw [hphys, ← hbyte]
      exact hins.touches.page (own_pdx hlt) (ptx_lt src) (by rw [physical_page]; exact hsh.source)

theorem pageUnmap_call (h : KernelOk P k) (hb : k.Bounded) (hcur : k.Live cur) (hva : ¬ badVa va) :
    Triple (Args.call ⟨6, 0, va, 0, 0, 0⟩ c cur) k
      (fun _ k' => ∃ s, k' = k.withPmap s ∧ Steady P k.dirs s ∧
        HoldsOutside k.dirs cur (OnPage va) k.pmap.mem s.mem)
      (fun _ _ => False) := by
  obtain ⟨l, hok⟩ := h.mem
  obtain ⟨_, s, hexec, hs⟩ := (h.pageRemove hb hcur hva).returns
  refine .of_ok (exec_pageUnmap_call (a := ⟨6, 0, va, 0, 0, 0⟩) rfl rfl hva hexec) ⟨s, rfl, ?_, ?_⟩
  · exact ⟨hs.ok, fun a => Nat.le_trans (hs.refs_le a) (hb a)⟩
  · exact holdsOutside_of_entries (hs.touches hok) hs.others

/-! ## The calls of `map_segment` -/

/-- What the others did leaves the child and the page at `UTEMP` alone. -/
structure Elsewhere (cur : EnvPtr) (child : Word) (e : EnvPtr) (k k' : Kernel) : Prop where
  runs : LiveRuns k k'
  bounded : k'.Bounded
  live : k'.Live cur
  child : k'.resolve cur child true = some e
  kept : a < utop → k.Holds e a b → k'.Holds e a b
  temp : Temp cur g k → Temp cur g k'

/-- The file that is read is `img`: a read inside of it fails or gives some of its bytes. -/
structure World.Serves (w : World) (img : Image) (cur : EnvPtr) (child : Word) (e : EnvPtr) : Prop where
  others : ∀ n k, k.Bounded → k.Live cur → k.resolve cur child true = some e → Elsewhere cur child e k (w.others n k)
  answer : off.toNat < img.size → len ≠ 0#32 → 0 ≤ (w.answer n off len).1 → 0 < (w.answer n off len).1 ∧
    off.toNat + (w.answer n off len).1.toNat ≤ img.size ∧
      ∀ j, j < (w.answer n off len).1.toNat → (w.answer n off len).2 j = img.byte (off.toNat + j)

variable {w : World} {img : Image} {c : Nat} {s : Caller}

theorem Ready.elsewhere (h : Ready P cur child e k) (hs : Elsewhere cur child e k k') :
    Goes P cur child e Nowhere k k' :=
  ⟨⟨h.ok.liveRuns hs.runs, hs.bounded, hs.live, hs.child⟩, fun ha _ hb => hs.kept ha hb⟩

theorem World.Serves.turn (hw : w.Serves img cur child e) (h : Ready P cur child e k) (n : Nat) :
    Goes P cur child e Nowhere k (w.others n k) ∧ ∀ {g}, Temp cur g k → Temp cur g (w.others n k) := by
  have hs := hw.others n k h.bounded h.live h.child
  exact ⟨h.elsewhere hs, hs.temp⟩

theorem sys_rule {Q : Int → Caller → Prop} (h : Triple (a.call c cur) (w.others s.now s.kernel)
    (fun r k' => Q r.toInt { s with kernel := k', now := s.now + 1 }) (fun _ _ => False)) :
    Triple (sys w c cur a) s Q (fun _ _ => True) := by
  obtain ⟨r, k', hexec, hq⟩ := h.returns
  unfold sys turn
  refine .modify_bind ?_
  refine .get_bind ?_
  dsimp only
  rw [hexec]
  refine .set_bind ?_
  exact .ite (fun _ => .throw trivial) fun _ => .pure hq

variable (hw : w.Serves img cur child e) (h : Ready P cur child e s.kernel)
include hw h

theorem sysPageAlloc_child : Triple (sysPageAlloc w c cur child va perm) s
    (fun r s' => r < 0 ∨ (Goes P cur child e (OnPage va) s.kernel s'.kernel ∧ va < utop ∧ va.toNat % 4096 = 0 ∧
      ∀ a, OnPage va a → s'.kernel.Holds e a 0#8)) (fun _ _ => True) := by
  obtain ⟨hgo, -⟩ := hw.turn h s.now
  have hr := hgo.ready
  refine sys_rule ((pageAlloc_call hr.ok hr.bounded hr.child_live hr.child).or_imp ?_)
  rintro r k' ⟨p, rfl, hst, hc⟩
  exact ⟨hgo.anywhere.trans (hr.goes hst hc.outside), hc.lt, hc.aligned, fun a ha => hc.zero ha⟩

theorem sysPageAlloc_temp (hne : e ≠ cur) : Triple (sysPageAlloc w c cur 0 utemp perm) s
    (fun r s' => r < 0 ∨ (Goes P cur child e Nowhere s.kernel s'.kernel ∧ Temp cur (fun _ => 0#8) s'.kernel))
    (fun _ _ => True) := by
  obtain ⟨hgo, -⟩ := hw.turn h s.now
  have hr := hgo.ready
  refine sys_rule ((pageAlloc_call hr.ok hr.bounded hr.live rfl).or_imp ?_)
  rintro r k' ⟨p, rfl, hst, hc⟩
  exact ⟨hgo.trans (hr.goes_caller hne hst hc.outside), hc.sole, fun hj => hc.zero (onPage_add utemp_aligned hj)⟩

theorem sysPageMap_temp (ht : Temp cur g s.kernel) : Triple (sysPageMap w c cur 0 utemp child va perm) s
    (fun r s' => r < 0 ∨ (Goes P cur child e (OnPage va) s.kernel s'.kernel ∧ va < utop ∧ va.toNat % 4096 = 0 ∧
      ∀ j, j < 4096 → s'.kernel.Holds e (va + BitVec.ofNat 32 j) (g j))) (fun _ _ => True) := by
  obtain ⟨hgo, htemp⟩ := hw.turn h s.now
  have hr := hgo.ready
  have ht' := htemp ht
  refine sys_rule ((pageMap_call hr.ok hr.bounded hr.live hr.child_live hr.child).or_imp ?_)
  rintro r k' ⟨p, rfl, hm⟩
  refine ⟨hgo.anywhere.trans (hr.goes (hm.steady ht'.sole) hm.outside), hm.lt, hm.aligned, fun j hj => ?_⟩
  refine hm.same (onPage_add utemp_aligned hj) (onPage_add hm.aligned hj) ?_ (ht'.holds hj)
  rw [(page_offset hm.aligned hj).1, utemp_offset hj, Nat.add_mod, hm.aligned, Nat.add_mod utemp.toNat, utemp_aligned]

theorem sysPageUnmap_temp (hne : e ≠ cur) : Triple (sysPageUnmap w c cur 0 utemp) s
    (fun _ s' => Goes P cur child e Nowhere s.kernel s'.kernel) (fun _ _ => True) := by
  obtain ⟨hgo, -⟩ := hw.turn h s.now
  have hr := hgo.ready
  refine sys_rule ((pageUnmap_call hr.ok hr.bounded hr.live (by decide)).imp ?_)
  rintro r k' ⟨p, rfl, hst, hout⟩
  exact hgo.trans (hr.goes_caller hne hst hout)

end

/-! ## Reading into the page at `UTEMP` -/

section
variable {P : Platform} {k k' : Kernel} {cur e : EnvPtr} {child : Word} {w : World} {img : Image} {c : Nat} {s : Caller}

theorem utemp_offset_lt (hj : j < 4096) : utemp + BitVec.ofNat 32 j < utop := by
  rw [BitVec.lt_def, utemp_offset hj, utop_toNat, show utemp.toNat = 0x400000 from rfl]
  omega

variable (h : Ready P cur child e s.kernel) (hne : e ≠ cur)
include h hne

theorem storeByte_temp (ht : Temp cur g s.kernel) (hj : j < 4096) (b : BitVec 8) :
    Triple (storeByte cur (utemp + BitVec.ofNat 32 j) b) s
      (fun _ s' => Goes P cur child e Nowhere s.kernel s'.kernel ∧ Temp cur (Function.update g j b) s'.kernel ∧
        s'.fdOffset = s.fdOffset) (fun _ _ => True) := by
  obtain ⟨l, hok⟩ := h.ok.mem
  obtain ⟨q, hq, hp⟩ := h.ok.dir h.live
  have hlt := utemp_offset_lt hj
  obtain ⟨p, hentry, hone⟩ := ht.sole.onPage (onPage_add utemp_aligned hj)
  have htr := hok.translate_own hq (own_pdx hlt) hentry
  unfold storeByte
  refine .get_bind ?_
  dsimp only
  rw [hp, htr]
  dsimp only
  refine .ite (fun _ => .set ?_) fun _ => .throw trivial
  obtain ⟨hok', hsame, hb, hout⟩ := hok.store_holds hlt hentry hone b
  have hst : Steady P s.kernel.dirs { s.kernel.pmap with mem := Function.update s.kernel.pmap.mem _ b } :=
    ⟨⟨l, hok'⟩, hsame.bounded h.bounded⟩
  refine ⟨h.goes_caller hne hst hout, ⟨ht.sole.same hsame utemp_lt, fun {x} hx => ?_⟩, rfl⟩
  by_cases hxj : x = j
  · subst hxj
    rw [Function.update_self]
    exact hb
  · rw [Function.update_of_ne hxj]
    refine hout cur _ _ (utemp_offset_lt hx) (fun hc => hxj ?_) (ht.holds hx)
    have := congrArg BitVec.toNat hc.2
    rw [utemp_offset hx, utemp_offset hj] at this
    omega

def patch (g : Nat → BitVec 8) (tot n : Nat) (bytes : Nat → BitVec 8) (j : Nat) : BitVec 8 :=
  if tot ≤ j ∧ j < tot + n then bytes (j - tot) else g j

omit h hne in
theorem patch_succ (g : Nat → BitVec 8) (tot n : Nat) (bytes : Nat → BitVec 8) :
    Function.update (patch g tot n bytes) (tot + n) (bytes n) = patch g tot (n + 1) bytes := by
  funext j
  by_cases hj : j = tot + n
  · subst hj
    rw [Function.update_self, patch, if_pos (by omega), Nat.add_sub_cancel_left]
  · rw [Function.update_of_ne hj, patch, patch]
    have hiff : (tot ≤ j ∧ j < tot + n) ↔ (tot ≤ j ∧ j < tot + (n + 1)) := by omega
    simp only [hiff]

theorem memmove_temp (ht : Temp cur g s.kernel) (hn : tot + n ≤ 4096) (bytes : Nat → BitVec 8) :
    Triple (memmove cur (utemp + BitVec.ofNat 32 tot) n bytes) s
      (fun _ s' => Goes P cur child e Nowhere s.kernel s'.kernel ∧ Temp cur (patch g tot n bytes) s'.kernel ∧
        s'.fdOffset = s.fdOffset) (fun _ _ => True) := by
  have hzero : patch g tot 0 bytes = g := by
    funext j
    exact if_neg (by omega)
  unfold memmove
  refine .forM_range (I := fun n (s' : Caller) => Goes P cur child e Nowhere s.kernel s'.kernel ∧
    Temp cur (patch g tot n bytes) s'.kernel ∧ s'.fdOffset = s.fdOffset) ?_ ?_
  · rw [hzero]
    exact ⟨h.refl, ht, rfl⟩
  · rintro j t hj ⟨hgo, htemp, hoff⟩
    have haddr : utemp + BitVec.ofNat 32 tot + BitVec.ofNat 32 j = utemp + BitVec.ofNat 32 (tot + j) := by
      rw [BitVec.add_assoc, ← BitVec.ofNat_add]
    rw [haddr]
    refine (storeByte_temp hgo.ready hne htemp (by omega) (bytes j)).imp ?_
    rintro _ u ⟨hgo', htemp', hoff'⟩
    rw [patch_succ] at htemp'
    exact ⟨hgo.trans hgo', htemp', hoff'.trans hoff⟩

/-- What a read of `n` bytes to `UTEMP + tot` leaves there. -/
structure Reads (img : Image) (off tot n : Nat) (g g' : Nat → BitVec 8) (r : Int) (off' : Nat) : Prop where
  pos : 0 ≤ r
  le : r ≤ n
  rest : ¬ (tot ≤ j ∧ j < tot + r.toNat) → g' j = g j
  file : off < img.size → 0 < n → 0 < r ∧ off + r.toNat ≤ img.size ∧ off' = (off + r.toNat) % 4294967296 ∧
    ∀ j, j < r.toNat → g' (tot + j) = img.byte (off + j)

variable (hw : w.Serves img cur child e)
include hw

theorem read_temp (ht : Temp cur g s.kernel) (hn : tot + n ≤ 4096) :
    Triple (read w cur (utemp + BitVec.ofNat 32 tot) (BitVec.ofNat 32 n)) s
      (fun r s' => r < 0 ∨ ∃ g', Goes P cur child e Nowhere s.kernel s'.kernel ∧ Temp cur g' s'.kernel ∧
        Reads img s.fdOffset.toNat tot n g g' r s'.fdOffset.toNat) (fun _ _ => True) := by
  obtain ⟨hgo, htemp⟩ := hw.turn h s.now
  have hlen : (BitVec.ofNat 32 n).toNat = n := by
    bv_omega
  unfold read turn
  refine .modify_bind ?_
  refine .get_bind ?_
  dsimp only
  have hfile := @World.Serves.answer _ _ _ _ _ hw (BitVec.ofNat 32 n) (s.now + 1) s.fdOffset
  generalize w.answer (s.now + 1) s.fdOffset (BitVec.ofNat 32 n) = answer at hfile ⊢
  obtain ⟨r, bytes⟩ := answer
  dsimp only at hfile ⊢
  rw [hlen]
  refine .ite (fun hneg => .pure (.inl hneg)) fun hpos => .ite (fun _ => .throw trivial) fun hle => ?_
  push Not at hpos hle
  refine .set_bind ?_
  refine .bind (memmove_temp (s := ⟨w.others s.now s.kernel, s.fdOffset + BitVec.ofInt 32 r, s.now + 1⟩) hgo.ready hne
    (htemp ht) (n := r.toNat) (by omega) bytes) ?_
  rintro _ t ⟨hgo', htemp', hoff⟩
  refine .pure (.inr ⟨_, hgo.trans hgo', htemp', hpos, by omega, fun hout => if_neg hout, fun hin hn0 => ?_⟩)
  have hne0 : BitVec.ofNat 32 n ≠ 0#32 := fun hz => by
    rw [hz] at hlen
    bv_omega
  obtain ⟨hr, hend, hbytes⟩ := hfile hin hne0 hpos
  refine ⟨hr, hend, ?_, fun j hj => ?_⟩
  · rw [hoff]
    have hint : BitVec.ofInt 32 r = BitVec.ofNat 32 r.toNat := by
      rw [← BitVec.ofInt_natCast, Int.toNat_of_nonneg hpos]
    rw [hint, BitVec.toNat_add, BitVec.toNat_ofNat]
    omega
  · rw [patch, if_pos (by omega), Nat.add_sub_cancel_left, hbytes j hj]

theorem readn_temp (ht : Temp cur g s.kernel) (hn : n ≤ 4096) (htot : tot ≤ n) (hd : n - tot ≤ d) :
    Triple (readn w cur utemp n tot) s
      (fun r s' => r < 0 ∨ ∃ g', Goes P cur child e Nowhere s.kernel s'.kernel ∧ Temp cur g' s'.kernel ∧
        (∀ j, ¬ (tot ≤ j ∧ j < n) → g' j = g j) ∧
        ∀ off, (tot < n → s.fdOffset.toNat = off + tot) → off + n ≤ img.size →
          ∀ j, tot ≤ j → j < n → g' j = img.byte (off + j)) (fun _ _ => True) := by
  induction d generalizing tot g s with
  | zero =>
    rw [readn, dif_neg (by omega)]
    exact .pure (.inr ⟨g, h.refl, ht, fun _ _ => rfl, fun _ _ _ _ h1 h2 => by omega⟩)
  | succ d ih =>
    rw [readn]
    split
    · rename_i hlt
      refine .bind (read_temp h hne hw ht (by omega)) ?_
      rintro r t hr
      split
      · exact .pure (.inl ‹_›)
      · obtain hneg | ⟨g', hgo, htemp, hreads⟩ := hr
        · exact absurd hneg ‹_›
        have hle := hreads.le
        have hsum : tot + r.toNat ≤ n := by omega
        split
        · rename_i hz
          subst hz
          refine .pure (.inr ⟨g', hgo, htemp, fun j _ => hreads.rest (by simp), fun off hoff hend => ?_⟩)
          -- Inside the file a read does not come back with nothing.
          have hin : s.fdOffset.toNat < img.size := by
            rw [hoff hlt]
            omega
          have := (hreads.file hin (by omega)).1
          omega
        · refine (ih hgo.ready htemp hsum (by omega)).or_imp ?_
          rintro r' u ⟨g'', hgo', htemp', hrest, hfile⟩
          · refine ⟨g'', hgo.trans hgo', htemp', fun j hj => ?_, fun off hoff hend j hj hjn => ?_⟩
            · exact (hrest j (by omega)).trans (hreads.rest (by omega))
            · have hin : s.fdOffset.toNat < img.size := by
                rw [hoff hlt]
                omega
              obtain ⟨-, hend', hoff', hbytes⟩ := hreads.file hin (by omega)
              have hsz := img.size_le
              by_cases hj' : tot + r.toNat ≤ j
              · refine hfile off (fun hmore => ?_) hend j hj' hjn
                rw [hoff', hoff hlt]
                omega
              · rw [hrest j (by omega), ← Nat.add_sub_of_le hj, hbytes (j - tot) (by omega), hoff hlt]
                congr 1
                omega
    · exact .pure (.inr ⟨g, h.refl, ht, fun _ _ => rfl, fun _ _ _ _ h1 h2 => by omega⟩)

/-! ## `map_segment` -/

/-- The byte at distance `x` from the start: the file's, as far as it goes, and then `0`. -/
structure SegmentByte (img : Image) (filesz fileoffset x : Nat) (b : BitVec 8) : Prop where
  blank : filesz ≤ x → b = 0#8
  file : x < filesz → fileoffset + filesz ≤ img.size → b = img.byte (fileoffset + x)

theorem mapPage_places :
    Triple (mapPage w c cur child va filesz fileoffset perm i) s
      (fun r s' => r < 0 ∨ ∃ g : Nat → BitVec 8, Goes P cur child e (OnPage (va + i)) s.kernel s'.kernel ∧
        ∀ j, j < 4096 → s'.kernel.Holds e (va + i + BitVec.ofNat 32 j) (g j) ∧
          SegmentByte img filesz.toNat fileoffset.toNat (i.toNat + j) (g j)) (fun _ _ => True) := by
  unfold mapPage
  by_cases hi : filesz ≤ i
  · rw [if_pos hi]
    refine (sysPageAlloc_child hw h).or_imp ?_
    rintro r t ⟨hgo, -, hal, hz⟩
    refine ⟨fun _ => 0#8, hgo, fun j hj => ⟨hz _ (onPage_add hal hj), fun _ => rfl, fun hlt => ?_⟩⟩
    bv_omega
  · rw [if_neg hi]
    rw [BitVec.le_def] at hi
    have hsub : (filesz - i).toNat = filesz.toNat - i.toNat := by
      bv_omega
    refine .or_bind (sysPageAlloc_temp hw h hne) ?_
    rintro r t ⟨hgo, htemp⟩
    unfold seek
    refine .bind (.bind (.modify (Q := fun _ u => u = { t with fdOffset := fileoffset + i }) rfl)
      (R := fun r u => r = 0 ∧ u = { t with fdOffset := fileoffset + i }) ?_) ?_
    · rintro _ _ rfl
      exact .pure ⟨rfl, rfl⟩
    rintro _ _ ⟨rfl, rfl⟩
    rw [if_neg (by decide)]
    refine .or_bind (readn_temp (s := { t with fdOffset := fileoffset + i }) hgo.ready hne hw htemp
      (Nat.min_le_left ..) (Nat.zero_le _) (Nat.le_refl _)) ?_
    rintro r u ⟨g, hgo1, htemp1, hrest, hfile⟩
    refine .bind (sysPageMap_temp hw hgo1.ready htemp1) ?_
    rintro r v hr
    refine .ite (fun _ => .throw trivial) fun hpos => ?_
    obtain ⟨hgo2, hlt, hal, hholds⟩ := hr.resolve_left hpos
    refine .bind (sysPageUnmap_temp hw hgo2.ready hne) ?_
    rintro _ y hgo3
    refine .pure (.inr ⟨g, ?_, fun j hj => ⟨?_, fun hblank => ?_, fun hin hend => ?_⟩⟩)
    · exact ((hgo.trans hgo1).anywhere.trans hgo2).trans hgo3.anywhere
    · refine hgo3.kept ?_ (fun hf => hf) (hholds j hj)
      exact onPage_lt (onPage_add hal hj) hlt
    · exact hrest j (by rw [hsub]; omega)
    · have hoff : (fileoffset + i).toNat = fileoffset.toNat + i.toNat := by
        have := img.size_le
        bv_omega
      have := hfile (fileoffset.toNat + i.toNat) (fun _ => hoff) (by rw [hsub]; omega) j (Nat.zero_le j)
        (by rw [hsub]; omega)
      rw [this, Nat.add_assoc]

theorem mapPages_places (hva : va.toNat % 4096 = 0) (hend : va.toNat + memsz.toNat ≤ utop.toNat)
    (hi : i.toNat % 4096 = 0) (hn : memsz.toNat - i.toNat ≤ n) :
    Triple (mapPages w c cur child va memsz filesz fileoffset perm i) s
      (fun r s' => r < 0 ∨ (Goes P cur child e
          (fun a => va.toNat + i.toNat ≤ a.toNat ∧ Pages va memsz.toNat a) s.kernel s'.kernel ∧
        ∀ x, i.toNat ≤ x → x < memsz.toNat → ∃ b, s'.kernel.Holds e (va + BitVec.ofNat 32 x) b ∧
          SegmentByte img filesz.toNat fileoffset.toNat x b)) (fun _ _ => True) := by
  rw [utop_toNat] at hend
  induction n generalizing i s with
  | zero =>
    rw [mapPages, if_neg (by rw [BitVec.lt_def]; omega)]
    exact .pure (.inr ⟨h.refl, fun x h1 h2 => by omega⟩)
  | succ n ih =>
    rw [mapPages]
    refine .ite (fun hlt => ?_) fun hge => ?_
    · rw [BitVec.lt_def] at hlt
      refine .or_bind (mapPage_places h hne hw) ?_
      rintro r t ⟨g, hgo, hpage⟩
      split
      · rename_i hover
        have hnext : (i + 4096).toNat = i.toNat + 4096 := by
          rw [BitVec.toNat_add]
          exact Nat.mod_eq_of_lt hover
        have hadd : (va + i).toNat = va.toNat + i.toNat := by
          bv_omega
        refine (ih hgo.ready (by omega) (by omega)).imp ?_
        rintro r' u (hneg | ⟨hgo', hrest⟩)
        · exact .inl hneg
        · refine .inr ⟨(hgo.mono fun a ha => ?_).trans (hgo'.mono fun a ha => ?_), fun x hx hlt' => ?_⟩
          · unfold OnPage at ha
            unfold Pages
            omega
          · exact ⟨by omega, ha.2⟩
          · by_cases hxi : i.toNat + 4096 ≤ x
            · exact hrest x (by omega) hlt'
            · obtain ⟨hb, hbyte⟩ := hpage (x - i.toNat) (by omega)
              have haddr : va + i + BitVec.ofNat 32 (x - i.toNat) = va + BitVec.ofNat 32 x := by
                bv_omega
              have hnat : (va + BitVec.ofNat 32 x).toNat = va.toNat + x := by
                bv_omega
              rw [haddr] at hb
              rw [Nat.add_sub_of_le hx] at hbyte
              refine ⟨g (x - i.toNat), hgo'.kept ?_ (fun ha => ?_) hb, hbyte⟩
              · rw [BitVec.lt_def, utop_toNat]
                omega
              · omega
      · exact .throw trivial
    · rw [BitVec.lt_def] at hge
      exact .pure (.inr ⟨h.refl, fun x h1 h2 => by omega⟩)

omit h hne hw in
theorem mapSegment_eq (w : World) (c : Nat) (cur : EnvPtr) (child va memsz filesz fileoffset perm : Word) :
    mapSegment w c cur child va memsz filesz fileoffset perm =
      mapPages w c cur child (va - BitVec.ofNat 32 (pgoff va)) (memsz + BitVec.ofNat 32 (pgoff va))
        (filesz + BitVec.ofNat 32 (pgoff va)) (fileoffset - BitVec.ofNat 32 (pgoff va)) perm 0 := by
  unfold mapSegment
  dsimp only
  split
  · rfl
  · rename_i hz
    rw [not_not] at hz
    rw [hz]
    simp

end

/-! ## The images both loaders take -/

def Image.Segment (img : Image) (ph : Phdr) : Prop := ph ∈ phdrs img.byte ∧ ph.type = elfProgLoad

def Phdr.Pages (ph : Phdr) : Word → Prop := Jos.Pages ph.va ph.memsz.toNat

structure Image.Loadable (img : Image) : Prop where
  headers : i < (halfAt img.byte 44).toNat → (wordAt img.byte 28).toNat + 32 * i + 32 ≤ 512
  filesz : img.Segment ph → ph.filesz.toNat ≤ ph.memsz.toNat
  offset : img.Segment ph → pgoff ph.offset = pgoff ph.va
  below : img.Segment ph → ph.va.toNat + ph.memsz.toNat ≤ utop.toNat
  /-- The page of the initial stack is left free. -/
  stack : img.Segment ph → ph.Pages a → ¬ OnPage (ustacktop - 4096) a
  apart : (phdrs img.byte).Pairwise fun ph ph' =>
    ph.type = elfProgLoad → ph'.type = elfProgLoad → ∀ a, ph.Pages a → ¬ ph'.Pages a
  data : img.Segment ph → j < ph.filesz.toNat → ph.offset.toNat + j < img.size

theorem Image.Loadable.phdrs_elfBuf {img : Image} (h : img.Loadable) (stack : Nat → BitVec 8) :
    phdrs (img.elfBuf stack) = phdrs img.byte := by
  have hbyte : ∀ {n}, n < 512 → img.elfBuf stack n = img.byte n := fun hn => if_pos hn
  have hword : ∀ {n}, n + 3 < 512 → wordAt (img.elfBuf stack) n = wordAt img.byte n := fun hn => by
    unfold wordAt
    rw [hbyte (by omega), hbyte (by omega), hbyte (by omega), hbyte (by omega)]
  have hhalf : halfAt (img.elfBuf stack) 44 = halfAt img.byte 44 := by
    unfold halfAt
    rw [hbyte (by omega), hbyte (by omega)]
  unfold phdrs
  rw [hhalf, hword (by omega)]
  refine List.map_congr_left fun i hi => ?_
  have hlt := h.headers (List.mem_range.mp hi)
  unfold phdrAt
  rw [hword (by omega), hword (by omega), hword (by omega), hword (by omega), hword (by omega), hword (by omega)]

theorem Image.Loadable.segments {img : Image} (h : img.Loadable) : SegmentsOk img.elf.ph where
  below {ph} hm ht := by
    obtain ⟨ph', hm', rfl⟩ := List.mem_map.mp hm
    exact h.below ⟨hm', ht⟩
  apart := List.pairwise_map.mpr h.apart

section
variable {P : Platform} {k k' : Kernel} {cur e : EnvPtr} {child : Word} {w : World} {img : Image} {c : Nat} {s : Caller}

variable (h : Ready P cur child e s.kernel) (hne : e ≠ cur) (hw : w.Serves img cur child e) (hok : img.Loadable)
include h hne hw hok

theorem mapSegment_places (hph : img.Segment ph) (perm : Word) :
    Triple (mapSegment w c cur child ph.va ph.memsz ph.filesz ph.offset perm) s
      (fun r s' => r < 0 ∨ (Goes P cur child e ph.Pages s.kernel s'.kernel ∧
        Placed s'.kernel.dirs s'.kernel.pmap.mem e (ph.proghdr img.byte))) (fun _ _ => True) := by
  have hbelow := hok.below hph
  have hsz := hok.filesz hph
  have hoff := hok.offset hph
  rw [pgoff_eq, pgoff_eq] at hoff
  rw [utop_toNat] at hbelow
  rw [mapSegment_eq, pgoff_eq]
  have hi : (BitVec.ofNat 32 (ph.va.toNat % 4096)).toNat = ph.va.toNat % 4096 := by
    bv_omega
  generalize BitVec.ofNat 32 (ph.va.toNat % 4096) = i at hi
  have hva : (ph.va - i).toNat = ph.va.toNat - ph.va.toNat % 4096 := by
    bv_omega
  have hmem : (ph.memsz + i).toNat = ph.memsz.toNat + ph.va.toNat % 4096 := by
    bv_omega
  have hfile : (ph.filesz + i).toNat = ph.filesz.toNat + ph.va.toNat % 4096 := by
    bv_omega
  have hpos : (ph.offset - i).toNat = ph.offset.toNat - ph.va.toNat % 4096 := by
    bv_omega
  refine (mapPages_places h hne hw (by omega) (by rw [utop_toNat]; omega) rfl (Nat.le_refl _)).or_imp ?_
  rintro r t ⟨hgo, hbytes⟩
  refine ⟨hgo.mono fun a ha => ?_, fun j hj => ?_⟩
  · have hp := ha.2
    unfold Jos.Pages at hp
    unfold Phdr.Pages Jos.Pages
    omega
  · change j < ph.memsz.toNat at hj
    obtain ⟨b, hb, hbyte⟩ := hbytes (ph.va.toNat % 4096 + j) (Nat.zero_le _) (by omega)
    have haddr : ph.va - i + BitVec.ofNat 32 (ph.va.toNat % 4096 + j) = ph.va + BitVec.ofNat 32 j := by
      bv_omega
    rw [haddr] at hb
    suffices heq : (ph.proghdr img.byte).byte j = b by
      rw [heq]
      exact hb
    change (if j < ph.filesz.toNat then img.byte (ph.offset.toNat + j) else 0#8) = b
    split
    · have hlast := hok.data hph (j := ph.filesz.toNat - 1) (by omega)
      rw [hbyte.file (by omega) (by omega)]
      congr 1
      omega
    · exact (hbyte.blank (by omega)).symm

theorem mapSegments_places (hsub : ∀ ph ∈ phs, ph ∈ phdrs img.byte)
    (hapart : phs.Pairwise fun ph ph' =>
      ph.type = elfProgLoad → ph'.type = elfProgLoad → ∀ a, ph.Pages a → ¬ ph'.Pages a) :
    Triple (mapSegments w c cur child phs) s
      (fun r s' => r < 0 ∨ (Goes P cur child e (fun a => ∃ ph ∈ phs, ph.type = elfProgLoad ∧ ph.Pages a)
          s.kernel s'.kernel ∧
        ∀ ph ∈ phs, ph.type = elfProgLoad → Placed s'.kernel.dirs s'.kernel.pmap.mem e (ph.proghdr img.byte)))
      (fun _ _ => True) := by
  induction phs generalizing s with
  | nil => exact .pure (.inr ⟨h.refl, fun _ hm => absurd hm List.not_mem_nil⟩)
  | cons ph phs ih =>
    obtain ⟨hfirst, hrest⟩ := List.pairwise_cons.mp hapart
    have htail {k k'} (hgo : Goes P cur child e (fun a => ∃ ph ∈ phs, ph.type = elfProgLoad ∧ ph.Pages a) k k') :
        Goes P cur child e (fun a => ∃ ph' ∈ ph :: phs, ph'.type = elfProgLoad ∧ ph'.Pages a) k k' :=
      hgo.mono fun a ⟨ph', hm, h'⟩ => ⟨ph', List.mem_cons_of_mem _ hm, h'⟩
    replace ih {s} h := @ih s h (fun ph' hm => hsub ph' (List.mem_cons_of_mem _ hm)) hrest
    unfold mapSegments
    refine .ite (fun ht => ?_) fun ht => ?_
    · refine (ih h).or_imp ?_
      rintro r t ⟨hgo, hplaced⟩
      refine ⟨htail hgo, fun ph' hm ht' => ?_⟩
      rcases List.mem_cons.mp hm with rfl | hm
      · exact absurd ht' ht
      · exact hplaced ph' hm ht'
    · rw [not_not] at ht
      have hseg : img.Segment ph := ⟨hsub ph List.mem_cons_self, ht⟩
      refine .or_bind (mapSegment_places h hne hw hok hseg _) ?_
      rintro r t ⟨hgo, hpl⟩
      refine (ih hgo.ready).or_imp ?_
      rintro r' u ⟨hgo', hplaced⟩
      refine ⟨(hgo.mono fun a ha => ⟨ph, List.mem_cons_self, ht, ha⟩).trans (htail hgo'), fun ph' hm ht' => ?_⟩
      rcases List.mem_cons.mp hm with rfl | hm
      · intro j hj
        have hbelow := hok.below hseg
        have hbytes : Bytes ph'.va ph'.memsz.toNat (ph'.va + BitVec.ofNat 32 j) :=
          (bytes_iff (by omega)).mpr ⟨j, hj, rfl⟩
        refine hgo'.kept ?_ ?_ (hpl j hj)
        · have := hbytes.2
          rw [BitVec.lt_def, utop_toNat]
          exact Nat.lt_of_lt_of_le this hbelow
        · rintro ⟨ph2, hm2, ht2, ha2⟩
          exact hfirst ph2 hm2 ht ht2 _ hbytes.pages ha2
      · exact hplaced ph' hm ht'

end

/-- Environment `e` has the segments of the image: the bytes of the file, and `0` for the rest. -/
def HoldsImage (k : Kernel) (e : EnvPtr) (img : Image) : Prop :=
  ∀ ph, img.Segment ph → ∀ j, j < ph.memsz.toNat → k.userByte e (ph.va + BitVec.ofNat 32 j) =
    some (if j < ph.filesz.toNat then img.byte (ph.offset.toNat + j) else 0#8)

theorem holdsImage_of_placed {P : Platform} {img : Image} (h : KernelOk P k) (hl : k.Live e) (hok : img.Loadable)
    (hp : ∀ ph, img.Segment ph → Placed k.dirs k.pmap.mem e (ph.proghdr img.byte)) : HoldsImage k e img := by
  intro ph hph j hj
  have hbelow := hok.below hph
  rw [utop_toNat] at hbelow
  refine h.userByte hl ?_ (hp ph hph j hj)
  rw [BitVec.lt_def, utop_toNat, BitVec.toNat_add, BitVec.toNat_ofNat]
  omega

/-- `env_create` and the loop of `spawn` give a new environment the same memory. -/
theorem loaders_agree {mach : Machine} {img : Image} (hboot : Boots mach k0) (hrun : LiveRuns k0 k) (hb : k.Bounded)
    (hok : img.Loadable) :
    (∀ type k', exec (envCreate img.elf type) k = (.ok (), k') →
      ∃ e, k.envFreeList = some e ∧ HoldsImage k' e img) ∧
    ∀ w c cur child e stack off n s', k.Live cur → k.resolve cur child true = some e → e ≠ cur →
      w.Serves img cur child e →
      exec (mapSegments w c cur child (phdrs (img.elfBuf stack))) ⟨k, off, n⟩ = (.ok 0, s') →
      HoldsImage s'.kernel e img := by
  obtain ⟨P, -, -, -, -, hok0, -, -⟩ := hboot.machineOk
  have hk : KernelOk P k := hok0.kernel.liveRuns hrun
  refine ⟨fun type k' hexec => ?_, fun w c cur child e stack off n s' hcur hchild hne hw hexec => ?_⟩
  · have hstack : ∀ a, InSegments img.elf.ph a → ¬ Jos.Pages (ustacktop - 4096) 4096 a := by
      rintro a ⟨ph, hm, ht, ha⟩ hpage
      obtain ⟨ph', hm', rfl⟩ := List.mem_map.mp hm
      refine hok.stack ⟨hm', ht⟩ ha ?_
      unfold Jos.Pages at hpage
      unfold OnPage
      rw [show (ustacktop - 4096).toNat = 0xEEBFD000 from rfl] at hpage ⊢
      omega
    obtain ⟨e, hf, hl, hplaced⟩ := hk.create_places hb hok.segments hstack hexec
    refine ⟨e, hf, holdsImage_of_placed (hk.create hb hexec).1 hl hok fun ph hph => ?_⟩
    exact hplaced _ (List.mem_map.mpr ⟨ph, hph.1, rfl⟩) hph.2
  · rw [hok.phdrs_elfBuf] at hexec
    have hready : Ready P cur child e k := ⟨hk, hb, hcur, hchild⟩
    have hres := (mapSegments_places (s := ⟨k, off, n⟩) hready hne hw hok (fun _ hm => hm) hok.apart).ok hexec
    obtain ⟨hgo, hplaced⟩ := hres.resolve_left (by decide)
    exact holdsImage_of_placed hgo.ready.ok hgo.ready.child_live hok fun ph hph => hplaced ph hph.1 hph.2

/-! ## A program of one page -/

def pageHeader : List (BitVec 8) :=
  [0x7F, 0x45, 0x4C, 0x46, 0, 0, 0, 0, 0, 0, 0, 0, 0, 0, 0, 0, 2, 0, 3, 0, 1, 0, 0, 0, 0, 0, 0x80, 0, 52, 0, 0, 0,
    0, 0, 0, 0, 0, 0, 0, 0, 52, 0, 32, 0, 1, 0, 0, 0, 0, 0, 0, 0,
    1, 0, 0, 0, 0, 0x10, 0, 0, 0, 0, 0x80, 0, 0, 0, 0x80, 0, 0, 0x10, 0, 0, 0, 0x10, 0, 0, 7, 0, 0, 0, 0, 0x10, 0, 0]

def onePage : Image where
  size := 8192
  byte n := if n < 4096 then pageHeader.getD n 0 else 0x90#8
  size_le := by decide

theorem onePage_phdrs : phdrs onePage.byte = [⟨1, 0x1000, 0x800000, 0x1000, 0x1000, 7⟩] := by decide

theorem onePage_segment (h : onePage.Segment ph) : ph = ⟨1, 0x1000, 0x800000, 0x1000, 0x1000, 7⟩ := by
  have hm := h.1
  rw [onePage_phdrs] at hm
  exact List.mem_singleton.mp hm

theorem onePage_loadable : onePage.Loadable where
  headers {i} hi := by
    rw [show (halfAt onePage.byte 44).toNat = 1 by decide] at hi
    rw [show (wordAt onePage.byte 28).toNat = 52 by decide]
    omega
  filesz h := by rw [onePage_segment h]
  offset h := by
    rw [onePage_segment h]
    decide
  below h := by
    rw [onePage_segment h]
    decide
  stack {ph a} h ha hs := by
    rw [onePage_segment h] at ha
    unfold Phdr.Pages Jos.Pages at ha
    unfold OnPage at hs
    rw [show (ustacktop - 4096).toNat = 0xEEBFD000 from rfl] at hs
    bv_omega
  apart := by
    rw [onePage_phdrs]
    exact List.pairwise_singleton ..
  data {ph j} h hj := by
    rw [onePage_segment h] at hj ⊢
    change j < 4096 at hj
    change 4096 + j < 8192
    omega

theorem onePage_elf : onePage.elf = program fun j => onePage.byte (4096 + j) := by
  unfold Image.elf
  rw [onePage_phdrs]
  rfl

/-- Nobody else runs, and every read gets all it asks for. -/
def still : World where
  others _ k := k
  answer _ off len := ((min len.toNat (8192 - off.toNat) : Nat), fun j => onePage.byte (off.toNat + j))

theorem still_serves (cur : EnvPtr) (child : Word) (e : EnvPtr) : still.Serves onePage cur child e where
  others _ _ hb hl hc := ⟨.refl, hb, hl, hc, fun _ h => h, fun h => h⟩
  answer {len n off} hoff hlen _ := by
    have hlen' : len.toNat ≠ 0 := fun h => hlen (BitVec.eq_of_toNat_eq h)
    change off.toNat < 8192 at hoff
    change (0 : Int) < (min len.toNat (8192 - off.toNat) : Nat) ∧
      off.toNat + ((min len.toNat (8192 - off.toNat) : Nat) : Int).toNat ≤ 8192 ∧ _
    exact ⟨by omega, by omega, fun _ _ => rfl⟩

section
variable {P : Platform} {k : Kernel} {cur e : EnvPtr} {child : Word} {c : Nat} {s : Caller}

theorem exec_sys_still {a : Args} (h : exec (a.call c cur) s.kernel = (.ok (BitVec.ofInt 32 0), k')) :
    exec (sys still c cur a) s = (.ok 0, { s with kernel := k', now := s.now + 1 }) := by
  unfold sys turn
  rw [exec_bind_ok (exec_modify ..), exec_bind_ok (exec_get _)]
  dsimp only [still]
  rw [h]
  rfl

/-- The kernel with other bytes in the pages. -/
def Stored (P : Platform) (k k' : Kernel) : Prop :=
  ∃ m l, k' = k.withPmap { k.pmap with mem := m } ∧ MemOk P k.dirs [] ∅ l { k.pmap with mem := m } ∧
    SameTables k.dirs k.pmap.mem m

theorem memmove_returns (h : KernelOk P s.kernel) (hl : s.kernel.Live cur)
    (hp : entryPage (pteOf s.kernel.dirs s.kernel.pmap.mem cur (pdx utemp) (ptx utemp)) = some p)
    (hw : Sub (pteU ||| pteW) (pteOf s.kernel.dirs s.kernel.pmap.mem cur (pdx utemp) (ptx utemp))) (hn : n ≤ 4096)
    (bytes : Nat → BitVec 8) :
    Triple (memmove cur utemp n bytes) s (fun _ t => Stored P s.kernel t.kernel) (fun _ _ => False) := by
  obtain ⟨l, hok⟩ := h.mem
  obtain ⟨q, hq, hpg⟩ := h.dir hl
  unfold memmove
  refine .forM_range (I := fun _ (t : Caller) => Stored P s.kernel t.kernel)
    ⟨s.kernel.pmap.mem, l, rfl, hok, .refl _⟩ ?_
  rintro j t hj ⟨m, l', ht, hok', hsame⟩
  have hj' : j < 4096 := by omega
  have hlt := utemp_offset_lt hj'
  have hpte : pteOf s.kernel.dirs m cur (pdx (utemp + BitVec.ofNat 32 j)) (ptx (utemp + BitVec.ofNat 32 j)) =
      pteOf s.kernel.dirs s.kernel.pmap.mem cur (pdx utemp) (ptx utemp) := by
    rw [(onPage_add utemp_aligned hj').entry]
    exact hsame.pte (own_pdx utemp_lt) (ptx_lt utemp)
  have hentry : entryPage (pteOf s.kernel.dirs m cur (pdx (utemp + BitVec.ofNat 32 j))
      (ptx (utemp + BitVec.ofNat 32 j))) = some p := by rw [hpte]; exact hp
  have htr := hok'.translate_own hq (own_pdx hlt) hentry
  have hcan : userCanWrite m (q * pgsize) (utemp + BitVec.ofNat 32 j) = true := by
    unfold userCanWrite
    rw [show translate m (q * pgsize) (utemp + BitVec.ofNat 32 j) = _ from htr]
    dsimp only
    rw [hpte, BitVec.and_assoc, show (0xFFF#32 : Word) &&& (pteU ||| pteW) = pteU ||| pteW from rfl, BitVec.and_comm]
    exact beq_iff_eq.mpr hw
  obtain ⟨hok2, hsame2⟩ := hok'.storeMapped (own_pdx hlt) (ptx_lt _) hentry (physical_page p _) (bytes j)
  unfold storeByte
  refine .get_bind ?_
  dsimp only
  rw [ht]
  change Triple (match translate m (s.kernel.envs cur).pgdir (utemp + BitVec.ofNat 32 j) with
    | none => _
    | some (p, _) => if userCanWrite m (s.kernel.envs cur).pgdir (utemp + BitVec.ofNat 32 j) = true then _ else _) _ _ _
  rw [hpg, show translate m (q * pgsize) (utemp + BitVec.ofNat 32 j) = _ from htr]
  dsimp only
  rw [if_pos hcan]
  exact .set ⟨_, l', rfl, hok2, hsame.trans hsame2⟩

theorem readn_returns (h : KernelOk P s.kernel) (hl : s.kernel.Live cur) (hoff : s.fdOffset = 0x1000#32)
    (hp : entryPage (pteOf s.kernel.dirs s.kernel.pmap.mem cur (pdx utemp) (ptx utemp)) = some p)
    (hw : Sub (pteU ||| pteW) (pteOf s.kernel.dirs s.kernel.pmap.mem cur (pdx utemp) (ptx utemp))) :
    Triple (readn still cur utemp 4096 0) s (fun r t => r = 4096 ∧ Stored P s.kernel t.kernel) (fun _ _ => False) := by
  have hread : Triple (read still cur (utemp + BitVec.ofNat 32 0) (BitVec.ofNat 32 (4096 - 0))) s
      (fun r t => r = 4096 ∧ Stored P s.kernel t.kernel) (fun _ _ => False) := by
    unfold read turn
    refine .modify_bind ?_
    refine .get_bind ?_
    have hans : (still.answer (s.now + 1) s.fdOffset (BitVec.ofNat 32 (4096 - 0))).1 = 4096 := by
      rw [hoff]
      rfl
    dsimp only
    generalize still.answer (s.now + 1) s.fdOffset (BitVec.ofNat 32 (4096 - 0)) = answer at hans ⊢
    have hlen : (BitVec.ofNat 32 (4096 - 0)).toNat = 4096 := rfl
    rw [if_neg (by omega), if_neg (by omega)]
    refine .set_bind ?_
    rw [show utemp + BitVec.ofNat 32 0 = utemp from rfl]
    refine .bind (memmove_returns (s := ⟨s.kernel, s.fdOffset + BitVec.ofInt 32 answer.1, s.now + 1⟩) h hl hp hw
      (n := answer.1.toNat) (by omega) answer.2) fun _ t ht => ?_
    exact .pure ⟨hans, ht⟩
  rw [readn, dif_pos (by decide)]
  refine .bind hread ?_
  rintro _ t ⟨rfl, ht⟩
  rw [dif_neg (by decide), dif_neg (by decide), readn, dif_neg (by decide)]
  exact .pure ⟨rfl, ht⟩

/-- `UTEMP` is mapped for reading and writing, by nobody else. -/
structure Loaded (P : Platform) (cur : EnvPtr) (k : Kernel) (p : Nat) : Prop where
  ok : ∃ l, MemOk P k.dirs [] ∅ l k.pmap
  bounded : Bounded k.dirs k.pmap.mem
  entry : entryPage (pteOf k.dirs k.pmap.mem cur (pdx utemp) (ptx utemp)) = some p
  perm : Sub (pteU ||| pteW) (pteOf k.dirs k.pmap.mem cur (pdx utemp) (ptx utemp))
  sole : refs k.dirs k.pmap.mem p = 1
  spare : k.pmap.Spare 1

theorem allocTemp_returns (h : Ready P cur child e s.kernel) (hs : s.kernel.pmap.Spare 4) :
    ∃ s1 p, exec (sysPageAlloc still c cur 0 utemp (pteP ||| pteU ||| pteW)) s =
      (.ok 0, ⟨s.kernel.withPmap s1, s.fdOffset, s.now + 1⟩) ∧ Loaded P cur (s.kernel.withPmap s1) p := by
  have hperm : ¬ badPerm (pteP ||| pteU ||| pteW) := by decide
  have huser := userPerm_of_not_badPerm hperm
  obtain ⟨q, hq, hpg⟩ := h.ok.dir h.live
  obtain ⟨p, s1, halloc, hfill, hone⟩ := pageAllocAt_progress (n := 2) h.steady hq utemp_lt huser hs
  obtain ⟨hentry, hsub⟩ := hfill.entry utemp_lt huser.isPerm
  rw [← hpg] at halloc
  refine ⟨s1, p, exec_sys_still (exec_pageAlloc_call rfl rfl (by decide) hperm halloc), hfill.steady.ok,
    hfill.steady.bounded, hentry, ?_, hone, hfill.spare.mono (by decide)⟩
  exact (by decide : Sub (pteU ||| pteW) (pteP ||| pteU ||| pteW)).trans hsub

theorem Loaded.stored (h : Loaded P cur k p) (hok : MemOk P k.dirs [] ∅ l { k.pmap with mem := m })
    (hsame : SameTables k.dirs k.pmap.mem m) : Loaded P cur (k.withPmap { k.pmap with mem := m }) p := by
  have hpte : pteOf k.dirs m cur (pdx utemp) (ptx utemp) = pteOf k.dirs k.pmap.mem cur (pdx utemp) (ptx utemp) :=
    hsame.pte (own_pdx utemp_lt) (ptx_lt utemp)
  refine ⟨⟨l, hok⟩, hsame.bounded h.bounded, ?_, ?_, (hsame.refs_eq p).trans h.sole, h.spare⟩
  · rw [← h.entry]
    exact congrArg entryPage hpte
  · exact hpte ▸ h.perm

section
variable (h : Ready P cur child e s.kernel)
include h

theorem handOver_returns (hl : Loaded P cur s.kernel p) :
    ∃ s3 s4, exec (sysPageMap still c cur 0 utemp child 0x800000 (pteP ||| pteU ||| pteW)) s =
        (.ok 0, ⟨s.kernel.withPmap s3, s.fdOffset, s.now + 1⟩) ∧
      exec (sysPageUnmap still c cur 0 utemp) ⟨s.kernel.withPmap s3, s.fdOffset, s.now + 1⟩ =
        (.ok 0, ⟨s.kernel.withPmap s4, s.fdOffset, s.now + 2⟩) := by
  have hperm : ¬ badPerm (pteP ||| pteU ||| pteW) := by decide
  obtain ⟨q, hq, hpg⟩ := h.ok.dir h.live
  obtain ⟨q', hq', hpg'⟩ := h.ok.dir h.child_live
  obtain ⟨l, hok⟩ := hl.ok
  have hwrite : pteOf s.kernel.dirs s.kernel.pmap.mem cur (pdx utemp) (ptx utemp) &&& pteW ≠ 0 := fun hz => by
    have hw := (by decide : Sub pteW (pteU ||| pteW)).trans hl.perm
    unfold Sub at hw
    rw [BitVec.and_comm, hz] at hw
    exact absurd hw (by decide)
  obtain ⟨s3, hmap, hins⟩ := pageMapAt_progress (i := cur) (j := e) hok hq hq' utemp_lt (by decide : 0x800000#32 < utop)
    (userPerm_of_not_badPerm hperm) hl.entry hwrite (fun _ => hl.bounded) fun _ => hl.spare
  obtain ⟨⟨l3, hok3⟩, hb3⟩ := hins.remapped hl.bounded
  obtain ⟨_, s4, hremove, -⟩ := (pageRemove_ok hok3 (hb3 (hl.sole.trans_lt (by decide))) hq utemp_lt).returns
  rw [← hpg, ← hpg'] at hmap
  rw [← hpg] at hremove
  refine ⟨s3, s4, exec_sys_still (exec_pageMap_call rfl rfl h.child (by decide : ¬ badVa utemp)
    (by decide : ¬ badVa 0x800000#32) hperm hmap), ?_⟩
  exact exec_sys_still (s := ⟨s.kernel.withPmap s3, s.fdOffset, s.now + 1⟩)
    (exec_pageUnmap_call (k := s.kernel.withPmap s3) rfl rfl (by decide) hremove)

theorem mapPage_returns (hs : s.kernel.pmap.Spare 4) :
    ∃ s', exec (mapPage still c cur child 0x800000 0x1000 0x1000 (pteP ||| pteU ||| pteW) 0) s = (.ok 0, s') := by
  obtain ⟨s1, p, hcall1, hload⟩ := allocTemp_returns (c := c) h hs
  obtain ⟨l1, hok1⟩ := hload.ok
  have hok : KernelOk P (s.kernel.withPmap s1) := h.ok.withPmap ⟨l1, hok1⟩
  obtain ⟨r, ⟨k2, off2, now2⟩, hread, rfl, m, l, rfl, hok2, hsame⟩ :=
    (readn_returns (s := ⟨s.kernel.withPmap s1, 0x1000#32, s.now + 1⟩) hok h.live rfl hload.entry hload.perm).returns
  have hread' : exec (readn still cur utemp (min 4096 (0x1000 - 0 : Word).toNat) 0)
      ⟨s.kernel.withPmap s1, 0x1000#32, s.now + 1⟩ =
      (.ok 4096, ⟨(s.kernel.withPmap s1).withPmap { s1 with mem := m }, off2, now2⟩) := hread
  have hload2 := hload.stored hok2 hsame
  have hready : Ready P cur child e ((s.kernel.withPmap s1).withPmap { s1 with mem := m }) :=
    ⟨hok.withPmap ⟨l, hok2⟩, hload2.bounded, h.live, h.child⟩
  obtain ⟨s3, s4, hcall2, hcall3⟩ := handOver_returns (c := c)
    (s := ⟨(s.kernel.withPmap s1).withPmap { s1 with mem := m }, off2, now2⟩) hready hload2
  refine ⟨⟨((s.kernel.withPmap s1).withPmap { s1 with mem := m }).withPmap s4, off2, now2 + 2⟩, ?_⟩
  unfold mapPage
  rw [if_neg (by decide), exec_bind_ok hcall1, if_neg (by decide)]
  rw [exec_bind_ok (show exec (seek (0x1000 + 0)) _ = (.ok 0, ⟨s.kernel.withPmap s1, 0x1000#32, s.now + 1⟩) from rfl)]
  rw [if_neg (by decide), exec_bind_ok hread', if_neg (by decide), show (0x800000 + 0 : Word) = 0x800000 from rfl,
    exec_bind_ok hcall2, if_neg (by decide), exec_bind_ok hcall3]
  rfl

theorem mapSegments_returns (hs : s.kernel.pmap.Spare 4) :
    ∃ s', exec (mapSegments still c cur child (phdrs onePage.byte)) s = (.ok 0, s') := by
  obtain ⟨s', hpage⟩ := mapPage_returns (c := c) h hs
  have hpages : exec (mapPages still c cur child 0x800000 0x1000 0x1000 0x1000 (pteP ||| pteU ||| pteW) 0) s =
      (.ok 0, s') := by
    rw [mapPages, if_pos (by decide), exec_bind_ok hpage, if_neg (by decide), dif_pos (by decide), mapPages,
      if_neg (by decide)]
    rfl
  have hseg : exec (mapSegment still c cur child 0x800000 0x1000 0x1000 0x1000 (pteP ||| pteU ||| pteW)) s =
      (.ok 0, s') := by
    unfold mapSegment
    exact hpages
  refine ⟨s', ?_⟩
  rw [onePage_phdrs]
  unfold mapSegments
  rw [if_neg (by decide)]
  exact exec_bind_ok hseg

end

end

/-- The first program of a machine with 64MB spawns a program of one page, which the kernel can create as well. -/
theorem loaders_agree_page : ∃ k0 k : Kernel, Boots pc64 k0 ∧ LiveRuns k0 k ∧ onePage.Loadable ∧
    (∃ k' e, exec (envCreate onePage.elf .user) k = (.ok (), k') ∧ HoldsImage k' e onePage) ∧
    ∃ s', exec (mapSegments still 0 slot0 4097#32 (phdrs (onePage.elfBuf fun _ => 0#8))) ⟨k, 0, 0⟩ = (.ok 0, s') ∧
      HoldsImage s'.kernel slot1 onePage := by
  obtain ⟨k0, P, k, a, b, hboot, -, hrun, h⟩ := pc64_alone (fun _ => 0#8) .user
  obtain ⟨P0, -, -, -, -, hok0, honly0, -⟩ := hboot.machineOk
  obtain ⟨k1, hstep, hshow, -⟩ := Shows.fork (n := 14906) h.shows
    (rfl : (View.first k).curenv 0 = some slot0) rfl rfl (by decide : slot1 ≠ slot0)
  have hlive : LiveRuns k0 k1 := by
    refine (hok0.liveRuns honly0 hrun).tail ⟨_, hstep, h.bounded, byLive_trap h.shows.looks rfl ?_⟩
    exact EnvStatus.noConfusion
  have hchild : k1.resolve slot0 4097#32 true = some slot1 := by
    have hid : ((View.first k).fork slot0 slot1).id slot1 = 4097#32 := by
      simp only [View.fork, Function.update_self]
      rw [first_id k (by decide)]
      decide
    rw [← hid]
    exact hshow.looks.resolve (fork_child_slot1 k)
  have hcur : k1.Live slot0 := hshow.looks.live EnvStatus.noConfusion
  obtain ⟨hcreate, hspawn⟩ := loaders_agree hboot hlive hshow.bounded onePage_loadable
  have hfree : k1.envFreeList = some slot2 := by
    obtain ⟨r, hr⟩ := hshow.looks.free
    rw [hr.head_eq]
    rfl
  obtain ⟨p, q, x, y, hexec, -, -⟩ := envCreate_progress (n := 0) hshow.kernel hshow.bounded hfree
    (hshow.spare.mono (by decide)) (fun j => onePage.byte (4096 + j)) .user
  rw [← onePage_elf] at hexec
  obtain ⟨s', hmap⟩ := mapSegments_returns (s := ⟨k1, 0, 0⟩) (c := 0) ⟨hshow.kernel, hshow.bounded, hcur, hchild⟩
    (hshow.spare.mono (by decide))
  rw [← onePage_loadable.phdrs_elfBuf fun _ => 0#8] at hmap
  obtain ⟨e, -, himage⟩ := hcreate _ _ hexec
  refine ⟨k0, k1, hboot, hlive, onePage_loadable, ⟨_, e, hexec, himage⟩, s', hmap, ?_⟩
  exact hspawn _ _ _ _ _ _ _ _ _ hcur hchild (by decide) (still_serves ..) hmap

end Jos.Spawn
