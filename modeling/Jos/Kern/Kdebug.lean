import Jos.Kern.Printfmt
import Jos.Kern.Stabs

/-!
# Symbol lookup (`debuginfo_eip` of `kern/kdebug.c`)

For a user address the tables are where the user program says, in its own
memory. Every byte the lookup loads, every index it uses and every range that
`user_mem_check` has accepted is kept with the state; a load from an address
that is not mapped is a page fault in the kernel.
-/

namespace Jos.Kdebug

open Lib Stabs

def ustabdata : Word := 0x200000#32

def nFun : BitVec 8 := 0x24
def nSline : BitVec 8 := 0x44
def nSo : BitVec 8 := 0x64
def nSol : BitVec 8 := 0x84
def nPsym : BitVec 8 := 0xa0

structure UserStabData where
  stabs : Word
  stabEnd : Word
  stabstr : Word
  stabstrEnd : Word
  deriving DecidableEq

/-- `stab_end - stabs`: the exact division by 12 is a shift and a product with the inverse of 3. -/
def UserStabData.count (usd : UserStabData) : Word := (usd.stabEnd - usd.stabs).sshiftRight 2 * 0xAAAAAAAB#32

def UserStabData.strSize (usd : UserStabData) : Word := usd.stabstrEnd - usd.stabstr

/-- A name in `*info`: the literal `"<unknown>"`, or one in the string table. -/
inductive Name
  | unknown
  | inTable (va : Word)

structure Info where
  file : Name
  line : BitVec 16
  fnName : Name
  fnNamelen : Nat
  fnAddr : Word
  fnNarg : Nat

structure Trace where
  reads : List Word
  indices : List Int
  accepted : List (Word × Word)

inductive Stop
  | pageFault (va : Word)
  | panic (p : Panic)
  /-- A string without an end, all around the address space. -/
  | endless

abbrev DebugM := M Trace Stop

section
variable (p : Pmap) (pgdir : Nat)

def load8 (a : Word) : DebugM (BitVec 8) := do
  modify fun t => { t with reads := t.reads ++ [a] }
  match byteAt p.mem pgdir a with
  | some b => return b
  | none => throw (.pageFault a)

def load16 (a : Word) : DebugM (BitVec 16) := do
  let b0 ← load8 p pgdir a
  let b1 ← load8 p pgdir (a + 1)
  return b1 ++ b0

def load32 (a : Word) : DebugM Word := do
  let b0 ← load8 p pgdir a
  let b1 ← load8 p pgdir (a + 1)
  let b2 ← load8 p pgdir (a + 2)
  let b3 ← load8 p pgdir (a + 3)
  return b3 ++ b2 ++ b1 ++ b0

def check (va len : Word) : DebugM Bool :=
  match (exec (userMemCheck pgdir va len (pteU ||| pteP)) p).1 with
  | .ok r =>
    if r = 0 then do
      modify fun t => { t with accepted := t.accepted ++ [(va, len)] }
      return true
    else return false
  | .error e => throw (.panic e)

def stabAddr (stabs : Word) (i : Int) (offset : Nat) : Word := stabs + BitVec.ofInt 32 (12 * i + offset)

def useIndex (i : Int) : DebugM Unit := modify fun t => { t with indices := t.indices ++ [i] }

def userTable (stabs : Word) : Table DebugM where
  nStrx i := do
    useIndex i
    load32 p pgdir (stabAddr stabs i 0)
  nType i := do
    useIndex i
    load8 p pgdir (stabAddr stabs i 4)
  nDesc i := do
    useIndex i
    load16 p pgdir (stabAddr stabs i 6)
  nValue i := do
    useIndex i
    load32 p pgdir (stabAddr stabs i 8)

def strfind (s : Word) (c : BitVec 8) : Nat → Nat → DebugM Nat
  | 0, _ => throw .endless
  | k + 1, n => do
    let b ← load8 p pgdir (s + BitVec.ofNat 32 n)
    if b = 0#8 ∨ b = c then return n else strfind s c k (n + 1)

def Name.find (c : BitVec 8) : Name → DebugM Nat
  | .unknown => return 9
  | .inTable va => strfind p pgdir va c (2 ^ 32) 0

/-- `stabstr + n_strx`, unless that is outside of the string table. -/
def nameOr (usd : UserStabData) (strx : Word) (name : Name) : Name :=
  if strx < usd.strSize then .inTable (usd.stabstr + strx) else name

def findFile (t : Table DebugM) (lfile : Int) : Nat → Int → DebugM Int
  | 0, lline => return lline
  | k + 1, lline =>
    if lfile ≤ lline then do
      let type ← t.nType lline
      if type = nSol then return lline
      else if type ≠ nSo then findFile t lfile k (lline - 1)
      else if (← t.nValue lline) = 0 then findFile t lfile k (lline - 1)
      else return lline
    else return lline

def countArgs (t : Table DebugM) (rfun : Int) : Nat → Int → Nat → DebugM Nat
  | 0, _, n => return n
  | k + 1, lline, n =>
    if lline < rfun then do
      if (← t.nType lline) = nPsym then countArgs t rfun k (lline + 1) (n + 1) else return n
    else return n

def fileName (t : Table DebugM) (usd : UserStabData) (name : Name) (lfile lline : Int) : DebugM Name :=
  if lfile ≤ lline then do return nameOr usd (← t.nStrx lline) name else return name

def fnNarg (t : Table DebugM) (lfun rfun : Int) : DebugM Nat :=
  if lfun < rfun then countArgs t rfun (rfun - lfun).toNat (lfun + 1) 0 else return 0

def findLine (usd : UserStabData) (info : Info) (addr : Word) (lfile lfun rfun lline rline : Int) :
    DebugM (Int × Info) := do
  let t := userTable p pgdir usd.stabs
  let namelen ← info.fnName.find p pgdir 0x3A
  let (lline, _) ← stabBinsearch t lline rline nSline addr
  let line ← t.nDesc lline
  let lline ← findFile t lfile (lline - lfile + 1).toNat lline
  let file ← fileName t usd info.file lfile lline
  let narg ← fnNarg t lfun rfun
  return (0, { info with file := file, line := line, fnNamelen := namelen, fnNarg := narg })

def lookup (usd : UserStabData) (addr : Word) (info : Info) : DebugM (Int × Info) := do
  let t := userTable p pgdir usd.stabs
  let (lfile, rfile) ← stabBinsearch t 0 (usd.count.toInt - 1) nSo addr
  if lfile = 0 then return (-1, info)
  else
    let (lfun, rfun) ← stabBinsearch t lfile rfile nFun addr
    if lfun ≤ rfun then
      let name := nameOr usd (← t.nStrx lfun) info.fnName
      let value ← t.nValue lfun
      findLine p pgdir usd { info with fnName := name, fnAddr := value } (addr - value) lfile lfun rfun lfun rfun
    else findLine p pgdir usd { info with fnAddr := addr } addr lfile lfun rfun lfile rfile

def loadUsd : DebugM UserStabData := do
  let stabs ← load32 p pgdir ustabdata
  let stabEnd ← load32 p pgdir (ustabdata + 4)
  let stabstr ← load32 p pgdir (ustabdata + 8)
  let stabstrEnd ← load32 p pgdir (ustabdata + 12)
  return ⟨stabs, stabEnd, stabstr, stabstrEnd⟩

/-- The tables to use; `kern` are the kernel's own. -/
def findTables (kern : UserStabData) (addr : Word) : DebugM (Option UserStabData) := do
  if ulim ≤ addr then return some kern
  else if (← check p pgdir ustabdata 16) = false then return none
  else
    let usd ← loadUsd p pgdir
    if (← check p pgdir usd.stabs usd.count) = false then return none
    else if (← check p pgdir usd.stabstr usd.strSize) = false then return none
    else return some usd

def debuginfoEip (kern : UserStabData) (addr : Word) : DebugM (Int × Info) := do
  let info : Info := ⟨.unknown, 0, .unknown, 9, addr, 0⟩
  match ← findTables p pgdir kern addr with
  | none => return (-1, info)
  | some usd =>
    if usd.stabstrEnd ≤ usd.stabstr then return (-1, info)
    else if (← load8 p pgdir (usd.stabstrEnd - 1#32)) ≠ 0#8 then return (-1, info)
    else lookup p pgdir usd addr info

/-! ## What is wanted, and where the lookup ends early -/

def InRange (va len a : Word) : Prop := va.toNat ≤ a.toNat ∧ a.toNat < va.toNat + len.toNat

/-- Only accepted bytes are loaded, and only indices of a table of `n` entries used. -/
structure Safe (n : Int) (t : Trace) : Prop where
  reads : ∀ a ∈ t.reads, ∃ r ∈ t.accepted, InRange r.1 r.2 a
  indices : ∀ i ∈ t.indices, 0 ≤ i ∧ i < n

def Accepts (va len : Word) : Prop := (exec (userMemCheck pgdir va len (pteU ||| pteP)) p).1 = .ok 0

def byteOr (a : Word) : BitVec 8 := (byteAt p.mem pgdir a).getD 0

def wordAt (a : Word) : Word :=
  byteOr p pgdir (a + 3) ++ byteOr p pgdir (a + 2) ++ byteOr p pgdir (a + 1) ++ byteOr p pgdir a

def usdAt : UserStabData :=
  ⟨wordAt p pgdir ustabdata, wordAt p pgdir (ustabdata + 4), wordAt p pgdir (ustabdata + 8),
    wordAt p pgdir (ustabdata + 12)⟩

/-- The three checks pass. -/
structure Checked : Prop where
  usd : Accepts p pgdir ustabdata 16
  stabs : Accepts p pgdir (usdAt p pgdir).stabs (usdAt p pgdir).count
  stabstr : Accepts p pgdir (usdAt p pgdir).stabstr (usdAt p pgdir).strSize

/-- The lookup ends before it looks at a stab: a check fails, the string table is
empty or does not end in a `NUL`, or there are no stabs. -/
def EndsEarly : Prop :=
  ¬ Checked p pgdir ∨ (usdAt p pgdir).stabstrEnd ≤ (usdAt p pgdir).stabstr ∨
    byteAt p.mem pgdir ((usdAt p pgdir).stabstrEnd - 1#32) ≠ some 0#8 ∨ (usdAt p pgdir).count.toInt ≤ 0

def firstProbe : Word := stabAddr (usdAt p pgdir).stabs (((usdAt p pgdir).count.toInt - 1) / 2) 4

end

/-! ## Up to the first search -/

section
variable {p : Pmap} {pgdir : Nat} {n : Int} {t : Trace}

theorem load8_safe (h : Safe n t) (ha : r ∈ t.accepted) (hr : InRange r.1 r.2 a) :
    Triple (load8 p pgdir a) t
      (fun b u => byteAt p.mem pgdir a = some b ∧ Safe n u ∧ u.accepted = t.accepted)
      fun _ u => byteAt p.mem pgdir a = none ∧ Safe n u := by
  have hsafe : Safe n { t with reads := t.reads ++ [a] } := by
    refine ⟨fun b hb => ?_, h.indices⟩
    rcases List.mem_append.1 hb with hb | hb
    · exact h.reads b hb
    · exact ⟨r, ha, List.mem_singleton.1 hb ▸ hr⟩
  refine .modify_bind ?_
  cases hb : byteAt p.mem pgdir a with
  | some b => exact .pure ⟨rfl, hsafe, rfl⟩
  | none => exact .throw ⟨rfl, hsafe⟩

/-- Bytes of an accepted range that are there. -/
structure Loadable (p : Pmap) (pgdir : Nat) (r : Word × Word) (a : Word) : Prop where
  inRange : InRange r.1 r.2 a
  mapped : (byteAt p.mem pgdir a).isSome = true

theorem load8_loadable (h : Safe n t) (ha : r ∈ t.accepted) (hl : Loadable p pgdir r a) :
    Triple (load8 p pgdir a) t (fun b u => b = byteOr p pgdir a ∧ Safe n u ∧ u.accepted = t.accepted)
      fun _ _ => False := by
  refine (load8_safe h ha hl.inRange).mono (fun b u hu => ⟨?_, hu.2⟩) fun _ u hu => ?_
  · rw [byteOr, hu.1, Option.getD_some]
  · have := hl.mapped
    rw [hu.1] at this
    cases this

theorem load32_loadable (h : Safe n t) (ha : r ∈ t.accepted)
    (hl : ∀ k < 4, Loadable p pgdir r (a + BitVec.ofNat 32 k)) :
    Triple (load32 p pgdir a) t (fun w u => w = wordAt p pgdir a ∧ Safe n u ∧ u.accepted = t.accepted)
      fun _ _ => False := by
  have h0 := hl 0 (by decide)
  rw [BitVec.add_zero] at h0
  refine .bind (load8_loadable h ha h0) ?_
  rintro _ t₀ ⟨rfl, hs₀, ha₀⟩
  refine .bind (load8_loadable hs₀ (ha₀ ▸ ha) (hl 1 (by decide))) ?_
  rintro _ t₁ ⟨rfl, hs₁, ha₁⟩
  rw [ha₀] at ha₁
  refine .bind (load8_loadable hs₁ (ha₁ ▸ ha) (hl 2 (by decide))) ?_
  rintro _ t₂ ⟨rfl, hs₂, ha₂⟩
  rw [ha₁] at ha₂
  refine .bind (load8_loadable hs₂ (ha₂ ▸ ha) (hl 3 (by decide))) ?_
  rintro _ t₃ ⟨rfl, hs₃, ha₃⟩
  exact .pure ⟨rfl, hs₃, ha₃.trans ha₂⟩

theorem check_ok (va len : Word) : Triple (check p pgdir va len) t
    (fun b u => (b = true ∧ Accepts p pgdir va len ∧ u = { t with accepted := t.accepted ++ [(va, len)] }) ∨
      (b = false ∧ ¬ Accepts p pgdir va len ∧ u = t))
    fun _ u => ¬ Accepts p pgdir va len ∧ u = t := by
  unfold check Accepts
  generalize (exec (userMemCheck pgdir va len (pteU ||| pteP)) p).1 = r
  cases r with
  | ok r =>
    refine .ite (fun hr => .bind (.modify rfl) fun _ u hu => .pure (.inl ⟨rfl, ?_, hu⟩))
      fun hr => .pure (.inr ⟨rfl, ?_, rfl⟩)
    · rw [hr]
    · simpa using hr
  | error e => exact .throw ⟨by simp, rfl⟩

theorem Safe.accept (h : Safe n t) : Safe n { t with accepted := t.accepted ++ l } := by
  refine ⟨fun a ha => ?_, h.indices⟩
  obtain ⟨r, hr, hin⟩ := h.reads a ha
  exact ⟨r, List.mem_append_left _ hr, hin⟩

section
variable (h : Accepts p pgdir ustabdata 16)
include h

theorem usd_loadable (ha : InRange ustabdata 16 a) : Loadable p pgdir (ustabdata, 16) a := by
  refine ⟨ha, ?_⟩
  obtain ⟨h₁, h₂⟩ := ha
  have haddr : a = ustabdata + BitVec.ofNat 32 (a.toNat - ustabdata.toNat) := by
    bv_omega
  rw [haddr]
  exact Printfmt.check_mapped (Prod.ext h rfl) (by decide) (by omega)

theorem usd_words (hj : j < 4) (k : Nat) (hk : k < 4) :
    Loadable p pgdir (ustabdata, 16) (ustabdata + BitVec.ofNat 32 (4 * j) + BitVec.ofNat 32 k) := by
  apply usd_loadable h
  unfold InRange ustabdata
  bv_omega

theorem loadUsd_ok (hs : Safe n t) (ha : (ustabdata, 16) ∈ t.accepted) :
    Triple (loadUsd p pgdir) t (fun usd u => usd = usdAt p pgdir ∧ Safe n u ∧ u.accepted = t.accepted)
      fun _ _ => False := by
  have h₀ := usd_words (j := 0) h (by decide)
  refine .bind (load32_loadable hs ha h₀) ?_
  rintro _ t₀ ⟨rfl, hs₀, ha₀⟩
  refine .bind (load32_loadable hs₀ (ha₀ ▸ ha) (usd_words (j := 1) h (by decide))) ?_
  rintro _ t₁ ⟨rfl, hs₁, ha₁⟩
  rw [ha₀] at ha₁
  refine .bind (load32_loadable hs₁ (ha₁ ▸ ha) (usd_words (j := 2) h (by decide))) ?_
  rintro _ t₂ ⟨rfl, hs₂, ha₂⟩
  rw [ha₁] at ha₂
  refine .bind (load32_loadable hs₂ (ha₂ ▸ ha) (usd_words (j := 3) h (by decide))) ?_
  rintro _ t₃ ⟨rfl, hs₃, ha₃⟩
  exact .pure ⟨rfl, hs₃, ha₃.trans ha₂⟩

end

def acceptedRanges (p : Pmap) (pgdir : Nat) : List (Word × Word) :=
  [(ustabdata, 16), ((usdAt p pgdir).stabs, (usdAt p pgdir).count), ((usdAt p pgdir).stabstr, (usdAt p pgdir).strSize)]

theorem findTables_ok (haddr : addr < ulim) : Triple (findTables p pgdir kern addr) ⟨[], [], []⟩
    (fun r u => Safe n u ∧ ((r = none ∧ ¬ Checked p pgdir) ∨
      (r = some (usdAt p pgdir) ∧ Checked p pgdir ∧ u.accepted = acceptedRanges p pgdir)))
    fun _ u => Safe n u ∧ ¬ Checked p pgdir := by
  have hempty : Safe n ⟨[], [], []⟩ := ⟨fun _ h => (List.not_mem_nil h).elim, fun _ h => (List.not_mem_nil h).elim⟩
  unfold findTables
  rw [if_neg (BitVec.not_le.2 haddr)]
  refine .bind ((check_ok ..).imp_error fun _ u h => ⟨h.2 ▸ hempty, fun hc => h.1 hc.usd⟩) ?_
  rintro _ u (⟨rfl, hacc, rfl⟩ | ⟨rfl, hno, rfl⟩)
  · refine .bind ((loadUsd_ok hacc hempty.accept (by simp)).imp_error fun _ _ h => h.elim) ?_
    rintro _ u ⟨rfl, hu, hua⟩
    refine .bind ((check_ok ..).imp_error fun _ v h => ⟨h.2 ▸ hu, fun hc => h.1 hc.stabs⟩) ?_
    rintro _ v (⟨rfl, hacc', rfl⟩ | ⟨rfl, hno, rfl⟩)
    · refine .bind ((check_ok ..).imp_error fun _ v h => ⟨h.2 ▸ hu.accept, fun hc => h.1 hc.stabstr⟩) ?_
      rintro _ v (⟨rfl, hacc'', rfl⟩ | ⟨rfl, hno, rfl⟩)
      · exact .pure ⟨hu.accept.accept, .inr ⟨rfl, ⟨hacc, hacc', hacc''⟩, by rw [hua]; rfl⟩⟩
      · exact .pure ⟨hu.accept, .inl ⟨rfl, fun hc => hno hc.stabstr⟩⟩
    · exact .pure ⟨hu, .inl ⟨rfl, fun hc => hno hc.stabs⟩⟩
  · exact .pure ⟨hempty, .inl ⟨rfl, fun hc => hno hc.usd⟩⟩

end

/-! ## The searches -/

/-- However the computation ends, it has kept `I`. -/
def Preserves (I : Trace → Prop) (m : DebugM α) : Prop := ∀ t, I t → Triple m t (fun _ u => I u) fun _ u => I u

namespace Preserves

variable {I : Trace → Prop} {m m' : DebugM α} {f : α → DebugM β}

theorem pure {a : α} : Preserves I (Pure.pure a : DebugM α) := fun _ h => .pure h

theorem throw {e : Stop} : Preserves I (MonadExcept.throw e : DebugM α) := fun _ h => .throw h

theorem bind (h : Preserves I m) (hf : ∀ a, Preserves I (f a)) : Preserves I (m >>= f) :=
  fun t ht => .bind (h t ht) fun a u hu => hf a u hu

theorem ite {c : Prop} [Decidable c] (h : Preserves I m) (h' : Preserves I m') : Preserves I (if c then m else m') :=
  fun t ht => .ite (fun _ => h t ht) fun _ => h' t ht

end Preserves

/-- `a` has been loaded, and `acc` are the accepted ranges. -/
def Loaded (a : Word) (acc : List (Word × Word)) (t : Trace) : Prop := a ∈ t.reads ∧ t.accepted = acc

/-- The fields of a table are loaded from memory. -/
structure Plain (I : Trace → Prop) (t : Table DebugM) : Prop where
  nStrx : ∀ i, Preserves I (t.nStrx i)
  nType : ∀ i, Preserves I (t.nType i)
  nDesc : ∀ i, Preserves I (t.nDesc i)
  nValue : ∀ i, Preserves I (t.nValue i)

section
variable {p : Pmap} {pgdir : Nat} {I : Trace → Prop} {tab : Table DebugM}

section
variable (h : Plain I tab)
include h

theorem scan_preserves : Preserves I (scan tab type lo k m) := by
  induction k generalizing m with
  | zero => exact .pure
  | succ k ih => exact .ite (.bind (h.nType m) fun _ => .ite ih .pure) .pure

theorem searchStep_preserves : Preserves I (searchStep tab type s) :=
  .bind (scan_preserves h) fun _ => .ite .pure (.bind (h.nValue _) fun _ => .ite .pure
    (.bind (h.nValue _) fun _ => .ite .pure .pure))

theorem searchLoop_preserves : Preserves I (searchLoop tab type k s) := by
  induction k generalizing s with
  | zero => exact .pure
  | succ k ih => exact .ite (.bind (searchStep_preserves h) fun _ => ih) .pure

theorem stabBinsearch_preserves : Preserves I (stabBinsearch tab left right type addr) :=
  .bind (searchLoop_preserves h) fun _ => .ite .pure (.bind (scan_preserves h) fun _ => .pure)

theorem findFile_preserves : Preserves I (findFile tab lfile k lline) := by
  induction k generalizing lline with
  | zero => exact .pure
  | succ k ih =>
    refine .ite (.bind (h.nType lline) fun _ => .ite .pure (.ite ih ?_)) .pure
    exact .bind (h.nValue lline) fun _ => .ite ih .pure

theorem countArgs_preserves : Preserves I (countArgs tab rfun k lline n) := by
  induction k generalizing lline n with
  | zero => exact .pure
  | succ k ih => exact .ite (.bind (h.nType lline) fun _ => .ite ih .pure) .pure

end

theorem strfind_preserves (h : ∀ a, Preserves I (load8 p pgdir a)) : Preserves I (strfind p pgdir s c k n) := by
  induction k generalizing n with
  | zero => exact .throw
  | succ k ih => exact .bind (h _) fun _ => .ite .pure ih

end

section
variable {p : Pmap} {pgdir : Nat} {a : Word} {acc : List (Word × Word)}

theorem load8_preserves (b : Word) : Preserves (Loaded a acc) (load8 p pgdir b) := by
  intro t ht
  refine .bind (.modify (Q := fun _ u => Loaded a acc u) ⟨List.mem_append_left _ ht.1, ht.2⟩) fun _ u hu => ?_
  cases byteAt p.mem pgdir b with
  | some b => exact .pure hu
  | none => exact .throw hu

theorem useIndex_preserves (i : Int) : Preserves (Loaded a acc) (useIndex i) := fun _ h => .modify h

theorem userTable_plain (stabs : Word) : Plain (Loaded a acc) (userTable p pgdir stabs) := by
  have h8 : ∀ b, Preserves (Loaded a acc) (load8 p pgdir b) := load8_preserves
  have h16 : ∀ b, Preserves (Loaded a acc) (load16 p pgdir b) := fun b =>
    .bind (h8 _) fun _ => .bind (h8 _) fun _ => .pure
  have h32 : ∀ b, Preserves (Loaded a acc) (load32 p pgdir b) := fun b =>
    .bind (h8 _) fun _ => .bind (h8 _) fun _ => .bind (h8 _) fun _ => .bind (h8 _) fun _ => .pure
  exact ⟨fun i => .bind (useIndex_preserves i) fun _ => h32 _, fun i => .bind (useIndex_preserves i) fun _ => h8 _,
    fun i => .bind (useIndex_preserves i) fun _ => h16 _, fun i => .bind (useIndex_preserves i) fun _ => h32 _⟩

theorem findLine_preserves : Preserves (Loaded a acc) (findLine p pgdir usd info addr lfile lfun rfun lline rline) := by
  have htab : Plain (Loaded a acc) (userTable p pgdir usd.stabs) := userTable_plain _
  have hname : Preserves (Loaded a acc) (info.fnName.find p pgdir 0x3A) := by
    cases info.fnName with
    | unknown => exact .pure
    | inTable va => exact strfind_preserves load8_preserves
  have hfile : ∀ {name lline}, Preserves (Loaded a acc) (fileName (userTable p pgdir usd.stabs) usd name lfile lline) :=
    .ite (.bind (htab.nStrx _) fun _ => .pure) .pure
  have hnarg : Preserves (Loaded a acc) (fnNarg (userTable p pgdir usd.stabs) lfun rfun) :=
    .ite (countArgs_preserves htab) .pure
  exact .bind hname fun _ => .bind (stabBinsearch_preserves htab) fun _ => .bind (htab.nDesc _) fun _ =>
    .bind (findFile_preserves htab) fun _ => .bind hfile fun _ => .bind hnarg fun _ => .pure

/-- However the computation ends, `a` has been loaded. -/
def Reaches (a : Word) (acc : List (Word × Word)) (m : DebugM α) (t : Trace) : Prop :=
  Triple m t (fun _ u => Loaded a acc u) fun _ u => Loaded a acc u

theorem Reaches.bind {m : DebugM α} {f : α → DebugM β} (h : Reaches a acc m t)
    (hf : ∀ x, Preserves (Loaded a acc) (f x)) : Reaches a acc (m >>= f) t :=
  Triple.bind h fun x u hu => hf x u hu

theorem load8_reaches (h : t.accepted = acc) : Reaches a acc (load8 p pgdir a) t := by
  refine Triple.bind (.modify (Q := fun _ u => Loaded a acc u) ⟨by simp, h⟩) fun _ u hu => ?_
  cases byteAt p.mem pgdir a with
  | some b => exact .pure hu
  | none => exact .throw hu

/-- A search of a table that is not empty starts with the type of the stab in the middle. -/
theorem stabBinsearch_reaches (hR : 0 ≤ R) (h : t.accepted = acc) :
    Reaches (stabAddr stabs (R / 2) 4) acc (stabBinsearch (userTable p pgdir stabs) 0 R type addr) t := by
  have htab : Plain (Loaded (stabAddr stabs (R / 2) 4) acc) (userTable p pgdir stabs) := userTable_plain _
  have hmid : Search.trueM ⟨0, R, 0, R, false, addr⟩ = R / 2 := by
    rw [Search.trueM, Int.zero_add, Int.tdiv_eq_ediv_of_nonneg hR]
  have htype : Reaches (stabAddr stabs (R / 2) 4) acc ((userTable p pgdir stabs).nType (R / 2)) t :=
    Triple.bind (.modify (Q := fun _ u => u.accepted = acc) h) fun _ u hu => load8_reaches hu
  have hscan : Reaches (stabAddr stabs (R / 2) 4) acc
      (scan (userTable p pgdir stabs) type 0 (R / 2 - 0 + 1).toNat (R / 2)) t := by
    rw [show (R / 2 - 0 + 1).toNat = (R / 2).toNat + 1 by omega, scan, if_pos (by omega)]
    exact htype.bind fun _ => .ite (scan_preserves htab) .pure
  have hstep : Reaches (stabAddr stabs (R / 2) 4) acc
      (searchStep (userTable p pgdir stabs) type ⟨0, R, 0, R, false, addr⟩) t := by
    unfold searchStep
    rw [hmid]
    exact hscan.bind fun _ => .ite .pure (.bind (htab.nValue _) fun _ => .ite .pure
      (.bind (htab.nValue _) fun _ => .ite .pure .pure))
  have hloop : Reaches (stabAddr stabs (R / 2) 4) acc
      (searchLoop (userTable p pgdir stabs) type (2 * (R - 0 + 1).toNat + 1) ⟨0, R, 0, R, false, addr⟩) t := by
    rw [searchLoop, if_pos hR]
    exact hstep.bind fun _ => searchLoop_preserves htab
  exact hloop.bind fun _ => .ite .pure (.bind (scan_preserves htab) fun _ => .pure)

theorem lookup_reaches (hn : 0 < usd.count.toInt) (h : t.accepted = acc) :
    Reaches (stabAddr usd.stabs ((usd.count.toInt - 1) / 2) 4) acc (lookup p pgdir usd addr info) t := by
  have htab : Plain (Loaded (stabAddr usd.stabs ((usd.count.toInt - 1) / 2) 4) acc) (userTable p pgdir usd.stabs) :=
    userTable_plain _
  refine (stabBinsearch_reaches (by omega) h).bind fun _ => .ite .pure ?_
  refine .bind (stabBinsearch_preserves htab) fun _ => ?_
  exact .ite (.bind (htab.nStrx _) fun _ => .bind (htab.nValue _) fun _ => findLine_preserves) findLine_preserves

theorem lookup_empty (hn : usd.count.toInt ≤ 0) : exec (lookup p pgdir usd addr info) t = (.ok (-1, info), t) := by
  have hsearch : stabBinsearch (userTable p pgdir usd.stabs) 0 (usd.count.toInt - 1) nSo addr = pure (0, 0 - 1) :=
    stabBinsearch_empty (by omega)
  unfold lookup
  dsimp only
  rw [hsearch, pure_bind]
  exact congrArg (exec · t) (if_pos rfl)

end

/-! ## The whole lookup -/

section
variable {p : Pmap} {pgdir : Nat}

theorem debuginfoEip_ok (kern : UserStabData) (haddr : addr < ulim) :
    Triple (debuginfoEip p pgdir kern addr) ⟨[], [], []⟩
      (fun _ u => (EndsEarly p pgdir → Safe (usdAt p pgdir).count.toInt u) ∧
        (¬ EndsEarly p pgdir → Loaded (firstProbe p pgdir) (acceptedRanges p pgdir) u))
      fun _ u => (EndsEarly p pgdir → Safe (usdAt p pgdir).count.toInt u) ∧
        (¬ EndsEarly p pgdir → Loaded (firstProbe p pgdir) (acceptedRanges p pgdir) u) := by
  refine .bind ((findTables_ok haddr).imp_error fun _ u h =>
    ⟨fun _ => h.1, fun he => absurd (.inl h.2) he⟩) ?_
  rintro _ u ⟨hsafe, ⟨rfl, hno⟩ | ⟨rfl, hchecked, hacc⟩⟩
  · exact .pure ⟨fun _ => hsafe, fun he => absurd (.inl hno) he⟩
  refine .ite (fun hle => .pure ⟨fun _ => hsafe, fun he => absurd (.inr (.inl hle)) he⟩) fun hlt => ?_
  have hin : InRange (usdAt p pgdir).stabstr (usdAt p pgdir).strSize ((usdAt p pgdir).stabstrEnd - 1#32) := by
    have h : (usdAt p pgdir).stabstr.toNat < (usdAt p pgdir).stabstrEnd.toNat := Nat.lt_of_not_le hlt
    simp only [InRange, UserStabData.strSize, BitVec.toNat_sub, BitVec.toNat_ofNat]
    omega
  have hmem : ((usdAt p pgdir).stabstr, (usdAt p pgdir).strSize) ∈ u.accepted := by simp [hacc, acceptedRanges]
  refine .bind ((load8_safe hsafe hmem hin).imp_error fun _ v h =>
    ⟨fun _ => h.2, fun he => absurd (.inr (.inr (.inl (by simp [h.1])))) he⟩) ?_
  rintro b v ⟨hb, hv, hva⟩
  refine .ite (fun hne => .pure ⟨fun _ => hv, fun he => ?_⟩) fun hb0 => ?_
  · exact absurd (.inr (.inr (.inl (by simpa [hb] using hne)))) he
  by_cases hn : (usdAt p pgdir).count.toInt ≤ 0
  · exact .of_ok (lookup_empty hn) ⟨fun _ => hv, fun he => absurd (.inr (.inr (.inr hn))) he⟩
  · have he : ¬ EndsEarly p pgdir := by
      rintro (h | h | h | h)
      · exact h hchecked
      · exact hlt h
      · exact h (hb.trans (by rw [not_not.1 hb0]))
      · exact hn h
    refine (lookup_reaches (by omega) (hva.trans hacc)).mono (fun _ w hw => ?_) fun _ w hw => ?_
    · exact ⟨fun h => absurd h he, fun _ => hw⟩
    · exact ⟨fun h => absurd h he, fun _ => hw⟩

def lookupTrace (p : Pmap) (pgdir : Nat) (kern : UserStabData) (addr : Word) : Trace :=
  (exec (debuginfoEip p pgdir kern addr) ⟨[], [], []⟩).2

/-- The stab in the middle of the table is in neither of the other two ranges, and
the table is no larger than the address space. -/
structure Apart (p : Pmap) (pgdir : Nat) : Prop where
  small : 12 * (usdAt p pgdir).count.toInt ≤ 2 ^ 32
  usd : ¬ InRange ustabdata 16 (firstProbe p pgdir)
  stabstr : ¬ InRange (usdAt p pgdir).stabstr (usdAt p pgdir).strSize (firstProbe p pgdir)

theorem firstProbe_outside (hn : 0 < (usdAt p pgdir).count.toInt) (hs : 12 * (usdAt p pgdir).count.toInt ≤ 2 ^ 32) :
    ¬ InRange (usdAt p pgdir).stabs (usdAt p pgdir).count (firstProbe p pgdir) := by
  unfold firstProbe stabAddr InRange
  generalize (usdAt p pgdir).stabs = stabs
  generalize (usdAt p pgdir).count = n at hn hs ⊢
  have hnat : n.toInt = n.toNat := BitVec.toInt_eq_toNat_of_msb (by
    rw [BitVec.msb_eq_toInt]
    simpa using Int.le_of_lt hn)
  rw [hnat] at hn hs ⊢
  have hoff : (12 * (((n.toNat : Int) - 1) / 2) + (4 : Nat) : Int) = ((12 * ((n.toNat - 1) / 2) + 4 : Nat) : Int) := by
    omega
  have hlt : 12 * ((n.toNat - 1) / 2) + 4 < 2 ^ 32 := by omega
  rw [hoff, BitVec.ofInt_natCast, BitVec.toNat_add, BitVec.toNat_ofNat, Nat.mod_eq_of_lt hlt]
  have hge : n.toNat < 12 * ((n.toNat - 1) / 2) + 4 := by omega
  omega

theorem lookupTrace_ok (kern : UserStabData) (haddr : addr < ulim) :
    (EndsEarly p pgdir → Safe (usdAt p pgdir).count.toInt (lookupTrace p pgdir kern addr)) ∧
      (¬ EndsEarly p pgdir → Loaded (firstProbe p pgdir) (acceptedRanges p pgdir) (lookupTrace p pgdir kern addr)) := by
  have h := @debuginfoEip_ok p pgdir addr kern haddr
  unfold lookupTrace
  cases hx : exec (debuginfoEip p pgdir kern addr) ⟨[], [], []⟩ with
  | mk r u =>
    cases r with
    | ok a => exact h.ok hx
    | error e => exact h.error hx

theorem Loaded.not_safe (h : Loaded (firstProbe p pgdir) (acceptedRanges p pgdir) t) (hapart : Apart p pgdir)
    (hn : 0 < (usdAt p pgdir).count.toInt) : ¬ Safe n t := by
  intro hsafe
  obtain ⟨r, hr, hin⟩ := hsafe.reads _ h.1
  simp only [h.2, acceptedRanges, List.mem_cons, List.not_mem_nil, or_false] at hr
  rcases hr with rfl | rfl | rfl
  · exact hapart.usd hin
  · exact firstProbe_outside hn hapart.small hin
  · exact hapart.stabstr hin

/-- The lookup is safe if it ends before it looks at a stab; and only then, where
the checks of other memory do not cover the stab by chance. -/
theorem debuginfo_safe_iff (kern : UserStabData) (haddr : addr < ulim) :
    (EndsEarly p pgdir → Safe (usdAt p pgdir).count.toInt (lookupTrace p pgdir kern addr)) ∧
      (Apart p pgdir → Safe (usdAt p pgdir).count.toInt (lookupTrace p pgdir kern addr) → EndsEarly p pgdir) := by
  obtain ⟨hsafe, hloaded⟩ := @lookupTrace_ok p pgdir addr kern haddr
  refine ⟨hsafe, fun hapart hs => by_contra fun hearly => ?_⟩
  have hn : 0 < (usdAt p pgdir).count.toInt := Int.not_le.1 fun hle => hearly (.inr (.inr (.inr hle)))
  exact (hloaded hearly).not_safe hapart hn hs

theorem accepts_page (hwalk : exec (pgdirWalk pgdir va false) p = (.ok (some e), p))
    (hperm : p.mem.read32 e &&& (pteU ||| pteP ||| pteP) = pteU ||| pteP ||| pteP) (hlt : va < roundup (va + len) 4096)
    (hu : va < ulim) (hend : roundup (va + len) 4096 ≤ rounddown va 4096 + 4096) : Accepts p pgdir va len := by
  rw [Accepts, userMemCheck, userMemCheckLoop, dif_pos hlt, dif_neg (BitVec.not_le.2 hu), exec_bind_ok hwalk,
    exec_bind_ok (exec_load _), if_neg (not_not.2 hperm), userMemCheckLoop, dif_neg (BitVec.not_lt.2 hend)]
  rfl

/-- A program with the page at `USTABDATA` only. The table is at `0x200100`, its
end at `0x200100 + size`; the string table is one `NUL`. The table's first entry
is a file at the last address. -/
def stabPage (size : BitVec 8) : Pmap where
  layout := ⟨16384, Printfmt.npages_64, 0, 0, 0⟩
  mem a := match a with
    | 0x1000 | 0x2800 => 0x07
    | 0x1001 => 0x20
    | 0x2801 => 0x30
    | 0x3001 | 0x3005 | 0x300C => 0x01
    | 0x3009 | 0x300D => 0x02
    | 0x3002 | 0x3006 | 0x300A | 0x300E => 0x20
    | 0x3004 => size
    | 0x3104 => 0x64
    | 0x3108 | 0x3109 | 0x310A | 0x310B => 0xFF
    | _ => 0
  pages := fun _ => ⟨none, 0#16⟩
  pageFreeList := none
  userMemCheckAddr := 0#32
  uninit := 1

theorem stabPage_accepts (size : BitVec 8) (hd : pdx va = 0) (ht : ptx va = 0x200)
    (hlt : va < roundup (va + len) 4096) (hu : va < ulim)
    (hend : roundup (va + len) 4096 ≤ rounddown va 4096 + 4096) : Accepts (stabPage size) pgsize va len := by
  have hdir : (stabPage size).mem.read32 (pgsize + 4 * 0) = 0x2007#32 := by simp [stabPage, Mem.read32, pgsize]
  have hentry : (stabPage size).mem.read32 0x2800 = 0x3007#32 := by simp [stabPage, Mem.read32]
  refine accepts_page (e := 0x2800) ?_ (hentry ▸ by decide) hlt hu hend
  rw [exec_pgdirWalk_false, hd, hdir, ht]
  rfl

theorem stabPage_usd : usdAt (stabPage 12) pgsize = ⟨0x200100, 0x20010C, 0x200200, 0x200201⟩ := by decide

theorem stabPage_checked : Checked (stabPage 12) pgsize where
  usd := stabPage_accepts 12 (by decide) (by decide) (by decide) (by decide) (by decide)
  stabs := stabPage_usd ▸ stabPage_accepts 12 (by decide) (by decide) (by decide) (by decide) (by decide)
  stabstr := stabPage_usd ▸ stabPage_accepts 12 (by decide) (by decide) (by decide) (by decide) (by decide)

/-- A table without entries. -/
theorem debuginfo_safe_empty : Safe 0 (lookupTrace (stabPage 0) pgsize ⟨0, 0, 0, 0⟩ 0x800020) := by
  have h := (@debuginfo_safe_iff (stabPage 0) pgsize 0x800020 ⟨0, 0, 0, 0⟩ (by decide)).1
    (.inr (.inr (.inr (by decide))))
  rwa [show (usdAt (stabPage 0) pgsize).count.toInt = 0 by decide] at h

/-- The table has one entry, of which one byte is checked. Its type, 4 bytes further
on, is loaded; and as the file starts after the address, the search for a function
goes on at the index -1. -/
theorem debuginfo_leaves_checked : Checked (stabPage 12) pgsize ∧ (usdAt (stabPage 12) pgsize).count = 1 ∧
    ¬ Safe 1 (lookupTrace (stabPage 12) pgsize ⟨0, 0, 0, 0⟩ 0x800020) ∧
    -1 ∈ (exec (lookup (stabPage 12) pgsize (usdAt (stabPage 12) pgsize) 0x800020
      ⟨.unknown, 0, .unknown, 9, 0x800020, 0⟩) ⟨[], [], []⟩).2.indices := by
  have hearly : ¬ EndsEarly (stabPage 12) pgsize := by
    rintro (h | h | h | h)
    · exact h stabPage_checked
    · exact absurd h (by decide)
    · exact h (by decide)
    · exact absurd h (by decide)
  refine ⟨stabPage_checked, by decide, ?_, by decide +kernel⟩
  refine ((lookupTrace_ok ⟨0, 0, 0, 0⟩ (by decide)).2 hearly).not_safe ⟨by decide, ?_, ?_⟩ (by decide)
  · exact fun h => absurd h.2 (by decide)
  · exact fun h => absurd h.1 (by decide)

end

end Jos.Kdebug
