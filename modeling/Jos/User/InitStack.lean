import Jos.User.Spawn

/-!
# The stack page of a new program (`init_stack` of `lib/spawn.c`)

The page is filled at `UTEMP` and mapped into the child at `USTACKTOP - PGSIZE`.
Pointers are 32-bit and wrap. The arguments are given as values: neither `argv`
nor its strings are in the page at `UTEMP`.
-/

namespace Jos.InitStack

open Lib Spawn

/-- A string in memory, without the `NUL` that ends it. -/
structure Arg where
  chars : List (BitVec 8)
  noNul : 0#8 ∉ chars

def Arg.strlen (x : Arg) : Nat := x.chars.length

def Arg.bytes (x : Arg) : List (BitVec 8) := x.chars ++ [0#8]

/-- The caller's memory, whether a page is mapped at `UTEMP`, and the child's
stack page by the child's addresses. -/
structure State where
  mem : Mem
  utempMapped : Bool
  stack : Option Mem
  initEsp : Word

inductive Stop
  | fault
  | assertion

abbrev StackM := M State Stop

/-- The results of the system calls. -/
structure Results where
  pageAlloc : Int
  pageMap : Int
  pageUnmap : Int

def Results.fine : Results := ⟨0, 0, 0⟩

section
variable (writable : Nat → Bool)

/-- The caller may write to `a`; `writable` says so outside of the page at `UTEMP`. -/
def State.CanStore (s : State) (a : Word) : Prop :=
  if a.toNat / 4096 = utemp.toNat / 4096 then s.utempMapped = true else writable a.toNat = true

instance (s : State) (a : Word) : Decidable (s.CanStore writable a) := by
  unfold State.CanStore
  infer_instance

def storeBytes (a : Word) : List (BitVec 8) → StackM Unit
  | [] => return
  | b :: bs => do
    let s ← get
    if s.CanStore writable a then
      set { s with mem := Function.update s.mem a.toNat b }
      storeBytes (a + 1) bs
    else throw .fault

def strcpy (dst : Word) (x : Arg) : StackM Unit := storeBytes writable dst x.bytes

/-- A store to an aligned address. -/
def storeWord (a w : Word) : StackM Unit := do
  let s ← get
  if s.CanStore writable a then set { s with mem := s.mem.write32 a.toNat w }
  else throw .fault

def stackPage : Word := ustacktop - 4096

def utemp2ustack (a : Word) : Word := a + stackPage - utemp

def stringSize (argv : List Arg) : Word := argv.foldl (fun n x => n + BitVec.ofNat 32 (x.strlen + 1)) 0

def argc (argv : List Arg) : Word := BitVec.ofNat 32 argv.length

def stringStore (argv : List Arg) : Word := utemp + 4096 - stringSize argv

def argvStore (argv : List Arg) : Word := rounddown (stringStore argv) 4 - 4 * (argc argv + 1)

/-- The loop over the arguments: `a` is `&argv_store[i]`, `store` is `string_store`. -/
def placeArgs (a store : Word) : List Arg → StackM Word
  | [] => return store
  | x :: xs => do
    storeWord writable a (utemp2ustack store)
    strcpy writable store x
    placeArgs (a + 4) (store + BitVec.ofNat 32 (x.strlen + 1)) xs

def sysPageAlloc (r : Int) : StackM Int := do
  if r < 0 then return r
  else
    modify fun s => { s with mem := s.mem.fill utemp.toNat 4096 0#8, utempMapped := true }
    return 0

/-- The page at `UTEMP` becomes the child's stack page. -/
def sysPageMap (r : Int) : StackM Int := do
  if r < 0 then return r
  else
    modify fun s => { s with stack := some fun x => s.mem (x - stackPage.toNat + utemp.toNat) }
    return 0

def sysPageUnmap (r : Int) : StackM Int := do
  if r < 0 then return r
  else
    modify fun s => { s with utempMapped := false }
    return 0

def fillStack (argv : List Arg) : StackM Unit := do
  let store ← placeArgs writable (argvStore argv) (stringStore argv) argv
  storeWord writable (argvStore argv + 4 * argc argv) 0
  if store ≠ utemp + 4096 then throw .assertion
  else
    storeWord writable (argvStore argv - 4) (utemp2ustack (argvStore argv))
    storeWord writable (argvStore argv - 8) (argc argv)
    modify fun s => { s with initEsp := utemp2ustack (argvStore argv - 8) }

def initStack (res : Results) (argv : List Arg) : StackM Int := do
  if argvStore argv - 8 < utemp then return -eNoMem
  else
    let r ← sysPageAlloc res.pageAlloc
    if r < 0 then return r
    else
      fillStack writable argv
      let r ← sysPageMap res.pageMap
      if r < 0 then
        let _ ← sysPageUnmap res.pageUnmap
        return r
      else
        let r ← sysPageUnmap res.pageUnmap
        if r < 0 then
          let _ ← sysPageUnmap res.pageUnmap
          return r
        else return 0

end

/-! ## What is wanted -/

def size (argv : List Arg) : Nat := (argv.map fun x => x.strlen + 1).sum

/-- The strings, the array with its null pointer and the two words. -/
def need (argv : List Arg) : Nat := size argv + 4 * (argv.length + 1) + 8

/-- The same, with the array aligned. -/
def alignedNeed (argv : List Arg) : Nat := (size argv + 3) / 4 * 4 + 4 * (argv.length + 1) + 8

def InStack (a n : Nat) : Prop := stackPage.toNat ≤ a ∧ a + n ≤ stackPage.toNat + 4096

def pointer (stack : Mem) (a : Nat) : Nat := (stack.read32 a).toNat

/-- The child finds its arguments. -/
structure Finds (argv : List Arg) (stack : Mem) (esp : Word) : Prop where
  words : InStack esp.toNat 8
  argc : stack.read32 esp.toNat = BitVec.ofNat 32 argv.length
  array : InStack (pointer stack (esp.toNat + 4)) (4 * (argv.length + 1))
  last : stack.read32 (pointer stack (esp.toNat + 4) + 4 * argv.length) = 0
  arg : ∀ i (h : i < argv.length), InStack (pointer stack (pointer stack (esp.toNat + 4) + 4 * i)) (argv[i].strlen + 1)
  copy : ∀ i (h : i < argv.length), ∀ j < argv[i].strlen + 1,
    stack (pointer stack (pointer stack (esp.toNat + 4) + 4 * i) + j) = argv[i].bytes.getD j 0

/-- The call refuses, and has written nothing. -/
def Refuses (writable : Nat → Bool) (argv : List Arg) (s : State) : Prop :=
  exec (initStack writable .fine argv) s = (.ok (-eNoMem), s)

/-- The call leaves the child its arguments. -/
def Leaves (writable : Nat → Bool) (argv : List Arg) (s : State) : Prop :=
  ∃ t stack, exec (initStack writable .fine argv) s = (.ok 0, t) ∧ t.stack = some stack ∧ Finds argv stack t.initEsp

/-! ## The addresses -/

theorem utemp_toNat : utemp.toNat = 0x400000 := rfl

theorem stackPage_toNat : stackPage.toNat = 0xEEBFD000 := rfl

theorem size_cons (x : Arg) (xs : List Arg) : size (x :: xs) = x.strlen + 1 + size xs := by simp [size]

theorem foldl_size (argv : List Arg) (n : Word) :
    argv.foldl (fun n x => n + BitVec.ofNat 32 (x.strlen + 1)) n = n + BitVec.ofNat 32 (size argv) := by
  induction argv generalizing n with
  | nil => simp [size]
  | cons x xs ih => rw [List.foldl_cons, ih, size_cons, BitVec.add_assoc, BitVec.ofNat_add _ (size xs)]

theorem stringSize_eq (argv : List Arg) : stringSize argv = BitVec.ofNat 32 (size argv) := by
  exact (foldl_size argv 0).trans (BitVec.zero_add _)

theorem stringStore_toNat (argv : List Arg) :
    (stringStore argv).toNat = (0x401000 + (2 ^ 32 - size argv % 2 ^ 32)) % 2 ^ 32 := by
  rw [stringStore, stringSize_eq, BitVec.toNat_sub, BitVec.toNat_add, utemp_toNat]
  bv_omega

theorem rounddown_four (x : Word) : (rounddown x 4).toNat = x.toNat / 4 * 4 := by
  have hmod : (x % 4).toNat = x.toNat % 4 := BitVec.toNat_umod
  have hx := x.isLt
  rw [rounddown, BitVec.toNat_sub, hmod]
  omega

theorem array_toNat (k : Nat) : (4 * (BitVec.ofNat 32 k + 1) : Word).toNat = 4 * (k + 1) % 2 ^ 32 := by
  have h : (4 * (BitVec.ofNat 32 k + 1) : Word) = BitVec.ofNat 32 (4 * (k + 1)) := by
    rw [BitVec.ofNat_mul, BitVec.ofNat_add]
    rfl
  rw [h, BitVec.toNat_ofNat]

theorem argvStore_toNat (argv : List Arg) : (argvStore argv).toNat =
    (0x401000 + (2 ^ 32 - ((size argv + 3) / 4 * 4 + 4 * (argv.length + 1)) % 2 ^ 32)) % 2 ^ 32 := by
  have hs := stringStore_toNat argv
  unfold argvStore argc
  generalize stringStore argv = x at hs
  generalize size argv = n at hs
  generalize argv.length = k
  rw [BitVec.toNat_sub, rounddown_four, array_toNat, hs]
  omega

theorem argvStore_sub_toNat (argv : List Arg) : (argvStore argv - 8).toNat =
    (0x401000 + (2 ^ 32 - alignedNeed argv % 2 ^ 32)) % 2 ^ 32 := by
  rw [BitVec.toNat_sub, argvStore_toNat, alignedNeed]
  bv_omega

theorem fit_test (argv : List Arg) : argvStore argv - 8 < utemp ↔
    4096 < alignedNeed argv % 2 ^ 32 ∧ alignedNeed argv % 2 ^ 32 ≤ 0x401000 := by
  rw [BitVec.lt_def, argvStore_sub_toNat, utemp_toNat]
  omega

theorem need_le_iff (argv : List Arg) : need argv ≤ 4096 ↔ alignedNeed argv ≤ 4096 := by
  unfold need alignedNeed
  omega

/-! ## Filling the page -/

section
variable {writable : Nat → Bool} {s : State}

theorem canStore (hm : s.utempMapped = true) (h₁ : 0x400000 ≤ a.toNat) (h₂ : a.toNat < 0x401000) :
    s.CanStore writable a := by
  unfold State.CanStore
  rw [if_pos (by rw [utemp_toNat]; omega)]
  exact hm

theorem put_cons (m : Mem) (a : Nat) (b : BitVec 8) (l : List (BitVec 8)) :
    Mem.put (Function.update m a b) (a + 1) l = m.put a (b :: l) := by
  funext x
  unfold Mem.put
  by_cases hx : x = a
  · subst hx
    simp
  · rw [Function.update_of_ne hx]
    by_cases hin : a + 1 ≤ x ∧ x < a + 1 + l.length
    · rw [if_pos hin, if_pos (by rw [List.length_cons]; omega), show x - a = x - (a + 1) + 1 by omega, List.getD_cons_succ]
    · rw [if_neg hin, if_neg (by rw [List.length_cons]; omega)]

theorem exec_storeBytes (hm : s.utempMapped = true) (h₁ : 0x400000 ≤ a.toNat) (h₂ : a.toNat + l.length ≤ 0x401000) :
    exec (storeBytes writable a l) s = (.ok (), { s with mem := s.mem.put a.toNat l }) := by
  induction l generalizing a s with
  | nil =>
    have hput : s.mem.put a.toNat [] = s.mem := funext fun x => Mem.put_of_outside (by simp; omega)
    rw [hput]
    rfl
  | cons b l ih =>
    rw [List.length_cons] at h₂
    have hnext : (a + 1).toNat = a.toNat + 1 := by
      rw [BitVec.toNat_add]
      exact Nat.mod_eq_of_lt (by simp; omega)
    unfold storeBytes
    rw [exec_bind_ok (exec_get s), if_pos (canStore hm h₁ (by omega)), exec_bind_ok (exec_set ..)]
    rw [ih (a := a + 1) (s := { s with mem := Function.update s.mem a.toNat b }) hm (by omega) (by omega), hnext, put_cons]

theorem exec_storeWord (hm : s.utempMapped = true) (h₁ : 0x400000 ≤ a.toNat) (h₂ : a.toNat < 0x401000) :
    exec (storeWord writable a w) s = (.ok (), { s with mem := s.mem.write32 a.toNat w }) := by
  unfold storeWord
  rw [exec_bind_ok (exec_get s), if_pos (canStore hm h₁ h₂), exec_set]

/-- The arguments are in `m`: the array from `a` on, the strings from `st` on. -/
def Holds (m : Mem) : Nat → Nat → List Arg → Prop
  | _, _, [] => True
  | a, st, x :: xs => m.read32 a = utemp2ustack (BitVec.ofNat 32 st) ∧
    (∀ j < x.strlen + 1, m (st + j) = x.bytes.getD j 0) ∧ Holds m (a + 4) (st + (x.strlen + 1)) xs

/-- `m` and `m'` differ in the array and the strings only. -/
def Frame (m m' : Mem) (a st : Nat) (xs : List Arg) : Prop :=
  ∀ y, (y < a ∨ a + 4 * xs.length ≤ y) → (y < st ∨ st + size xs ≤ y) → m' y = m y

theorem Holds.congr {m m' : Mem} (h : Holds m a st xs)
    (heq : ∀ y, (a ≤ y ∧ y < a + 4 * xs.length) ∨ (st ≤ y ∧ y < st + size xs) → m' y = m y) : Holds m' a st xs := by
  induction xs generalizing a st with
  | nil => trivial
  | cons x xs ih =>
    obtain ⟨hword, hbytes, hrest⟩ := h
    rw [List.length_cons, size_cons] at heq
    refine ⟨?_, fun j hj => ?_, ih hrest fun y hy => heq y ?_⟩
    · rw [← hword]
      exact Mem.read32_congr fun y h₁ h₂ => heq y (.inl ⟨h₁, by omega⟩)
    · rw [← hbytes j hj]
      exact heq _ (.inr ⟨by omega, by omega⟩)
    · omega

theorem exec_placeArgs {a st : Word} (hm : s.utempMapped = true) (ha : 0x400000 ≤ a.toNat)
    (hgap : a.toNat + 4 * xs.length ≤ st.toNat) (hend : st.toNat + size xs ≤ 0x401000) :
    ∃ r m, exec (placeArgs writable a st xs) s = (.ok r, { s with mem := m }) ∧ r.toNat = st.toNat + size xs ∧
      Holds m a.toNat st.toNat xs ∧ Frame s.mem m a.toNat st.toNat xs := by
  induction xs generalizing a st s with
  | nil => exact ⟨st, s.mem, rfl, rfl, trivial, fun _ _ _ => rfl⟩
  | cons x xs ih =>
    rw [List.length_cons] at hgap
    rw [size_cons] at hend
    have hlen : x.bytes.length = x.strlen + 1 := by simp [Arg.bytes, Arg.strlen]
    have hnext : (a + 4).toNat = a.toNat + 4 := by
      rw [BitVec.toNat_add]
      exact Nat.mod_eq_of_lt (by simp; omega)
    have hstore : (st + BitVec.ofNat 32 (x.strlen + 1)).toNat = st.toNat + (x.strlen + 1) := by
      bv_omega
    generalize hm₁ : (s.mem.write32 a.toNat (utemp2ustack st)).put st.toNat x.bytes = m₁
    obtain ⟨r, m, hexec, hr, hholds, hframe⟩ := @ih { s with mem := m₁ } (a + 4) (st + BitVec.ofNat 32 (x.strlen + 1)) hm
      (by omega) (by omega) (by omega)
    rw [hnext, hstore] at hholds hframe
    dsimp only at hframe
    refine ⟨r, m, ?_, by rw [hr, hstore, size_cons]; omega, ⟨?_, fun j hj => ?_, hholds⟩, fun y h₁ h₂ => ?_⟩
    · unfold placeArgs
      rw [exec_bind_ok (exec_storeWord hm ha (by omega))]
      have hcpy : exec (strcpy writable st x) { s with mem := s.mem.write32 a.toNat (utemp2ustack st) } =
          (.ok (), { s with mem := m₁ }) := by
        rw [← hm₁]
        exact exec_storeBytes hm (by omega) (by omega)
      rw [exec_bind_ok hcpy]
      exact hexec
    · have hsame : m.read32 a.toNat = m₁.read32 a.toNat :=
        Mem.read32_congr fun y h₁ h₂ => hframe y (.inl (by omega)) (.inl (by omega))
      rw [hsame, ← hm₁, Mem.read32_put_of_disjoint _ (.inr (by omega)), Mem.read32_write32_self, BitVec.ofNat_toNat,
        BitVec.setWidth_eq]
    · rw [hframe _ (.inr (by omega)) (.inl (by omega)), ← hm₁]
      exact Mem.put_of_inside (by omega)
    · rw [List.length_cons] at h₁
      rw [size_cons] at h₂
      rw [hframe y (by omega) (by omega), ← hm₁, Mem.put_of_outside (by omega), Mem.write32_of_outside (by omega)]

/-- The page as it should be: `a` is the address of the array. -/
structure Filled (m : Mem) (a : Nat) (argv : List Arg) : Prop where
  holds : Holds m a (0x401000 - size argv) argv
  last : m.read32 (a + 4 * argv.length) = 0
  array : m.read32 (a - 4) = utemp2ustack (BitVec.ofNat 32 a)
  argc : m.read32 (a - 8) = BitVec.ofNat 32 argv.length

theorem exec_fillStack (hm : s.utempMapped = true) (hfit : alignedNeed argv ≤ 4096) :
    ∃ m, exec (fillStack writable argv) s =
        (.ok (), { s with mem := m, initEsp := utemp2ustack (argvStore argv - 8) }) ∧
      Filled m (argvStore argv).toNat argv := by
  have hfit' := hfit
  unfold alignedNeed at hfit'
  have hst : (stringStore argv).toNat = 0x401000 - size argv := by
    rw [stringStore_toNat]
    omega
  have ha : (argvStore argv).toNat = 0x401000 - ((size argv + 3) / 4 * 4 + 4 * (argv.length + 1)) := by
    rw [argvStore_toNat]
    omega
  have hlast : (argvStore argv + 4 * argc argv).toNat = (argvStore argv).toNat + 4 * argv.length := by
    rw [BitVec.toNat_add, BitVec.toNat_mul, argc, BitVec.toNat_ofNat]
    bv_omega
  have hsub : ∀ k ≤ 8, (argvStore argv - BitVec.ofNat 32 k).toNat = (argvStore argv).toNat - k := by
    intro k hk
    bv_omega
  have h4 : (argvStore argv - 4).toNat = (argvStore argv).toNat - 4 := hsub 4 (by decide)
  have h8 : (argvStore argv - 8).toNat = (argvStore argv).toNat - 8 := hsub 8 (by decide)
  obtain ⟨r, m, hexec, hr, hholds, -⟩ := @exec_placeArgs writable s argv (argvStore argv)
    (stringStore argv) hm (by omega) (by omega) (by omega)
  rw [hst] at hr hholds
  have hrend : r = utemp + 4096 := by
    apply BitVec.eq_of_toNat_eq
    rw [hr]
    change _ = 0x401000
    omega
  have hword : BitVec.ofNat 32 (argvStore argv).toNat = argvStore argv := by rw [BitVec.ofNat_toNat, BitVec.setWidth_eq]
  generalize (argvStore argv).toNat = a at *
  have hstore : ∀ {u : Mem} {x w : Word}, 0x400000 ≤ x.toNat → x.toNat < 0x401000 →
      exec (storeWord writable x w) { s with mem := u } = (.ok (), { s with mem := u.write32 x.toNat w }) :=
    fun h₁ h₂ => exec_storeWord hm h₁ h₂
  refine ⟨((m.write32 (a + 4 * argv.length) 0).write32 (a - 4) (utemp2ustack (argvStore argv))).write32 (a - 8)
    (argc argv), ?_, hholds.congr fun y hy => ?_, ?_, ?_, ?_⟩
  · unfold fillStack
    rw [exec_bind_ok hexec, exec_bind_ok (hstore (by omega) (by omega)), if_neg (not_not_intro hrend),
      exec_bind_ok (hstore (by omega) (by omega)), exec_bind_ok (hstore (by omega) (by omega)), exec_modify, hlast, h4, h8]
  · rw [Mem.write32_of_outside (by omega), Mem.write32_of_outside (by omega), Mem.write32_of_outside (by omega)]
  · rw [Mem.read32_write32_of_disjoint _ (by omega), Mem.read32_write32_of_disjoint _ (by omega), Mem.read32_write32_self]
  · rw [Mem.read32_write32_of_disjoint _ (by omega), Mem.read32_write32_self, hword]
  · rw [Mem.read32_write32_self, argc]

theorem Holds.get {m : Mem} (h : Holds m a st xs) (i : Nat) (hi : i < xs.length) :
    ∃ p, m.read32 (a + 4 * i) = utemp2ustack (BitVec.ofNat 32 p) ∧ st ≤ p ∧ p + (xs[i].strlen + 1) ≤ st + size xs ∧
      ∀ j < xs[i].strlen + 1, m (p + j) = xs[i].bytes.getD j 0 := by
  induction xs generalizing a st i with
  | nil => cases hi
  | cons x xs ih =>
    obtain ⟨hword, hbytes, hrest⟩ := h
    rw [size_cons]
    cases i with
    | zero => exact ⟨st, hword, Nat.le_refl _, by rw [List.getElem_cons_zero]; omega, hbytes⟩
    | succ i =>
      obtain ⟨p, hp, h₁, h₂, hcopy⟩ := ih hrest i (Nat.lt_of_succ_lt_succ hi)
      rw [List.getElem_cons_succ]
      exact ⟨p, by rw [← hp]; congr 1; omega, by omega, by omega, hcopy⟩

end

/-! ## Arguments that wrap around -/

section
variable {writable : Nat → Bool} {s : State}

theorem canStore_congr {t : State} (h : t.utempMapped = s.utempMapped) : t.CanStore writable a ↔ s.CanStore writable a := by
  unfold State.CanStore
  rw [h]

theorem storeBytes_stored : Triple (storeBytes writable a l) s
    (fun _ t => t.utempMapped = s.utempMapped ∧ ∀ j < l.length, s.CanStore writable (a + BitVec.ofNat 32 j))
    (fun _ _ => True) := by
  induction l generalizing a s with
  | nil => exact .pure ⟨rfl, fun j hj => absurd hj (Nat.not_lt_zero j)⟩
  | cons b l ih =>
    refine .get_bind ?_
    refine .ite (fun hcan => ?_) fun _ => .throw trivial
    refine .bind (.set (Q := fun _ t => t.utempMapped = s.utempMapped) rfl) fun _ u hu => ?_
    refine ih.imp (fun _ t ht => ⟨ht.1.trans hu, fun j hj => ?_⟩)
    cases j with
    | zero => exact (BitVec.add_zero a).symm ▸ hcan
    | succ j =>
      rw [Nat.add_comm, BitVec.ofNat_add, ← BitVec.add_assoc]
      exact (canStore_congr hu).mp (ht.2 j (Nat.lt_of_succ_lt_succ hj))

theorem storeWord_stored : Triple (storeWord writable a w) s
    (fun _ t => t.utempMapped = s.utempMapped ∧ s.CanStore writable a) (fun _ _ => True) := by
  refine .get_bind ?_
  exact .ite (fun hcan => .set ⟨rfl, hcan⟩) fun _ => .throw trivial

theorem placeArgs_stored : Triple (placeArgs writable a st xs) s
    (fun _ t => t.utempMapped = s.utempMapped ∧ (∀ i < xs.length, s.CanStore writable (a + BitVec.ofNat 32 (4 * i))) ∧
      ∀ j < size xs, s.CanStore writable (st + BitVec.ofNat 32 j)) (fun _ _ => True) := by
  induction xs generalizing a st s with
  | nil => exact .pure ⟨rfl, fun i hi => absurd hi (Nat.not_lt_zero i), fun j hj => absurd hj (Nat.not_lt_zero j)⟩
  | cons x xs ih =>
    refine .bind storeWord_stored fun _ t ht => .bind storeBytes_stored fun _ u hu => ?_
    have hus : u.utempMapped = s.utempMapped := hu.1.trans ht.1
    refine ih.imp (fun _ v hv => ⟨hv.1.trans hus, fun i hi => ?_, fun j hj => ?_⟩)
    · cases i with
      | zero => exact (BitVec.add_zero a).symm ▸ ht.2
      | succ i =>
        rw [Nat.mul_add, Nat.add_comm, BitVec.ofNat_add, ← BitVec.add_assoc]
        exact (canStore_congr hus).mp (hv.2.1 i (Nat.lt_of_succ_lt_succ hi))
    · have hlen : x.bytes.length = x.strlen + 1 := by simp [Arg.bytes, Arg.strlen]
      rw [size_cons] at hj
      by_cases hin : j < x.strlen + 1
      · exact (canStore_congr ht.1).mp (hu.2 j (hlen ▸ hin))
      · have h := (canStore_congr hus).mp (hv.2.2 (j - (x.strlen + 1)) (by omega))
        rwa [BitVec.add_assoc, ← BitVec.ofNat_add, Nat.add_sub_cancel' (by omega)] at h

/-- Arguments that do not fit but pass the test reach up to the end of the address space. -/
theorem fillStack_stops (hw : ∀ a, 0xFFFFF000 ≤ a → writable a = false) (hbig : 0x401000 < alignedNeed argv) :
    Triple (fillStack writable argv) s (fun _ _ => False) (fun _ _ => True) := by
  have htop : ∀ {t : State} {a : Word}, 0xFFFFF000 ≤ a.toNat → ¬ t.CanStore writable a := by
    intro t a ha
    unfold State.CanStore
    rw [if_neg (by rw [utemp_toNat]; omega), hw _ ha]
    decide
  have hst := stringStore_toNat argv
  have ha := argvStore_toNat argv
  unfold alignedNeed at hbig
  unfold fillStack
  refine .bind placeArgs_stored fun _ t ht => .bind storeWord_stored fun _ u hu => .ite (fun _ => .throw trivial) fun _ => ?_
  refine .bind storeWord_stored fun _ v hv => .bind storeWord_stored fun _ x hx => ?_
  refine absurd hbig ?_
  -- One of the stores goes to the last word of the address space.
  by_cases hsize : 0x401000 < size argv
  · refine absurd (ht.2.2 (size argv - 0x401001) (by omega)) (htop ?_)
    rw [BitVec.toNat_add, hst, BitVec.toNat_ofNat]
    omega
  obtain ⟨T, hT⟩ : ∃ T, 0x401000 - (size argv + 3) / 4 * 4 = 4 * T := ⟨_, (Nat.mul_div_cancel' (by omega)).symm⟩
  rcases Nat.lt_or_ge argv.length T with hlt | hge
  · rcases Nat.lt_or_ge (argv.length + 1) T with hlt' | hge'
    · refine absurd hx.2 (htop ?_)
      rw [BitVec.toNat_sub, ha]
      bv_omega
    · refine absurd hv.2 (htop ?_)
      rw [BitVec.toNat_sub, ha]
      bv_omega
  · have hword : (argvStore argv + BitVec.ofNat 32 (4 * (argv.length - T))).toNat = 0xFFFFFFFC := by
      rw [BitVec.toNat_add, ha, BitVec.toNat_ofNat]
      omega
    cases T with
    | zero =>
      refine absurd hu.2 (htop ?_)
      rw [Nat.sub_zero, BitVec.ofNat_mul] at hword
      exact hword ▸ (by decide)
    | succ T => exact absurd (ht.2.1 (argv.length - (T + 1)) (by omega)) (htop (hword ▸ (by decide)))

end

/-! ## The page in the child -/

/-- The page at `UTEMP` by the child's addresses. -/
def childView (m : Mem) : Mem := fun x => m (x - stackPage.toNat + utemp.toNat)

/-- The child's address of the byte at `y`. -/
def lifted (y : Nat) : Nat := y - 0x400000 + 0xEEBFD000

theorem childView_lifted (m : Mem) (h : 0x400000 ≤ y) : childView m (lifted y + j) = m (y + j) := by
  unfold childView lifted
  rw [stackPage_toNat, utemp_toNat]
  exact congrArg m (by omega)

theorem read32_lifted (m : Mem) (h : 0x400000 ≤ y) (k : Nat) : (childView m).read32 (lifted y + k) = m.read32 (y + k) := by
  unfold Mem.read32
  simp only [Nat.add_assoc, childView_lifted m h]

theorem utemp2ustack_toNat (h₁ : 0x400000 ≤ y) (h₂ : y ≤ 0x401000) :
    (utemp2ustack (BitVec.ofNat 32 y)).toNat = lifted y := by
  unfold utemp2ustack lifted
  rw [BitVec.toNat_sub, BitVec.toNat_add, stackPage_toNat, utemp_toNat, BitVec.toNat_ofNat]
  omega

theorem Filled.finds {m : Mem} (h : Filled m a argv) (hfit : alignedNeed argv ≤ 4096)
    (ha : a = 0x401000 - ((size argv + 3) / 4 * 4 + 4 * (argv.length + 1))) (hesp : esp.toNat = lifted (a - 8)) :
    Finds argv (childView m) esp := by
  unfold alignedNeed at hfit
  have hpointer : pointer (childView m) (esp.toNat + 4) = lifted a := by
    rw [pointer, hesp, read32_lifted m (by omega), show a - 8 + 4 = a - 4 by omega, h.array,
      utemp2ustack_toNat (by omega) (by omega)]
  have hstack : ∀ y n, 0x400000 ≤ y → y + n ≤ 0x401000 → InStack (lifted y) n := by
    intro y n h₁ h₂
    unfold InStack lifted
    rw [stackPage_toNat]
    omega
  have harg : ∀ i (hi : i < argv.length), ∃ p, pointer (childView m) (lifted a + 4 * i) = lifted p ∧ 0x400000 ≤ p ∧
      p + (argv[i].strlen + 1) ≤ 0x401000 ∧ ∀ j < argv[i].strlen + 1, m (p + j) = argv[i].bytes.getD j 0 := by
    intro i hi
    obtain ⟨p, hp, h₁, h₂, hcopy⟩ := h.holds.get i hi
    refine ⟨p, ?_, by omega, by omega, hcopy⟩
    rw [pointer, read32_lifted m (by omega), hp, utemp2ustack_toNat (by omega) (by omega)]
  refine ⟨hesp ▸ hstack _ _ (by omega) (by omega), ?_, ?_, ?_, fun i hi => ?_, fun i hi j hj => ?_⟩
  · have := read32_lifted m (y := a - 8) (by omega) 0
    rw [Nat.add_zero, Nat.add_zero] at this
    rw [hesp, this, h.argc]
  · rw [hpointer]
    exact hstack _ _ (by omega) (by omega)
  · rw [hpointer, read32_lifted m (by omega), h.last]
  · obtain ⟨p, hp, h₁, h₂, -⟩ := harg i hi
    rw [hpointer, hp]
    exact hstack _ _ h₁ h₂
  · obtain ⟨p, hp, h₁, h₂, hcopy⟩ := harg i hi
    rw [hpointer, hp, childView_lifted m h₁, hcopy j hj]

/-! ## The whole call -/

section
variable {writable : Nat → Bool} {s : State} {argv : List Arg}

theorem refuses (h : argvStore argv - 8 < utemp) : Refuses writable argv s := by
  unfold Refuses initStack
  rw [if_pos h, exec_pure]

theorem leaves (hfit : alignedNeed argv ≤ 4096) : Leaves writable argv s := by
  have htest : ¬ argvStore argv - 8 < utemp := by
    rw [fit_test]
    omega
  generalize hu : ({ s with mem := s.mem.fill utemp.toNat 4096 0#8, utempMapped := true } : State) = u
  have hmap : u.utempMapped = true := by rw [← hu]
  obtain ⟨m, hfill, hfilled⟩ := @exec_fillStack writable u argv hmap hfit
  have halloc : exec (sysPageAlloc Results.fine.pageAlloc) s = (.ok 0, u) := by
    rw [← hu]
    rfl
  refine ⟨{ u with
    mem := m
    initEsp := utemp2ustack (argvStore argv - 8)
    stack := some (childView m)
    utempMapped := false }, childView m, ?_, rfl, ?_⟩
  · unfold initStack
    rw [if_neg htest, exec_bind_ok halloc, if_neg (by decide), exec_bind_ok hfill]
    rfl
  · have ha := argvStore_toNat argv
    have ha8 := argvStore_sub_toNat argv
    unfold alignedNeed at hfit ha8
    refine hfilled.finds hfit (by omega) ?_
    have hesp : BitVec.ofNat 32 ((argvStore argv).toNat - 8) = argvStore argv - 8 := by
      apply BitVec.eq_of_toNat_eq
      rw [ha8, BitVec.toNat_ofNat]
      omega
    rw [← utemp2ustack_toNat (by omega) (by omega), hesp]

theorem not_refuses (h : ¬ argvStore argv - 8 < utemp) : ¬ Refuses writable argv s := by
  have hret : Triple (initStack writable .fine argv) s (fun r _ => r = 0) fun _ _ => True := by
    unfold initStack
    rw [if_neg h]
    refine .bind (.of_ok (a := 0) rfl (Q := fun r _ => r = 0) rfl) ?_
    rintro _ u rfl
    rw [if_neg (by decide)]
    refine .bind .trivial fun _ v _ => .bind (.of_ok (a := 0) rfl (Q := fun r _ => r = 0) rfl) ?_
    rintro _ v rfl
    rw [if_neg (by decide)]
    refine .bind (.of_ok (a := 0) rfl (Q := fun r _ => r = 0) rfl) ?_
    rintro _ v rfl
    rw [if_neg (by decide)]
    exact .pure rfl
  intro href
  exact absurd (hret.ok href) (by decide)

/-- The arguments fit and the calls succeed. -/
structure Succeeds (res : Results) (argv : List Arg) : Prop where
  fits : need argv ≤ 4096
  pageAlloc : 0 ≤ res.pageAlloc
  pageMap : 0 ≤ res.pageMap
  pageUnmap : 0 ≤ res.pageUnmap

/-- The arguments fail the test, or a call fails that is made. -/
def Fails (res : Results) (argv : List Arg) : Prop :=
  (4096 < alignedNeed argv % 2 ^ 32 ∧ alignedNeed argv % 2 ^ 32 ≤ 0x401000) ∨ res.pageAlloc < 0 ∨
    (need argv ≤ 4096 ∧ (res.pageMap < 0 ∨ res.pageUnmap < 0))

theorem Succeeds.not_fails (h : Succeeds res argv) : ¬ Fails res argv := by
  have hfit := (need_le_iff argv).mp h.fits
  have := h.pageAlloc
  have := h.pageMap
  have := h.pageUnmap
  unfold Fails
  omega

theorem call_rule (f : State → State) : Triple (do if r < 0 then return r else modify f; return 0 : StackM Int) s
    (fun x t => (x < 0 ∧ r < 0) ∨ (x = 0 ∧ 0 ≤ r ∧ t = f s)) E := by
  refine .ite (fun h => .pure (.inl ⟨h, h⟩)) fun h => ?_
  exact .of_ok rfl (.inr ⟨rfl, by omega, rfl⟩)

theorem initStack_spec (hw : ∀ a, 0xFFFFF000 ≤ a → writable a = false) : Triple (initStack writable res argv) s
    (fun r t => (r < 0 ∧ Fails res argv) ∨ (r = 0 ∧ Succeeds res argv ∧ t.utempMapped = false))
    (fun _ _ => ¬ need argv ≤ 4096 ∧ ¬ Fails res argv) := by
  unfold initStack
  refine .ite (fun htest => .pure (.inl ⟨by decide, .inl ((fit_test argv).mp htest)⟩)) fun htest => ?_
  rw [fit_test] at htest
  refine .bind (call_rule _) ?_
  rintro r t (⟨hr, halloc⟩ | ⟨rfl, halloc, rfl⟩)
  · rw [if_pos hr]
    exact .pure (.inl ⟨hr, .inr (.inl halloc)⟩)
  rw [if_neg (by decide)]
  by_cases hfit : need argv ≤ 4096
  · obtain ⟨m, hfill, -⟩ := exec_fillStack (s := { s with mem := s.mem.fill utemp.toNat 4096 0#8, utempMapped := true }) rfl
      ((need_le_iff argv).mp hfit)
    refine .bind (.of_ok hfill (Q := fun _ _ => True) trivial) fun _ t _ => .bind (call_rule _) ?_
    rintro r t (⟨hr, hmap⟩ | ⟨rfl, hmap, -⟩)
    · rw [if_pos hr]
      exact .bind (call_rule _) fun _ _ _ => .pure (.inl ⟨hr, .inr (.inr ⟨hfit, .inl hmap⟩)⟩)
    · rw [if_neg (by decide)]
      refine .bind (call_rule _) ?_
      rintro r t (⟨hr, hunmap⟩ | ⟨rfl, hunmap, rfl⟩)
      · rw [if_pos hr]
        exact .bind (call_rule _) fun _ _ _ => .pure (.inl ⟨hr, .inr (.inr ⟨hfit, .inr hunmap⟩)⟩)
      · exact .pure (.inr ⟨rfl, ⟨hfit, halloc, hmap, hunmap⟩, rfl⟩)
  · have hbig : 0x401000 < alignedNeed argv := by
      have := need_le_iff argv
      omega
    refine .bind ((fillStack_stops hw hbig).imp_error fun _ _ _ => ⟨hfit, ?_⟩) fun _ _ h => h.elim
    rintro (h | h | h)
    · exact htest h
    · omega
    · exact hfit h.1

/-- The arguments reach the child, or are refused when they do not fit, if and only
if they fit or what they need is in 32 bits at most `UTEMP + PGSIZE`. -/
theorem arguments_survive_iff : ((Refuses writable argv s ∨ Leaves writable argv s) ∧
      (4096 < need argv → Refuses writable argv s)) ↔
    need argv ≤ 4096 ∨ (4096 < alignedNeed argv % 2 ^ 32 ∧ alignedNeed argv % 2 ^ 32 ≤ 0x401000) := by
  rw [need_le_iff, ← fit_test]
  constructor
  · rintro ⟨-, h⟩
    by_contra hno
    rw [not_or] at hno
    exact not_refuses hno.2 (h (by have := need_le_iff argv; omega))
  · rintro (hfit | htest)
    · exact ⟨.inr (leaves hfit), fun hlt => by have := need_le_iff argv; omega⟩
    · exact ⟨.inl (refuses htest), fun _ => refuses htest⟩

def longArg : Arg := ⟨.replicate 0x401000 65#8, fun h => absurd (List.eq_of_mem_replicate h) (by decide)⟩

theorem size_longArg : size [longArg] = 0x401001 := by
  simp only [size, List.map_cons, List.map_nil, List.sum_cons, List.sum_nil, Arg.strlen, longArg, List.length_replicate,
    Nat.reduceAdd]

/-- The strings would start below address 0, so the test lets them pass. -/
theorem long_argument_not_refused :
    4096 < need [longArg] ∧ ¬ Refuses (fun _ => true) [longArg] ⟨fun _ => 0, false, none, 0⟩ := by
  refine ⟨?_, not_refuses ?_⟩
  · rw [need, size_longArg]
    decide
  · rw [fit_test, alignedNeed, size_longArg]
    decide

end

end Jos.InitStack
