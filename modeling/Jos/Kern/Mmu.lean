import Mathlib.Data.Nat.Bitwise

/-!
# The address space (`inc/mmu.h`, `inc/memlayout.h`, `inc/types.h`)

Linear addresses, page-table entries and the layout of the upper half.
Words are 32-bit values and wrap; a page is named by its number.
-/

namespace Jos

abbrev Word := BitVec 32

/-! ## Linear addresses -/

def pgsize : Nat := 4096
def npdentries : Nat := 1024
def nptentries : Nat := 1024
def ptsize : Word := 0x400000#32

def pgnum (la : Word) : Nat := (la >>> 12).toNat
def pdx (la : Word) : Nat := ((la >>> 22) &&& 0x3FF#32).toNat
def ptx (la : Word) : Nat := ((la >>> 12) &&& 0x3FF#32).toNat
def pgoff (la : Word) : Nat := (la &&& 0xFFF#32).toNat
def pgaddr (d t : Nat) (o : Word) : Word := BitVec.ofNat 32 d <<< 22 ||| BitVec.ofNat 32 t <<< 12 ||| o

def rounddown (a n : Word) : Word := a - a % n
def roundup (a n : Word) : Word := rounddown (a + n - 1) n

/-! ## The layout of the address space -/

def kernbase : Word := 0xF0000000#32
def kstacktop : Word := kernbase
def kstksize : Word := 8 * 4096
def kstkgap : Word := 8 * 4096
def mmiolim : Word := kstacktop - ptsize
def mmiobase : Word := mmiolim - ptsize
def ulim : Word := mmiobase
def uvpt : Word := ulim - ptsize
def upages : Word := uvpt - ptsize
def uenvs : Word := upages - ptsize
def utop : Word := uenvs
def uxstacktop : Word := utop
def ustacktop : Word := utop - 2 * 4096

/-- `PDX(UTOP)`: the page-directory entries below it are the environment's own. -/
def pdxUtop : Nat := 955

/-! ## Page-table entries -/

def pteP : Word := 0x001#32
def pteW : Word := 0x002#32
def pteU : Word := 0x004#32
def ptePWT : Word := 0x008#32
def ptePCD : Word := 0x010#32
def pteAvail : Word := 0xE00#32
def pteSyscall : Word := pteAvail ||| pteP ||| pteW ||| pteU
def pteAddr (pte : Word) : Word := pte &&& ~~~0xFFF#32

/-- The page a present entry names. -/
def entryPage (w : Word) : Option Nat := if w &&& pteP = pteP then some (pgnum w) else none

/-- Permission bits: the low twelve bits of an entry and nothing else. -/
def IsPerm (perm : Word) : Prop := perm.toNat < 4096

instance (perm : Word) : Decidable (IsPerm perm) := inferInstanceAs (Decidable (perm.toNat < 4096))

def Sub (a b : Word) : Prop := a &&& b = a

instance (a b : Word) : Decidable (Sub a b) := inferInstanceAs (Decidable (a &&& b = a))

/-- Permissions for user mode, within those a system call may ask for. -/
def UserPerm (perm : Word) : Prop := perm &&& pteU = pteU ∧ Sub perm pteSyscall

instance (perm : Word) : Decidable (UserPerm perm) :=
  inferInstanceAs (Decidable (perm &&& pteU = pteU ∧ Sub perm pteSyscall))

/-- If the entry is present, user mode may use it and it sets no bit outside `PTE_SYSCALL`. -/
def UserEntry (w : Word) : Prop := w &&& pteP = pteP → UserPerm (w &&& 0xFFF#32)

/-! ## Error codes (`inc/error.h`) -/

def eBadEnv : Int := 2
def eInval : Int := 3
def eNoMem : Int := 4
def eNoFreeEnv : Int := 5
def eFault : Int := 6
def eIpcNotRecv : Int := 7

/-! ## Indices -/

section
variable (la : Word)
include la

theorem pgnum_eq : pgnum la = la.toNat / 4096 := by
  simp [pgnum, Nat.shiftRight_eq_div_pow]

theorem pdx_eq : pdx la = la.toNat / 4194304 := by
  have h := la.isLt
  simp only [pdx, BitVec.toNat_and, BitVec.toNat_ushiftRight, BitVec.toNat_ofNat]
  rw [Nat.shiftRight_eq_div_pow, show 1023 % 2 ^ 32 = 2 ^ 10 - 1 from rfl, Nat.and_two_pow_sub_one_eq_mod]
  omega

theorem ptx_eq : ptx la = la.toNat / 4096 % 1024 := by
  simp only [ptx, BitVec.toNat_and, BitVec.toNat_ushiftRight, BitVec.toNat_ofNat]
  rw [Nat.shiftRight_eq_div_pow, show 1023 % 2 ^ 32 = 2 ^ 10 - 1 from rfl, Nat.and_two_pow_sub_one_eq_mod]

theorem pgoff_eq : pgoff la = la.toNat % 4096 := by
  simp only [pgoff, BitVec.toNat_and, BitVec.toNat_ofNat]
  rw [show 4095 % 2 ^ 32 = 2 ^ 12 - 1 from rfl, Nat.and_two_pow_sub_one_eq_mod]

theorem pdx_lt : pdx la < 1024 := by
  have h := la.isLt
  rw [pdx_eq]
  omega

theorem ptx_lt : ptx la < 1024 := by
  rw [ptx_eq]
  omega

end

theorem utop_toNat : utop.toNat = 0xEEC00000 := by decide

theorem ulim_toNat : ulim.toNat = 0xEF800000 := by decide

theorem uvpt_toNat : uvpt.toNat = 0xEF400000 := by decide

theorem pdx_lt_of_lt_utop (h : la < utop) : pdx la < pdxUtop := by
  rw [BitVec.lt_def, utop_toNat] at h
  rw [pdx_eq]
  unfold pdxUtop
  omega

theorem lt_utop_of_pdx_lt (h : pdx va < pdxUtop) : va < utop := by
  rw [pdx_eq] at h
  unfold pdxUtop at h
  rw [BitVec.lt_def, show utop.toNat = 0xEEC00000 from rfl]
  omega

section
variable (hd : d < 1024) (ht : t < 1024)
include hd ht

theorem pgaddr_toNat : (pgaddr d t 0).toNat = d * 4194304 + t * 4096 := by
  have h := Nat.two_pow_add_eq_or_of_lt (i := 22) (b := t * 2 ^ 12) (by omega) d
  simp only [pgaddr, BitVec.toNat_or, BitVec.toNat_shiftLeft, BitVec.toNat_ofNat,
    BitVec.ofNat_eq_ofNat, Nat.shiftLeft_eq, Nat.zero_mod, Nat.or_zero]
  rw [Nat.mod_eq_of_lt (a := d) (by omega), Nat.mod_eq_of_lt (a := t) (by omega),
    Nat.mod_eq_of_lt (a := d * 2 ^ 22) (by omega), Nat.mod_eq_of_lt (a := t * 2 ^ 12) (by omega)]
  rw [Nat.mul_comm d]
  omega

theorem pdx_pgaddr : pdx (pgaddr d t 0) = d := by
  rw [pdx_eq, pgaddr_toNat hd ht]
  omega

theorem ptx_pgaddr : ptx (pgaddr d t 0) = t := by
  rw [ptx_eq, pgaddr_toNat hd ht]
  omega

end

/-! ## Entries -/

@[simp] theorem entryPage_zero : entryPage 0#32 = none := by decide

theorem present_iff {w : Word} : w &&& pteP = pteP ↔ w.toNat % 2 = 1 := by
  rw [← BitVec.toNat_inj, BitVec.toNat_and]
  simp only [pteP, BitVec.toNat_ofNat]
  rw [show 1 % 2 ^ 32 = 2 ^ 1 - 1 from rfl, Nat.and_two_pow_sub_one_eq_mod]
  omega

theorem entryPage_eq_some {w : Word} : entryPage w = some p ↔ w &&& pteP = pteP ∧ pgnum w = p := by
  unfold entryPage
  split <;> simp_all

theorem entryPage_eq_none {w : Word} : entryPage w = none ↔ ¬ w &&& pteP = pteP := by
  unfold entryPage
  split <;> simp_all

theorem pgnum_or {w perm : Word} (h : IsPerm perm) : pgnum (w ||| perm) = pgnum w := by
  unfold IsPerm at h
  simp only [pgnum, BitVec.toNat_ushiftRight, BitVec.toNat_or, Nat.shiftRight_or_distrib]
  rw [Nat.shiftRight_eq_zero perm.toNat 12 h, Nat.or_zero]

theorem present_or {w perm : Word} (h : w &&& pteP = pteP) : (w ||| perm) &&& pteP = pteP := by
  rw [present_iff] at h ⊢
  rw [BitVec.toNat_or, Nat.or_mod_two_eq_one]
  exact .inl h

theorem entryPage_or {w perm : Word} (hp : IsPerm perm) (h : entryPage w = some p) :
    entryPage (w ||| perm) = some p := by
  rw [entryPage_eq_some] at h ⊢
  exact ⟨present_or h.1, by rw [pgnum_or hp, h.2]⟩

theorem isPerm_pteP : IsPerm pteP := by decide

theorem mask_getLsbD (i : Nat) : (0xFFF#32).getLsbD i = decide (i < 12) := by
  rw [show (0xFFF#32) = BitVec.ofNat 32 (2 ^ 12 - 1) from rfl, BitVec.getLsbD_ofNat,
    Nat.testBit_two_pow_sub_one]
  by_cases h : i < 12
  · simp only [h, decide_true, Bool.and_true, decide_eq_true_eq]
    omega
  · simp [h]

theorem pteAddr_eq (w : Word) : pteAddr w = (w >>> 12) <<< 12 := by
  apply BitVec.eq_of_getLsbD_eq
  intro i hi
  simp only [pteAddr, BitVec.getLsbD_and, BitVec.getLsbD_not, hi, mask_getLsbD, BitVec.getLsbD_shiftLeft,
    BitVec.getLsbD_ushiftRight]
  by_cases h12 : i < 12
  · simp [h12]
  · rw [show 12 + (i - 12) = i by omega]
    simp [h12]

theorem pteAddr_toNat (w : Word) : (pteAddr w).toNat = pgnum w * 4096 := by
  have h := w.isLt
  rw [pteAddr_eq, BitVec.toNat_shiftLeft, BitVec.toNat_ushiftRight, Nat.shiftLeft_eq, pgnum_eq,
    Nat.shiftRight_eq_div_pow]
  omega

theorem pgnum_pteAddr (w : Word) : pgnum (pteAddr w) = pgnum w := by
  rw [pgnum_eq, pteAddr_toNat]
  omega

/-! ## Permission bits -/

theorem sub_iff {a b : Word} : Sub a b ↔ ∀ i, a.getLsbD i = true → b.getLsbD i = true := by
  unfold Sub
  constructor
  · intro h i hi
    rw [← h, BitVec.getLsbD_and, Bool.and_eq_true] at hi
    exact hi.2
  · intro h
    apply BitVec.eq_of_getLsbD_eq
    intro i _
    rw [BitVec.getLsbD_and]
    cases ha : a.getLsbD i with
    | false => rfl
    | true => simp [h i ha]

theorem Sub.trans {a b c : Word} (h : Sub a b) (h' : Sub b c) : Sub a c := by
  rw [sub_iff] at h h' ⊢
  exact fun i hi => h' i (h i hi)

theorem Sub.or_right {a b : Word} (h : Sub a b) (c : Word) : Sub a (b ||| c) := by
  rw [sub_iff] at h ⊢
  intro i hi
  simp [h i hi]

theorem Sub.or {a b c d : Word} (h : Sub a c) (h' : Sub b d) : Sub (a ||| b) (c ||| d) := by
  rw [sub_iff] at h h' ⊢
  intro i hi
  rw [BitVec.getLsbD_or, Bool.or_eq_true] at hi ⊢
  exact hi.imp (h i) (h' i)

theorem sub_refl (a : Word) : Sub a a := BitVec.and_self

theorem and_or_mask (a b c : Word) : (a ||| b) &&& c = a &&& c ||| b &&& c := by
  apply BitVec.eq_of_getLsbD_eq
  intro i _
  simp [Bool.and_or_distrib_right]

theorem UserPerm.isPerm (h : UserPerm perm) : IsPerm perm := by
  have hs := h.2
  unfold Sub at hs
  unfold IsPerm
  rw [← hs, BitVec.toNat_and]
  exact Nat.lt_of_le_of_lt Nat.and_le_right (by decide)

theorem UserPerm.or_present (h : UserPerm perm) : UserPerm (perm ||| pteP) := by
  refine ⟨?_, ?_⟩
  · rw [and_or_mask, h.1]
    decide
  · have hor := h.2.or (show Sub pteP pteSyscall by decide)
    rwa [show pteSyscall ||| pteSyscall = pteSyscall by decide] at hor

theorem userEntry_zero : UserEntry 0#32 := fun h => absurd h (by decide)

theorem mask_perm {perm : Word} (h : IsPerm perm) : perm &&& 0xFFF#32 = perm := by
  apply BitVec.eq_of_toNat_eq
  rw [BitVec.toNat_and]
  simp only [BitVec.toNat_ofNat]
  rw [show 4095 % 2 ^ 32 = 2 ^ 12 - 1 from rfl, Nat.and_two_pow_sub_one_eq_mod]
  exact Nat.mod_eq_of_lt h

end Jos
