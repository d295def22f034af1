import Mathlib.Logic.Function.Basic

/-!
# Byte memory with little-endian words

One flat array of bytes, addressed by natural numbers. A store to a range
leaves every word outside the range as it was.
-/

namespace Lib

abbrev Mem := Nat → BitVec 8

namespace Mem

def read32 (m : Mem) (a : Nat) : BitVec 32 := m (a + 3) ++ m (a + 2) ++ m (a + 1) ++ m a

def write32 (m : Mem) (a : Nat) (w : BitVec 32) : Mem := fun x =>
  if a ≤ x ∧ x < a + 4 then w.extractLsb' (8 * (x - a)) 8 else m x

def fill (m : Mem) (a n : Nat) (b : BitVec 8) : Mem := fun x =>
  if a ≤ x ∧ x < a + n then b else m x

def move (m : Mem) (dst src n : Nat) : Mem := fun x =>
  if dst ≤ x ∧ x < dst + n then m (src + (x - dst)) else m x

def put (m : Mem) (a : Nat) (l : List (BitVec 8)) : Mem := fun x =>
  if a ≤ x ∧ x < a + l.length then l.getD (x - a) 0 else m x

theorem read32_congr {m m' : Mem} (h : ∀ x, a ≤ x → x < a + 4 → m' x = m x) :
    m'.read32 a = m.read32 a := by
  unfold read32
  rw [h (a + 3) (by omega) (by omega), h (a + 2) (by omega) (by omega),
    h (a + 1) (by omega) (by omega), h a (by omega) (by omega)]

section
variable {m : Mem}

theorem write32_of_outside (h : x < a ∨ a + 4 ≤ x) : m.write32 a w x = m x :=
  if_neg (by omega)

theorem fill_of_outside (h : x < a ∨ a + n ≤ x) : m.fill a n b x = m x :=
  if_neg (by omega)

theorem fill_of_inside (h : a ≤ x) (h' : x < a + n) : m.fill a n b x = b :=
  if_pos ⟨h, h'⟩

theorem move_of_outside (h : x < dst ∨ dst + n ≤ x) : m.move dst src n x = m x :=
  if_neg (by omega)

theorem put_of_outside (h : x < a ∨ a + l.length ≤ x) : m.put a l x = m x :=
  if_neg (by omega)

theorem put_of_inside (h : i < l.length) : m.put a l (a + i) = l.getD i 0 := by
  unfold put
  rw [if_pos (by omega), Nat.add_sub_cancel_left]

end

theorem word_of_bytes (w : BitVec 32) :
    w.extractLsb' 24 8 ++ w.extractLsb' 16 8 ++ w.extractLsb' 8 8 ++ w.extractLsb' 0 8 = w := by
  ext i hi
  simp only [BitVec.getElem_append, BitVec.getElem_extractLsb']
  rw [← BitVec.getLsbD_eq_getElem hi]
  repeat' split
  all_goals congr 1; omega

theorem extract_read32 (m : Mem) (a : Nat) (hk : k < 4) : (m.read32 a).extractLsb' (8 * k) 8 = m (a + k) := by
  apply BitVec.eq_of_getLsbD_eq
  intro i hi
  rw [BitVec.getLsbD_extractLsb', read32]
  simp only [BitVec.getLsbD_append, hi, decide_true, Bool.true_and]
  have hk' : k = 0 ∨ k = 1 ∨ k = 2 ∨ k = 3 := by omega
  rcases hk' with rfl | rfl | rfl | rfl
  · simp [hi]
  · rw [if_neg (by omega), if_pos (by omega)]
    congr 1
    omega
  · rw [if_neg (by omega), if_neg (by omega), if_pos (by omega)]
    congr 1
    omega
  · rw [if_neg (by omega), if_neg (by omega), if_neg (by omega)]
    congr 1
    omega

theorem byte_of_read32_zero {m : Mem} (h : m.read32 (a + 4 * (j / 4)) = 0#32) : m (a + j) = 0#8 := by
  have hb := m.extract_read32 (a + 4 * (j / 4)) (k := j % 4) (by omega)
  rw [h, show a + 4 * (j / 4) + j % 4 = a + j by omega] at hb
  rw [← hb]
  simp

@[simp] theorem read32_write32_self (m : Mem) (a : Nat) (w : BitVec 32) :
    (m.write32 a w).read32 a = w := by
  unfold read32 write32
  rw [if_pos (by omega), if_pos (by omega), if_pos (by omega), if_pos (by omega)]
  simp only [Nat.add_sub_cancel_left, Nat.sub_self]
  exact word_of_bytes w

theorem write32_write32_self (m : Mem) (a : Nat) (v w : BitVec 32) :
    (m.write32 a v).write32 a w = m.write32 a w := by
  funext x
  unfold write32
  split <;> rfl

theorem read32_write32_of_disjoint (m : Mem) (h : a + 4 ≤ b ∨ b + 4 ≤ a) :
    (m.write32 a w).read32 b = m.read32 b :=
  read32_congr fun _ _ _ => write32_of_outside (by omega)

theorem read32_write32_index (m : Mem) (p i j : Nat) (w : BitVec 32) :
    (m.write32 (p + 4 * i) w).read32 (p + 4 * j) = if i = j then w else m.read32 (p + 4 * j) := by
  split
  · subst_vars
    exact read32_write32_self ..
  · exact read32_write32_of_disjoint m (by omega)

theorem read32_fill_of_disjoint (m : Mem) (h : a + n ≤ b ∨ b + 4 ≤ a) :
    (m.fill a n c).read32 b = m.read32 b :=
  read32_congr fun _ _ _ => fill_of_outside (by omega)

theorem read32_put_of_disjoint (m : Mem) (h : a + l.length ≤ b ∨ b + 4 ≤ a) :
    (m.put a l).read32 b = m.read32 b :=
  read32_congr fun _ _ _ => put_of_outside (by omega)

theorem read32_eq_zero {m : Mem} (h : ∀ x, a ≤ x → x < a + 4 → m x = 0#8) : m.read32 a = 0#32 := by
  unfold read32
  rw [h (a + 3) (by omega) (by omega), h (a + 2) (by omega) (by omega), h (a + 1) (by omega) (by omega),
    h a (by omega) (by omega)]
  decide

theorem read32_fill_zero (m : Mem) (h : a ≤ b) (h' : b + 4 ≤ a + n) :
    (m.fill a n 0#8).read32 b = 0#32 :=
  read32_eq_zero fun _ _ _ => fill_of_inside (by omega) (by omega)

def writeWords (m : Mem) (a : Nat) (w : Nat → BitVec 32) (l : List Nat) : Mem :=
  l.foldl (fun m i => m.write32 (a + 4 * i) (w i)) m

theorem read32_writeWords (m : Mem) (a : Nat) (w : Nat → BitVec 32) (l : List Nat) (j : Nat) :
    (m.writeWords a w l).read32 (a + 4 * j) = if j ∈ l then w j else m.read32 (a + 4 * j) := by
  induction l generalizing m with
  | nil => rfl
  | cons i l ih =>
    refine (ih _).trans ?_
    rw [read32_write32_index]
    by_cases hj : j ∈ l
    · simp [hj]
    · by_cases hij : i = j
      · simp [hij]
      · simp [hj, hij, Ne.symm hij]

theorem writeWords_of_outside {m : Mem} (h : ∀ i ∈ l, x < a + 4 * i ∨ a + 4 * i + 4 ≤ x) :
    m.writeWords a w l x = m x := by
  induction l generalizing m with
  | nil => rfl
  | cons i l ih =>
    refine (ih fun j hj => h j (by simp [hj])).trans ?_
    exact write32_of_outside (h i (by simp))

/-! ## Aligned words -/

/-- The memory as an array of aligned words. -/
def words (m : Mem) (i : Nat) : BitVec 32 := m.read32 (4 * i)

theorem read32_four_mul (m : Mem) (i : Nat) : m.read32 (4 * i) = m.words i := rfl

@[simp] theorem words_write32 (m : Mem) (i : Nat) (w : BitVec 32) :
    (m.write32 (4 * i) w).words = Function.update m.words i w := by
  funext j
  by_cases h : j = i
  · subst h
    simp [words]
  · rw [Function.update_of_ne h]
    exact read32_write32_of_disjoint m (by omega)

/-- The memory with the given aligned words. -/
def ofWords (w : Nat → BitVec 32) : Mem := fun x => (w (x / 4)).extractLsb' (8 * (x % 4)) 8

@[simp] theorem words_ofWords (w : Nat → BitVec 32) : (ofWords w).words = w := by
  funext i
  unfold words read32 ofWords
  rw [show (4 * i + 3) / 4 = i by omega, show (4 * i + 2) / 4 = i by omega, show (4 * i + 1) / 4 = i by omega,
    show 4 * i / 4 = i by omega, show (4 * i + 3) % 4 = 3 by omega, show (4 * i + 2) % 4 = 2 by omega,
    show (4 * i + 1) % 4 = 1 by omega, show 4 * i % 4 = 0 by omega]
  exact word_of_bytes (w i)

theorem byte_of_words {m m' : Mem} (h : m'.words (x / 4) = m.words (x / 4)) : m' x = m x := by
  have hb := m.extract_read32 (4 * (x / 4)) (k := x % 4) (by omega)
  have hb' := m'.extract_read32 (4 * (x / 4)) (k := x % 4) (by omega)
  rw [show 4 * (x / 4) + x % 4 = x by omega] at hb hb'
  rw [← hb, ← hb']
  exact congrArg (BitVec.extractLsb' (8 * (x % 4)) 8) h

theorem ext_words {m m' : Mem} (h : m.words = m'.words) : m = m' :=
  funext fun x => byte_of_words (congrFun h (x / 4))

theorem words_congr {m m' : Mem} (h : ∀ x, 4 * i ≤ x → x < 4 * i + 4 → m' x = m x) :
    m'.words i = m.words i :=
  read32_congr h

end Mem

end Lib
