import Mathlib.Data.Fintype.BigOperators

/-!
# Counting references

A finite family of sources `f`, each of which refers to one thing or to
nothing. `count f a` is the number of sources that refer to `a`.
-/

namespace Lib

variable {ι κ α : Type} [Fintype ι] [Fintype κ] [DecidableEq α]

def count (f : ι → Option α) (a : α) : Nat := ∑ i, if f i = some a then 1 else 0

theorem count_update [DecidableEq ι] (f : ι → Option α) (i : ι) (v : Option α) (a : α) :
    count (Function.update f i v) a + (if f i = some a then 1 else 0) =
      count f a + if v = some a then 1 else 0 := by
  unfold count
  rw [← Finset.add_sum_erase _ _ (Finset.mem_univ i), ← Finset.add_sum_erase _ _ (Finset.mem_univ i)]
  have hrest : ∑ j ∈ Finset.univ.erase i, (if Function.update f i v j = some a then 1 else 0) =
      ∑ j ∈ Finset.univ.erase i, if f j = some a then 1 else 0 := by
    refine Finset.sum_congr rfl fun j hj => ?_
    rw [Function.update_of_ne (Finset.ne_of_mem_erase hj)]
  rw [hrest, Function.update_self]
  omega

theorem count_store [DecidableEq ι] {f : ι → Option α} (h : f i = none) (b a : α) :
    count (Function.update f i (some b)) a = count f a + if b = a then 1 else 0 := by
  have hu := count_update f i (some b) a
  simpa [h] using hu

theorem count_clear [DecidableEq ι] {f : ι → Option α} (h : f i = some b) (a : α) :
    count (Function.update f i none) a + (if b = a then 1 else 0) = count f a := by
  have hu := count_update f i none a
  simpa [h] using hu

section
variable {f : ι → Option α}

theorem count_eq_zero : count f a = 0 ↔ ∀ i, f i ≠ some a := by
  simp [count]

theorem count_pos (h : f i = some a) : 0 < count f a := by
  rw [Nat.pos_iff_ne_zero]
  intro h0
  exact count_eq_zero.mp h0 i h

theorem count_eq_one (h : f i = some a) (hu : ∀ j, f j = some a → j = i) : count f a = 1 := by
  unfold count
  rw [Finset.sum_eq_single i]
  · simp [h]
  · intro j _ hj
    rw [if_neg]
    exact fun hf => hj (hu j hf)
  · simp

theorem le_count (g : Fin n → ι) (hg : Function.Injective g) (h : ∀ j, f (g j) = some a) : n ≤ count f a := by
  unfold count
  rw [← Finset.card_filter]
  calc n = (Finset.univ : Finset (Fin n)).card := (Finset.card_fin n).symm
    _ ≤ _ := Finset.card_le_card_of_injOn g (fun j _ => by simp [h j]) hg.injOn

end

theorem unique_of_count_le_one [DecidableEq ι] {f : ι → Option α} (h : count f a ≤ 1) (hi : f i = some a)
    (hj : f j = some a) : i = j := by
  by_contra hne
  have h1 := count_update f i none a
  have h2 := count_pos (f := Function.update f i none) (i := j) (a := a)
    (by rw [Function.update_of_ne (Ne.symm hne)]; exact hj)
  simp only [hi, if_true, reduceCtorEq, if_false] at h1
  omega

theorem count_sum (f : ι ⊕ κ → Option α) (a : α) :
    count f a = count (fun i => f (.inl i)) a + count (fun k => f (.inr k)) a := by
  unfold count
  rw [Fintype.sum_sum_type]

end Lib
