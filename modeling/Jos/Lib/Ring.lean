import Mathlib.Logic.Function.Basic

/-!
# Rings of slots

A ring of `n` slots carries a log: entry `i` of the log goes into slot
`i % n`. `Carries n slot log lo hi` says that the entries from `lo` up to `hi`
are still in their slots. As long as at most `n` of them are, one more entry
overwrites none of them.
-/

namespace Lib

def Carries (n : Nat) (slot : Nat → α) (log : List α) (lo hi : Nat) : Prop :=
  ∀ i, lo ≤ i → i < hi → log[i]? = some (slot (i % n))

theorem mod_ne_of_window {i j n : Nat} (hij : i < j) (hn : j < i + n) : i % n ≠ j % n := by
  intro h
  have hi := Nat.div_add_mod i n
  have hj := Nat.div_add_mod j n
  have hsub : j - i = n * (j / n - i / n) := by
    rw [Nat.mul_sub]
    omega
  have hpos : 0 < j / n - i / n := by
    by_contra h0
    have : j / n - i / n = 0 := by omega
    rw [this] at hsub
    omega
  have hle : n * 1 ≤ n * (j / n - i / n) := Nat.mul_le_mul_left n hpos
  omega

namespace Carries

variable {α : Type} {n lo hi : Nat} {slot slot' : Nat → α} {log : List α} {x : α}

theorem empty : Carries n slot log lo lo := fun _ hlo hhi => absurd hhi (by omega)

section
variable (h : Carries n slot log lo hi)
include h

theorem pop : Carries n slot log (lo + 1) hi :=
  fun i hlo hhi => h i (by omega) hhi

theorem head (hlo : lo < hi) : log[lo]? = some (slot (lo % n)) :=
  h lo (Nat.le_refl lo) hlo

theorem congr (hroom : hi < lo + n) (hs : ∀ k, k ≠ hi % n → slot' k = slot k) : Carries n slot' log lo hi := by
  intro i hlo hhi
  rw [hs _ (mod_ne_of_window hhi (by omega))]
  exact h i hlo hhi

theorem append (log' : List α) : Carries n slot (log ++ log') lo hi := by
  intro i hlo hhi
  have hi := h i hlo hhi
  have hlt : i < log.length := by
    by_contra hge
    rw [List.getElem?_eq_none (by omega)] at hi
    simp at hi
  rw [List.getElem?_append_left hlt]
  exact hi

theorem push (hlen : log.length = hi) (hx : slot (hi % n) = x) : Carries n slot (log ++ [x]) lo (hi + 1) := by
  intro i hlo hhi
  by_cases hlast : i = hi
  · subst hlast
    rw [List.getElem?_append_right (by omega), hlen, Nat.sub_self, hx]
    rfl
  · exact h.append [x] i hlo (by omega)

end

end Carries

theorem prefix_snoc {l log : List α} (h : l <+: log) (hx : log[l.length]? = some x) : l ++ [x] <+: log := by
  obtain ⟨rest, rfl⟩ := h
  cases rest with
  | nil => simp at hx
  | cons y rest =>
    simp at hx
    subst hx
    exact ⟨rest, by simp⟩

end Lib
