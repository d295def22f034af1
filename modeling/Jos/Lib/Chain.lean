import Mathlib.Logic.Function.Basic

/-!
# Singly linked lists threaded through their elements

`Chain next head l`: following `next` from `head` visits exactly `l` and
ends. The list a chain visits is determined by its links, so it never visits
an element twice.
-/

namespace Lib

inductive Chain (next : α → Option α) : Option α → List α → Prop
  | nil : Chain next none []
  | cons {a : α} {l : List α} : Chain next (next a) l → Chain next (some a) (a :: l)

namespace Chain

variable {next next' : α → Option α}

theorem none_iff : Chain next none l ↔ l = [] := by
  constructor
  · intro h
    cases h
    rfl
  · rintro rfl
    exact .nil

theorem some_iff : Chain next (some a) l ↔ ∃ l', l = a :: l' ∧ Chain next (next a) l' := by
  constructor
  · intro h
    cases h with
    | cons h => exact ⟨_, rfl, h⟩
  · rintro ⟨l', rfl, h⟩
    exact .cons h

section
variable (h : Chain next head l)
include h

theorem head_eq : head = l.head? := by
  cases h <;> rfl

theorem unique (h' : Chain next head l') : l = l' := by
  induction h generalizing l' with
  | nil => exact (none_iff.mp h').symm
  | cons _ ih =>
    obtain ⟨r, rfl, hr⟩ := some_iff.mp h'
    rw [ih hr]

theorem suffix (ha : a ∈ l) : ∃ l', Chain next (next a) l' ∧ l'.length < l.length := by
  induction h with
  | nil => simp at ha
  | @cons b r hr ih =>
    rcases List.mem_cons.mp ha with rfl | ha
    · exact ⟨r, hr, by simp⟩
    · obtain ⟨l', hl', hlen⟩ := ih ha
      exact ⟨l', hl', by simp; omega⟩

theorem nodup : l.Nodup := by
  induction h with
  | nil => exact List.nodup_nil
  | @cons a r hr ih =>
    refine List.nodup_cons.mpr ⟨?_, ih⟩
    intro ha
    -- The tail after a second visit would be the tail after the first, yet shorter.
    obtain ⟨l', hl', hlen⟩ := hr.suffix ha
    rw [hr.unique hl'] at hlen
    exact Nat.lt_irrefl _ hlen

theorem frame (hn : ∀ a ∈ l, next' a = next a) : Chain next' head l := by
  induction h with
  | nil => exact .nil
  | @cons a r _ ih =>
    refine .cons ?_
    rw [hn a (by simp)]
    exact ih fun b hb => hn b (by simp [hb])

end

theorem push [DecidableEq α] (h : Chain next head l) (ha : a ∉ l) :
    Chain (Function.update next a head) (some a) (a :: l) := by
  refine .cons ?_
  rw [Function.update_self]
  refine h.frame fun b hb => Function.update_of_ne ?_ _ _
  rintro rfl
  exact ha hb

end Chain

end Lib
