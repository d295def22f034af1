import Jos.Lib.Chain
import Jos.Lib.Count

/-!
# Reference-counted pools

Things of a pool are on a free list or in use. `target` says what each
reference refers to, `pend` lists references already counted but not yet
stored (or no longer stored and still counted), and `held` is a thing taken
off the free list that nothing refers to yet. `Counted` relates them to the
stored counters, which are machine words and may wrap, and to the links of
the free list. Every rule below is one change of the counters or the list.
-/

namespace Lib

open Function (update update_of_ne update_self)

/-! ## Exclusive references -/

section
variable {R α : Type} [DecidableEq R] {target : R → Option α} {special : R → Prop}

theorem of_update_none (h : update target r none x = some a) : x ≠ r ∧ target x = some a := by
  by_cases hx : x = r
  · subst hx
    simp at h
  · exact ⟨hx, by rwa [update_of_ne hx] at h⟩

theorem of_update_some (h : update target r (some b) x = some a) :
    (x = r ∧ a = b) ∨ target x = some a := by
  by_cases hx : x = r
  · subst hx
    rw [update_self] at h
    exact .inl ⟨rfl, (Option.some.inj h).symm⟩
  · exact .inr (by rwa [update_of_ne hx] at h)

/-- References of a distinguished kind are the only ones to what they refer to. -/
def Exclusive (special : R → Prop) (target : R → Option α) : Prop :=
  ∀ r r' a, special r → target r = some a → target r' = some a → r' = r

theorem Exclusive.clear (h : Exclusive special target) (r : R) :
    Exclusive special (update target r none) :=
  fun x y b hx hxb hyb => h x y b hx (of_update_none hxb).2 (of_update_none hyb).2

/-- Something no distinguished reference refers to may be referred to anywhere
else, and by a distinguished reference if nothing refers to it at all. -/
theorem Exclusive.store (h : Exclusive special target)
    (hs : ∀ x, special x → target x ≠ some a) (hr : special r → ∀ x, target x ≠ some a) :
    Exclusive special (update target r (some a)) := by
  intro x y b hx hxb hyb
  rcases of_update_some hxb with ⟨rfl, rfl⟩ | hxt
  · rcases of_update_some hyb with ⟨rfl, _⟩ | hyt
    · rfl
    · exact absurd hyt (hr hx y)
  · rcases of_update_some hyb with ⟨rfl, rfl⟩ | hyt
    · exact absurd hxt (hs x hx)
    · exact h x y b hx hxt hyt

end

/-! ## Counters -/

variable {R α : Type} [Fintype R] [DecidableEq α]

/-- The references to `a`, stored or pending. -/
def uses (target : R → Option α) (pend : List α) (a : α) : Nat := count target a + pend.count a

structure Counted (pool : α → Prop) (target : R → Option α) (pend : List α) (held : Finset α)
    (ref : α → BitVec w) (next : α → Option α) (head : Option α) (l : List α) : Prop where
  chain : Chain next head l
  free_iff : a ∈ l ↔ pool a ∧ uses target pend a = 0 ∧ a ∉ held
  ref_eq : pool a → ref a = BitVec.ofNat w (uses target pend a)
  unlinked : pool a → a ∉ l → next a = none
  held_ok : a ∈ held → pool a ∧ uses target pend a = 0

theorem uses_cons (target : R → Option α) (pend : List α) (a b : α) :
    uses target (a :: pend) b = uses target pend b + if a = b then 1 else 0 := by
  simp [uses, List.count_cons, Nat.add_assoc]

theorem ofNat_succ_sub_one (w n : Nat) : BitVec.ofNat w (n + 1) - 1 = BitVec.ofNat w n := by
  rw [BitVec.ofNat_add]
  exact BitVec.add_sub_cancel _ _

namespace Counted

variable {pool : α → Prop} {target target' : R → Option α} {pend pend' : List α} {held : Finset α}
  {ref : α → BitVec w} {next : α → Option α} {head : Option α} {l : List α}

theorem head_free (h : Counted pool target pend held ref next (some a) l) :
    pool a ∧ uses target pend a = 0 ∧ a ∉ held := by
  obtain ⟨l', rfl, _⟩ := Chain.some_iff.mp h.chain
  exact h.free_iff.mp (by simp)

section
variable (h : Counted pool target pend held ref next head l)
include h

theorem not_free_of_held (ha : a ∈ held) : a ∉ l :=
  fun hl => (h.free_iff.mp hl).2.2 ha

theorem not_free_of_uses (ha : uses target pend a ≠ 0) : a ∉ l :=
  fun hl => ha (h.free_iff.mp hl).2.1

theorem not_free_of_target (ha : target r = some a) : a ∉ l := by
  have hpos : 0 < count target a := count_pos ha
  exact h.not_free_of_uses (by unfold uses; omega)

/-- Only the number of uses of each thing matters. -/
theorem recount (hu : ∀ a, uses target' pend' a = uses target pend a) :
    Counted pool target' pend' held ref next head l where
  chain := h.chain
  free_iff := by
    intro a
    rw [hu]
    exact h.free_iff
  ref_eq := by
    intro a
    rw [hu]
    exact h.ref_eq
  unlinked := h.unlinked
  held_ok := by
    intro a
    rw [hu]
    exact h.held_ok

end

theorem take (h : Counted pool target pend held ref next (some a) l) :
    ∃ l', l = a :: l' ∧
      Counted pool target pend (insert a held) ref (update next a none) (next a) l' := by
  obtain ⟨l', rfl, hc⟩ := Chain.some_iff.mp h.chain
  have hnd := List.nodup_cons.mp h.chain.nodup
  refine ⟨l', rfl, ?_, ?_, h.ref_eq, ?_, ?_⟩
  · refine hc.frame fun b hb => update_of_ne ?_ _ _
    rintro rfl
    exact hnd.1 hb
  · intro b
    rw [Finset.mem_insert, not_or]
    constructor
    · intro hb
      obtain ⟨hp, hu, hh⟩ := h.free_iff.mp (List.mem_cons_of_mem a hb)
      refine ⟨hp, hu, ?_, hh⟩
      rintro rfl
      exact hnd.1 hb
    · rintro ⟨hp, hu, hne, hh⟩
      exact (List.mem_cons.mp (h.free_iff.mpr ⟨hp, hu, hh⟩)).resolve_left hne
  · intro b hp hb
    by_cases hba : b = a
    · subst hba
      exact update_self ..
    · rw [update_of_ne hba]
      exact h.unlinked hp (by simp [hba, hb])
  · intro b hb
    rcases Finset.mem_insert.mp hb with rfl | hb
    · exact ⟨h.head_free.1, h.head_free.2.1⟩
    · exact h.held_ok hb

theorem incref (h : Counted pool target pend held ref next head l) (ha : a ∉ l) :
    Counted pool target (a :: pend) (held.erase a) (update ref a (ref a + 1)) next head l where
  chain := h.chain
  free_iff := by
    intro b
    rw [uses_cons]
    by_cases hba : a = b
    · subst hba
      simp [ha]
    · simp [h.free_iff, hba, Ne.symm hba]
  ref_eq := by
    intro b hp
    rw [uses_cons]
    by_cases hba : b = a
    · subst hba
      rw [update_self, h.ref_eq hp, if_pos rfl, BitVec.ofNat_add]
      rfl
    · rw [update_of_ne hba, h.ref_eq hp]
      simp [Ne.symm hba]
  unlinked := h.unlinked
  held_ok := by
    intro b hb
    obtain ⟨hne, hb⟩ := Finset.mem_erase.mp hb
    rw [uses_cons]
    simpa [Ne.symm hne] using h.held_ok hb

section
variable {a : α} (h : Counted pool target (a :: pend) held ref next head l)
include h

theorem decref (ha : uses target pend a ≠ 0) :
    Counted pool target pend held (update ref a (ref a - 1)) next head l where
  chain := h.chain
  free_iff := by
    intro b
    rw [h.free_iff, uses_cons]
    by_cases hba : a = b
    · subst hba
      simp [ha]
    · simp [hba]
  ref_eq := by
    intro b hp
    have hr := h.ref_eq hp
    rw [uses_cons] at hr
    by_cases hba : b = a
    · subst hba
      rw [update_self, hr, if_pos rfl, ofNat_succ_sub_one]
    · rw [update_of_ne hba, hr]
      simp [Ne.symm hba]
  unlinked := h.unlinked
  held_ok := by
    intro b hb
    obtain ⟨hp, hu⟩ := h.held_ok hb
    rw [uses_cons] at hu
    exact ⟨hp, by omega⟩

theorem release (hp : pool a) (ha : uses target pend a = 0) : Counted pool target pend held (update ref a (ref a - 1))
      (update next a head) (some a) (a :: l) := by
  have hal : a ∉ l := h.not_free_of_uses (by simp [uses_cons])
  have hah : a ∉ held := by
    intro hh
    have := (h.held_ok hh).2
    simp [uses_cons] at this
  refine ⟨h.chain.push hal, ?_, ?_, ?_, ?_⟩
  · intro b
    have hb := h.free_iff (a := b)
    rw [uses_cons] at hb
    by_cases hba : b = a
    · subst hba
      simp [hp, ha, hah]
    · simp [hba, hb, Ne.symm hba]
  · intro b hpb
    have hr := h.ref_eq hpb
    rw [uses_cons] at hr
    by_cases hba : b = a
    · subst hba
      rw [update_self, hr, if_pos rfl, ofNat_succ_sub_one]
    · rw [update_of_ne hba, hr]
      simp [Ne.symm hba]
  · intro b hpb hb
    rw [List.mem_cons, not_or] at hb
    rw [update_of_ne hb.1]
    exact h.unlinked hpb hb.2
  · intro b hb
    obtain ⟨hpb, hu⟩ := h.held_ok hb
    rw [uses_cons] at hu
    exact ⟨hpb, by omega⟩

end

theorem putBack (h : Counted pool target pend held ref next head l) (ha : a ∈ held) :
    Counted pool target pend (held.erase a) ref (update next a head) (some a) (a :: l) := by
  obtain ⟨hp, hu⟩ := h.held_ok ha
  refine ⟨h.chain.push (h.not_free_of_held ha), ?_, h.ref_eq, ?_, ?_⟩
  · intro b
    by_cases hba : b = a
    · subst hba
      simp [hp, hu]
    · simp [hba, h.free_iff]
  · intro b hpb hb
    rw [List.mem_cons, not_or] at hb
    rw [update_of_ne hb.1]
    exact h.unlinked hpb hb.2
  · intro b hb
    exact h.held_ok (Finset.mem_of_mem_erase hb)

end Counted

/-! ## Changing one reference -/

section
variable [DecidableEq R] {target : R → Option α}

theorem uses_store (hr : target r = none) (b : α) :
    uses (update target r (some a)) pend b = uses target (a :: pend) b := by
  rw [uses_cons, uses, count_store hr, uses]
  omega

theorem uses_clear (hr : target r = some a) (b : α) :
    uses (update target r none) (a :: pend) b = uses target pend b := by
  have h := count_clear hr b
  rw [uses_cons]
  unfold uses
  omega

end

end Lib
