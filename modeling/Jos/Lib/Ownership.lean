/-!
# Exclusive ownership

Holders of a type `R` may each hold blocks. What is held comes from a pool,
and no block has two holders. Taking a fresh block, forgetting holders and
changing the pool keep this.
-/

namespace Lib

structure Owned (pool : α → Prop) (holds : R → α → Prop) : Prop where
  pool : holds r a → pool a
  inj : holds r a → holds r' a → r = r'

namespace Owned

variable {α R : Type} {pool pool' : α → Prop} {holds holds' : R → α → Prop} {r : R} {a : α}

theorem restrict (h : Owned pool holds) (hh : ∀ r a, holds' r a → holds r a)
    (hp : ∀ r a, holds' r a → pool a → pool' a) : Owned pool' holds' where
  pool hr := hp _ _ hr (h.pool (hh _ _ hr))
  inj hr hr' := h.inj (hh _ _ hr) (hh _ _ hr')

theorem grow (h : Owned pool holds) (hp : ∀ a, pool a → pool' a) : Owned pool' holds :=
  h.restrict (fun _ _ hr => hr) fun _ a _ => hp a

theorem take (h : Owned pool holds) (ha : pool a) (hfree : ∀ r, ¬ holds r a)
    (hh : ∀ r' b, holds' r' b → holds r' b ∨ (r' = r ∧ b = a)) : Owned pool holds' where
  pool hr := by
    obtain hr | ⟨-, rfl⟩ := hh _ _ hr
    · exact h.pool hr
    · exact ha
  inj hr hr' := by
    obtain hr | ⟨rfl, rfl⟩ := hh _ _ hr <;> obtain hr' | ⟨rfl, h'⟩ := hh _ _ hr'
    · exact h.inj hr hr'
    · exact absurd (h' ▸ hr) (hfree _)
    · exact absurd hr' (hfree _)
    · rfl

end Owned

end Lib
