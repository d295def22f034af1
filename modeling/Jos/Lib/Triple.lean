/-!
# Programs that stop early

A computation reads and changes a state and either returns or stops: a
`return` of the source is a result, a `panic` or a jump that never comes back
is a stop, and either way the state reached is kept. `Triple m s Q E` says
that from `s` the computation returns in `Q` or stops in `E`; the rules below
are the only way the proofs of a program use it.
-/

namespace Lib

abbrev M (σ ε : Type) := ExceptT ε (StateM σ)

/-- The outcome of a computation and the state it leaves. -/
def exec (m : M σ ε α) (s : σ) : Except ε α × σ := StateT.run (ExceptT.run m) s

@[simp] theorem exec_pure (a : α) (s : σ) : exec (pure a : M σ ε α) s = (.ok a, s) := rfl

@[simp] theorem exec_throw (e : ε) (s : σ) : exec (throw e : M σ ε α) s = (.error e, s) := rfl

@[simp] theorem exec_get (s : σ) : exec (get : M σ ε σ) s = (.ok s, s) := rfl

@[simp] theorem exec_set (t s : σ) : exec (set t : M σ ε PUnit) s = (.ok ⟨⟩, t) := rfl

@[simp] theorem exec_modify (f : σ → σ) (s : σ) :
    exec (modify f : M σ ε PUnit) s = (.ok ⟨⟩, f s) := rfl

theorem exec_bind (m : M σ ε α) (f : α → M σ ε β) (s : σ) :
    exec (m >>= f) s = match exec m s with
      | (.ok a, t) => exec (f a) t
      | (.error e, t) => (.error e, t) := by
  simp only [exec, bind, ExceptT.bind, ExceptT.mk, ExceptT.run, StateT.bind, StateT.run]
  generalize m s = r
  obtain ⟨a | a, t⟩ := r <;> rfl

theorem exec_map (f : α → β) (m : M σ ε α) (s : σ) :
    exec (f <$> m) s = match exec m s with
      | (.ok a, t) => (.ok (f a), t)
      | (.error e, t) => (.error e, t) := by
  rw [map_eq_pure_bind, exec_bind]
  split
  · rename_i h
    rw [h]
    rfl
  · rename_i h
    rw [h]

section
variable {m : M σ ε α} {f : α → M σ ε β}

theorem exec_bind_ok (h : exec m s = (.ok a, t)) : exec (m >>= f) s = exec (f a) t := by
  rw [exec_bind, h]

theorem exec_bind_error (h : exec m s = (.error e, t)) : exec (m >>= f) s = (.error e, t) := by
  rw [exec_bind, h]

theorem exec_bind_eq_ok : exec (m >>= f) s = (.ok b, t) ↔ ∃ a u, exec m s = (.ok a, u) ∧ exec (f a) u = (.ok b, t) := by
  rw [exec_bind]
  constructor
  · intro h
    split at h
    · rename_i a u hm
      exact ⟨a, u, hm, h⟩
    · simp at h
  · rintro ⟨a, u, hm, hf⟩
    rw [hm]
    exact hf

end

def Triple (m : M σ ε α) (s : σ) (Q : α → σ → Prop) (E : ε → σ → Prop) : Prop :=
  match exec m s with
  | (.ok a, t) => Q a t
  | (.error e, t) => E e t

namespace Triple

variable {σ ε α β : Type} {m : M σ ε α} {s t : σ} {Q Q' : α → σ → Prop} {E E' : ε → σ → Prop}

theorem of_ok (h : exec m s = (.ok a, t)) (hq : Q a t) : Triple m s Q E := by
  unfold Triple
  rw [h]
  exact hq

theorem of_error (h : exec m s = (.error e, t)) (he : E e t) : Triple m s Q E := by
  unfold Triple
  rw [h]
  exact he

theorem ok (h : Triple m s Q E) (hm : exec m s = (.ok a, t)) : Q a t := by
  unfold Triple at h
  rwa [hm] at h

theorem error (h : Triple m s Q E) (hm : exec m s = (.error e, t)) : E e t := by
  unfold Triple at h
  rwa [hm] at h

/-- The postcondition together with the run that led to it. -/
theorem ran (h : Triple m s Q E) : Triple m s (fun a t => Q a t ∧ exec m s = (.ok a, t)) E := by
  cases hm : exec m s with
  | mk r t =>
    cases r with
    | ok a => exact of_ok hm ⟨h.ok hm, rfl⟩
    | error e => exact of_error hm (h.error hm)

theorem returns (h : Triple m s Q (fun _ _ => False)) : ∃ a t, exec m s = (.ok a, t) ∧ Q a t := by
  unfold Triple at h
  split at h
  · rename_i a t hm
    exact ⟨a, t, hm, h⟩
  · exact h.elim

theorem stops (h : Triple m s (fun _ _ => False) E) : ∃ e t, exec m s = (.error e, t) ∧ E e t := by
  unfold Triple at h
  split at h
  · exact h.elim
  · rename_i e t hm
    exact ⟨e, t, hm, h⟩

theorem bind {f : α → M σ ε β} {R : β → σ → Prop} (h : Triple m s Q E)
    (hf : ∀ a t, Q a t → Triple (f a) t R E) : Triple (m >>= f) s R E := by
  unfold Triple at h ⊢
  rw [exec_bind]
  split at h
  · rename_i a t hm
    exact hf a t h
  · exact h

theorem ok_bind {f : α → M σ ε β} {R : β → σ → Prop} (hm : exec m s = (.ok a, t)) (h : Triple (f a) t R E) :
    Triple (m >>= f) s R E := by
  unfold Triple at h ⊢
  rwa [exec_bind_ok hm]

theorem get_bind {f : σ → M σ ε β} {R : β → σ → Prop} (h : Triple (f s) s R E) : Triple (get >>= f) s R E :=
  ok_bind (exec_get s) h

theorem modify_bind {g : σ → σ} {f : PUnit → M σ ε β} {R : β → σ → Prop} (h : Triple (f ⟨⟩) (g s) R E) :
    Triple (modify g >>= f) s R E :=
  ok_bind (exec_modify g s) h

theorem set_bind {f : PUnit → M σ ε β} {R : β → σ → Prop} (h : Triple (f ⟨⟩) t R E) : Triple (set t >>= f) s R E :=
  ok_bind (exec_set t s) h

theorem pure (h : Q a s) : Triple (Pure.pure a : M σ ε α) s Q E := h

theorem throw (h : E e s) : Triple (MonadExcept.throw e : M σ ε α) s Q E := h

theorem modify {Q : PUnit → σ → Prop} (h : Q ⟨⟩ (f s)) :
    Triple (modify f : M σ ε PUnit) s Q E := h

theorem get {Q : σ → σ → Prop} (h : Q s s) : Triple (get : M σ ε σ) s Q E := h

theorem set {Q : PUnit → σ → Prop} (h : Q ⟨⟩ t) : Triple (set t : M σ ε PUnit) s Q E := h

theorem mono (h : Triple m s Q E) (hq : ∀ a t, Q a t → Q' a t) (he : ∀ e t, E e t → E' e t) :
    Triple m s Q' E' := by
  unfold Triple at h ⊢
  split at h
  · exact hq _ _ h
  · exact he _ _ h

theorem imp (h : Triple m s Q E) (hq : ∀ a t, Q a t → Q' a t) : Triple m s Q' E :=
  h.mono hq fun _ _ he => he

theorem imp_error (h : Triple m s Q E) (he : ∀ e t, E e t → E' e t) : Triple m s Q E' :=
  h.mono (fun _ _ hq => hq) he

theorem ite {p : Prop} [Decidable p] {m m' : M σ ε α} (h : p → Triple m s Q E) (h' : ¬ p → Triple m' s Q E) :
    Triple (if p then m else m') s Q E := by
  split
  · exact h ‹_›
  · exact h' ‹_›

theorem guard {p : Prop} [Decidable p] {f : β → M σ ε α} {m : M σ ε α} (he : p → E e s)
    (h : ¬ p → Triple m s Q E) : Triple (if p then MonadExcept.throw e >>= f else m) s Q E :=
  ite (fun hp => bind (throw (Q := fun _ _ => False) (he hp)) fun _ _ h => h.elim) h

theorem never (h : Triple m s Q E) (he : ∀ e t, ¬ E e t) : Triple m s Q (fun _ _ => False) :=
  h.mono (fun _ _ hq => hq) he

theorem trivial : Triple m s (fun _ _ => True) (fun _ _ => True) := by
  unfold Triple
  split <;> exact True.intro

theorem and (h : Triple m s Q E) (h' : Triple m s Q' E') :
    Triple m s (fun a t => Q a t ∧ Q' a t) (fun e t => E e t ∧ E' e t) := by
  unfold Triple at h h' ⊢
  split at h
  · rename_i hm
    rw [hm] at h'
    exact ⟨h, h'⟩
  · rename_i hm
    rw [hm] at h'
    exact ⟨h, h'⟩

theorem or_imp {F : α → Prop} (h : Triple m s (fun a t => F a ∨ Q a t) E) (hq : ∀ a t, Q a t → Q' a t) :
    Triple m s (fun a t => F a ∨ Q' a t) E :=
  h.imp fun a t => Or.imp_right (hq a t)

/-- A failure is handed to the caller. -/
theorem or_bind {F : α → Prop} [DecidablePred F] {f : α → M σ ε α} (h : Triple m s (fun a t => F a ∨ Q a t) E)
    (hf : ∀ a t, Q a t → Triple (f a) t (fun a t => F a ∨ Q' a t) E) :
    Triple (m >>= fun a => if F a then Pure.pure a else f a) s (fun a t => F a ∨ Q' a t) E :=
  bind h fun a t ha => ite (fun hF => pure (.inl hF)) fun hF => hf a t (ha.resolve_left hF)

/-- The loop rule: an invariant of the elements still to visit. -/
theorem forM {l : List α} {f : α → M σ ε PUnit} {I : List α → σ → Prop} (h : I l s)
    (hf : ∀ a l t, I (a :: l) t → Triple (f a) t (fun _ u => I l u) E) :
    Triple (l.forM f) s (fun _ u => I [] u) E := by
  induction l generalizing s with
  | nil => exact h
  | cons a l ih => exact bind (hf a l s h) fun _ t ht => ih ht

theorem forM_range' {a n : Nat} {f : Nat → M σ ε PUnit} {I : Nat → σ → Prop} (h : I a s)
    (hf : ∀ j t, a ≤ j → j < a + n → I j t → Triple (f j) t (fun _ u => I (j + 1) u) E) :
    Triple ((List.range' a n).forM f) s (fun _ u => I (a + n) u) E := by
  induction n generalizing a s with
  | zero => exact h
  | succ n ih =>
    rw [List.range'_succ]
    refine bind (hf a s (Nat.le_refl a) (by omega) h) fun _ t ht => ?_
    have hrest := ih ht fun j u hj hj' => hf j u (by omega) (by omega)
    rwa [show a + 1 + n = a + (n + 1) by omega] at hrest

theorem forM_range {n : Nat} {f : Nat → M σ ε PUnit} {I : Nat → σ → Prop} (h : I 0 s)
    (hf : ∀ j t, j < n → I j t → Triple (f j) t (fun _ u => I (j + 1) u) E) :
    Triple ((List.range n).forM f) s (fun _ u => I n u) E := by
  have hloop := forM_range' (n := n) h fun j t _ hj => hf j t (by omega)
  rwa [← List.range_eq_range', Nat.zero_add] at hloop

end Triple

/-! ## What a computation leaves alone -/

/-- However the computation ends, `f` of the state is what it was. -/
def Keeps (f : σ → β) (m : M σ ε α) : Prop := ∀ s, f (exec m s).2 = f s

namespace Keeps

variable {σ ε α β γ : Type} {f : σ → γ} {m m' : M σ ε α}

theorem pure {a : α} : Keeps f (Pure.pure a : M σ ε α) := fun _ => rfl

theorem throw {e : ε} : Keeps f (MonadExcept.throw e : M σ ε α) := fun _ => rfl

theorem get : Keeps f (MonadState.get : M σ ε σ) := fun _ => rfl

theorem modify {g : σ → σ} (h : ∀ s, f (g s) = f s) : Keeps f (modify g : M σ ε PUnit) := h

theorem bind {k : α → M σ ε β} (h : Keeps f m) (hk : ∀ a, Keeps f (k a)) : Keeps f (m >>= k) := by
  intro s
  have hs := h s
  rw [exec_bind]
  split
  · rename_i a t hm
    rw [hm] at hs
    exact (hk a t).trans hs
  · rename_i e t hm
    rw [hm] at hs
    exact hs

theorem ite {p : Prop} [Decidable p] (h : Keeps f m) (h' : Keeps f m') : Keeps f (if p then m else m') := by
  split
  · exact h
  · exact h'

theorem forM {l : List α} {k : α → M σ ε PUnit} (h : ∀ a, Keeps f (k a)) : Keeps f (l.forM k) := by
  induction l with
  | nil => exact pure
  | cons a l ih => exact bind (h a) fun _ => ih

theorem triple (h : Keeps f m) (s : σ) : Triple m s (fun _ t => f t = f s) (fun _ t => f t = f s) := by
  have hs := h s
  unfold Triple
  split
  · rename_i hm
    rwa [hm] at hs
  · rename_i hm
    rwa [hm] at hs

theorem eq_of_exec (h : Keeps f m) (hm : exec m s = (r, t)) : f t = f s := by
  have hs := h s
  rwa [hm] at hs

end Keeps

-- A goal about a program must not be evaluated by the unifier.
attribute [irreducible] Triple

end Lib
