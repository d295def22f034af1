import Jos.Kern.Mmu

/-!
# The search in the symbol table (`stab_binsearch` of `kern/kdebug.c`)

The search is written over any way to read the table, so that it can be run on
a table in user memory as well. Indices are `int`s of a table of less than
2^30 entries, where `l + r` does not overflow.
-/

namespace Jos.Stabs

/-- How the fields of `stabs[i]` are read. -/
structure Table (μ : Type → Type) where
  nStrx : Int → μ Word
  nType : Int → μ (BitVec 8)
  nDesc : Int → μ (BitVec 16)
  nValue : Int → μ Word

/-- The variables of the search; `left` and `right` are `*region_left` and `*region_right`. -/
structure Search where
  l : Int
  r : Int
  left : Int
  right : Int
  anyMatches : Bool
  addr : Word

section
variable {μ : Type → Type} [Monad μ]

/-- `while (m >= lo && stabs[m].n_type != type) m--`, for at most `k` rounds. -/
def scan (t : Table μ) (type : BitVec 8) (lo : Int) : Nat → Int → μ Int
  | 0, m => return m
  | k + 1, m =>
    if lo ≤ m then do
      if (← t.nType m) ≠ type then scan t type lo k (m - 1) else return m
    else return m

def Search.trueM (s : Search) : Int := (s.l + s.r).tdiv 2

def searchStep (t : Table μ) (type : BitVec 8) (s : Search) : μ Search := do
  let m ← scan t type s.l (s.trueM - s.l + 1).toNat s.trueM
  if m < s.l then return { s with l := s.trueM + 1 }
  else
    if (← t.nValue m) < s.addr then
      return { s with anyMatches := true, left := m, l := s.trueM + 1 }
    else if s.addr < (← t.nValue m) then
      return { s with anyMatches := true, right := m - 1, r := m - 1 }
    else
      -- the search goes on for the next address
      return { s with anyMatches := true, left := m, l := m, addr := s.addr + 1 }

def searchLoop (t : Table μ) (type : BitVec 8) : Nat → Search → μ Search
  | 0, s => return s
  | k + 1, s => if s.l ≤ s.r then do searchLoop t type k (← searchStep t type s) else return s

/-- Returns `*region_left` and `*region_right`. A round makes the interval
smaller, or is an exact match at its start. -/
def stabBinsearch (t : Table μ) (left right : Int) (type : BitVec 8) (addr : Word) : μ (Int × Int) := do
  let s ← searchLoop t type (2 * (right - left + 1).toNat + 1) ⟨left, right, left, right, false, addr⟩
  if s.anyMatches = false then return (s.left, s.left - 1)
  else return (← scan t type (s.left + 1) (s.right - s.left).toNat s.right, s.right)

theorem stabBinsearch_empty [LawfulMonad μ] {t : Table μ} (h : right < left) :
    stabBinsearch t left right type addr = pure (left, left - 1) := by
  unfold stabBinsearch searchLoop
  rw [if_neg (Int.not_le.2 h), pure_bind, if_pos rfl]

end

structure Stab where
  nStrx : Word
  nType : BitVec 8
  nOther : BitVec 8
  nDesc : BitVec 16
  nValue : Word

def table (stabs : Int → Stab) : Table Id where
  nStrx i := (stabs i).nStrx
  nType i := (stabs i).nType
  nDesc i := (stabs i).nDesc
  nValue i := (stabs i).nValue

/-! ## One round -/

section
variable (stabs : Int → Stab) (type : BitVec 8)

def HasType (i : Int) : Prop := (stabs i).nType = type

instance (i : Int) : Decidable (HasType stabs type i) := inferInstanceAs (Decidable ((stabs i).nType = type))

/-- `m` is the last index of the type from `lo` to `hi`. -/
structure Last (lo hi m : Int) : Prop where
  ge : lo ≤ m
  le : m ≤ hi
  hasType : HasType stabs type m
  none : ∀ i, m < i → i ≤ hi → ¬ HasType stabs type i

/-- What a round does. -/
inductive Round : Search → Search → Prop
  | none : s.l ≤ s.r → (∀ i, s.l ≤ i → i ≤ s.trueM → ¬ HasType stabs type i) → Round s { s with l := s.trueM + 1 }
  | less : s.l ≤ s.r → Last stabs type s.l s.trueM m → (stabs m).nValue < s.addr →
    Round s { s with anyMatches := true, left := m, l := s.trueM + 1 }
  | greater : s.l ≤ s.r → Last stabs type s.l s.trueM m → s.addr < (stabs m).nValue →
    Round s { s with anyMatches := true, right := m - 1, r := m - 1 }
  | exact : s.l ≤ s.r → Last stabs type s.l s.trueM m → (stabs m).nValue = s.addr →
    Round s { s with anyMatches := true, left := m, l := m, addr := s.addr + 1 }

end

section
variable {stabs : Int → Stab} {type : BitVec 8} {s t : Search}

theorem Last.unique (h : Last stabs type lo hi m) (h' : Last stabs type lo hi m') : m = m' := by
  rcases Int.lt_trichotomy m m' with hlt | rfl | hlt
  · exact absurd h'.hasType (h.none m' hlt h'.le)
  · rfl
  · exact absurd h.hasType (h'.none m hlt h.le)

theorem Last.not_none (h : Last stabs type lo hi m) : ¬ ∀ i, lo ≤ i → i ≤ hi → ¬ HasType stabs type i :=
  fun hno => hno m h.ge h.le h.hasType

theorem scan_of_lt {lo hi : Int} (h : hi < lo) : (scan (table stabs) type lo k hi).run = hi := by
  cases k with
  | zero => rfl
  | succ k =>
    rw [scan, if_neg (Int.not_le.2 h)]
    rfl

theorem scan_succ {lo hi : Int} (h : lo ≤ hi) : (scan (table stabs) type lo (k + 1) hi).run =
    if (stabs hi).nType ≠ type then (scan (table stabs) type lo k (hi - 1)).run else hi := by
  rw [scan, if_pos h, Id.run_bind]
  exact apply_ite Id.run ..

theorem scan_ok {lo hi : Int} {k : Nat} (hk : hi - lo + 1 ≤ k) :
    Last stabs type lo hi (scan (table stabs) type lo k hi).run ∨
      ((scan (table stabs) type lo k hi).run = min hi (lo - 1) ∧ ∀ i, lo ≤ i → i ≤ hi → ¬ HasType stabs type i) := by
  by_cases hle : lo ≤ hi
  · induction k generalizing hi with
    | zero => omega
    | succ k ih =>
      rw [scan_succ hle]
      split
      · rename_i htype
        by_cases hle' : lo ≤ hi - 1
        · rcases ih (by omega) hle' with h | ⟨h, hno⟩
          · refine .inl ⟨h.ge, by have := h.le; omega, h.hasType, fun i h₁ h₂ => ?_⟩
            rcases Int.lt_or_eq_of_le h₂ with h₂ | rfl
            · exact h.none i h₁ (by omega)
            · exact htype
          · refine .inr ⟨by omega, fun i h₁ h₂ => ?_⟩
            rcases Int.lt_or_eq_of_le h₂ with h₂ | rfl
            · exact hno i h₁ (by omega)
            · exact htype
        · refine .inr ⟨by rw [scan_of_lt (by omega)]; omega, fun i h₁ h₂ => ?_⟩
          rwa [show i = hi by omega]
      · rename_i htype
        exact .inl ⟨hle, Int.le_refl _, not_not.1 htype, fun i h₁ h₂ => absurd h₁ (Int.not_lt.2 h₂)⟩
  · exact .inr ⟨by rw [scan_of_lt (by omega)]; omega, fun i h₁ h₂ => by omega⟩

theorem searchStep_round (hlr : s.l ≤ s.r) : Round stabs type s (searchStep (table stabs) type s).run := by
  have hscan := @scan_ok stabs type s.l s.trueM (s.trueM - s.l + 1).toNat (by omega)
  unfold searchStep
  rw [Id.run_bind]
  generalize (scan (table stabs) type s.l (s.trueM - s.l + 1).toNat s.trueM).run = m at hscan
  change Round stabs type s (if m < s.l then _ else if (stabs m).nValue < s.addr then _ else
    if s.addr < (stabs m).nValue then _ else _)
  rcases hscan with hlast | ⟨rfl, hno⟩
  · rw [if_neg (Int.not_lt.2 hlast.ge)]
    split
    · exact .less hlr hlast ‹_›
    · split
      · exact .greater hlr hlast ‹_›
      · exact .exact hlr hlast (BitVec.le_antisymm (BitVec.not_lt.1 ‹_›) (BitVec.not_lt.1 ‹_›))
  · rw [if_pos (by omega)]
    exact .none hlr hno

theorem Search.trueM_ge (h0 : 0 ≤ s.l) (hlr : s.l ≤ s.r) : s.l ≤ s.trueM := by
  rw [trueM, Int.tdiv_eq_ediv_of_nonneg (by omega)]
  omega

theorem Search.trueM_le (h0 : 0 ≤ s.l) (hlr : s.l ≤ s.r) : s.trueM ≤ s.r := by
  rw [trueM, Int.tdiv_eq_ediv_of_nonneg (by omega)]
  omega

/-- The rounds that are left are no more than this. -/
def Search.rounds (stabs : Int → Stab) (type : BitVec 8) (s : Search) : Nat :=
  2 * (s.r - s.l + 1).toNat + if HasType stabs type s.l ∧ (stabs s.l).nValue = s.addr then 1 else 0

theorem Round.start (h : Round stabs type s t) : s.l ≤ s.r := by
  cases h <;> assumption

theorem Round.l_le (h : Round stabs type s t) (h0 : 0 ≤ s.l) : s.l ≤ t.l := by
  have hge := Search.trueM_ge h0 h.start
  cases h with
  | none => exact Int.le_add_one hge
  | less => exact Int.le_add_one hge
  | greater => exact Int.le_refl _
  | exact _ hlast => exact hlast.ge

theorem add_one_ne (a : Word) : a ≠ a + 1 := by
  intro h
  have := congrArg BitVec.toNat h
  bv_omega

theorem Round.rounds_lt (h : Round stabs type s t) (h0 : 0 ≤ s.l) : t.rounds stabs type < s.rounds stabs type := by
  have hlr := h.start
  have hge := Search.trueM_ge h0 hlr
  have hle := Search.trueM_le h0 hlr
  -- Only an exact match can leave the interval as it is, and the next round is not exact there.
  have hlen : ∀ u : Search, u.r - u.l < s.r - s.l → u.rounds stabs type < s.rounds stabs type := by
    intro u hu
    unfold Search.rounds
    split <;> split <;> omega
  cases h with
  | none => exact hlen _ (by dsimp only; omega)
  | less => exact hlen _ (by dsimp only; omega)
  | greater _ hlast =>
    have := hlast.le
    exact hlen _ (by dsimp only; omega)
  | exact _ hlast hv =>
    rcases Int.lt_or_eq_of_le hlast.ge with hlt | heq
    · exact hlen _ (by dsimp only; omega)
    · unfold Search.rounds
      dsimp only
      rw [if_neg fun hx => add_one_ne s.addr (hv.symm.trans hx.2), if_pos ⟨heq ▸ hlast.hasType, heq ▸ hv⟩, heq]
      omega

theorem searchLoop_ends (h0 : 0 ≤ s.l) (hk : s.rounds stabs type ≤ k) :
    Relation.ReflTransGen (Round stabs type) s (searchLoop (table stabs) type k s).run ∧
      (searchLoop (table stabs) type k s).run.r < (searchLoop (table stabs) type k s).run.l := by
  induction k generalizing s with
  | zero =>
    refine ⟨.refl, ?_⟩
    unfold Search.rounds at hk
    change s.r < s.l
    omega
  | succ k ih =>
    unfold searchLoop
    split
    · rename_i hlr
      rw [Id.run_bind]
      have hround : Round stabs type s _ := searchStep_round hlr
      have hlt := hround.rounds_lt h0
      obtain ⟨hrun, hend⟩ := ih (s := (searchStep (table stabs) type s).run)
        (Int.le_trans h0 (hround.l_le h0)) (by omega)
      exact ⟨.head hround hrun, hend⟩
    · exact ⟨.refl, by change s.r < s.l; omega⟩

theorem searchLoop_start (stabs : Int → Stab) (type : BitVec 8) (addr : Word) (R : Int) (h0 : 0 ≤ L) :
    let t := (searchLoop (table stabs) type (2 * (R - L + 1).toNat + 1) ⟨L, R, L, R, false, addr⟩).run
    Relation.ReflTransGen (Round stabs type) ⟨L, R, L, R, false, addr⟩ t ∧ t.r < t.l := by
  refine searchLoop_ends (s := ⟨L, R, L, R, false, addr⟩) h0 ?_
  unfold Search.rounds
  dsimp only
  split <;> omega

end

/-! ## What the search is for -/

section
variable (stabs : Int → Stab) (type : BitVec 8)

def Sorted (L R : Int) : Prop :=
  ∀ i j, L ≤ i → i ≤ j → j ≤ R → HasType stabs type i → HasType stabs type j → (stabs i).nValue ≤ (stabs j).nValue

/-- `i` is a stab of the type from `L` to `R`, not past `addr`. -/
structure Covers (addr : Word) (L R i : Int) : Prop where
  ge : L ≤ i
  le : i ≤ R
  hasType : HasType stabs type i
  value : (stabs i).nValue ≤ addr

/-- `i` is a stab of the type from `L` to `R` that is past `addr`. -/
structure Follows (addr : Word) (L R i : Int) : Prop where
  ge : L ≤ i
  le : i ≤ R
  hasType : HasType stabs type i
  value : addr < (stabs i).nValue

/-- The result that the search should have. -/
structure Encloses (addr : Word) (L R left right : Int) : Prop where
  greatest : (∃ i, Covers stabs type addr L R i) →
    Covers stabs type addr L R left ∧ ∀ i, Covers stabs type addr L R i → i ≤ left
  next : (∃ i, Covers stabs type addr L R i) →
    (Follows stabs type addr L R (right + 1) ∧ ∀ i, Follows stabs type addr L R i → right + 1 ≤ i) ∨
      (right = R ∧ ∀ i, ¬ Follows stabs type addr L R i)
  none : (∀ i, ¬ Covers stabs type addr L R i) → right < left

/-- Halving the interval from `l` to `r`, one comes to a stab `m` with the value
`key`; the interval then ends at `r'`. -/
inductive Meets (key : Word) : Int → Int → Int → Int → Prop
  | here : l ≤ r → Last stabs type l ((l + r).tdiv 2) m → (stabs m).nValue = key → Meets key l r m r
  | none : l ≤ r → (∀ i, l ≤ i → i ≤ (l + r).tdiv 2 → ¬ HasType stabs type i) →
    Meets key ((l + r).tdiv 2 + 1) r m r' → Meets key l r m r'
  | less : l ≤ r → Last stabs type l ((l + r).tdiv 2) i → (stabs i).nValue < key →
    Meets key ((l + r).tdiv 2 + 1) r m r' → Meets key l r m r'
  | greater : l ≤ r → Last stabs type l ((l + r).tdiv 2) i → key < (stabs i).nValue →
    Meets key l (i - 1) m r' → Meets key l r m r'

/-- No stab of the type at all; or one that is not past `addr`, and when the
halving comes to one with the value `addr`, it does not come to one with the
value `addr + 1` in the rest of the interval. (If `addr + 2` wraps around, it may
be the stab after one with the value `addr`.) -/
def Findable (addr : Word) (L R : Int) : Prop :=
  (∀ i, L ≤ i → i ≤ R → ¬ HasType stabs type i) ∨
    ((∃ i, Covers stabs type addr L R i) ∧ ∀ m r m' r', Meets stabs type addr L R m r →
      Meets stabs type (addr + 1) m r m' r' → addr.toNat + 2 = 2 ^ 32 ∧ Covers stabs type addr L R (m' - 1))

end

section
variable {stabs : Int → Stab} {type : BitVec 8} {s t : Search}

theorem Round.meets (h : Round stabs type s t) :
    (t.addr = s.addr ∧ ∀ m r, Meets stabs type s.addr s.l s.r m r ↔ Meets stabs type s.addr t.l t.r m r) ∨
      (t.addr = s.addr + 1 ∧ Last stabs type s.l s.trueM t.l ∧ (stabs t.l).nValue = s.addr ∧ t.left = t.l ∧ t.r = s.r ∧
        t.right = s.right ∧ t.anyMatches = true ∧ ∀ m r, Meets stabs type s.addr s.l s.r m r ↔ m = t.l ∧ r = t.r) := by
  cases h with
  | none hlr hno =>
    refine .inl ⟨rfl, fun m r => ⟨fun h => ?_, .none hlr hno⟩⟩
    cases h with
    | here _ hlast => exact absurd hno hlast.not_none
    | none _ _ h => exact h
    | less _ hlast => exact absurd hno hlast.not_none
    | greater _ hlast => exact absurd hno hlast.not_none
  | less hlr hlast hv =>
    refine .inl ⟨rfl, fun m r => ⟨fun h => ?_, .less hlr hlast hv⟩⟩
    cases h with
    | here _ hlast' hv' =>
      rw [← hlast.unique hlast'] at hv'
      exact absurd hv (hv' ▸ BitVec.lt_irrefl _)
    | none _ hno => exact absurd hno hlast.not_none
    | less _ _ _ h => exact h
    | greater _ hlast' hv' =>
      rw [← hlast.unique hlast'] at hv'
      exact absurd hv (BitVec.lt_asymm hv')
  | greater hlr hlast hv =>
    refine .inl ⟨rfl, fun m r => ⟨fun h => ?_, .greater hlr hlast hv⟩⟩
    cases h with
    | here _ hlast' hv' =>
      rw [← hlast.unique hlast'] at hv'
      exact absurd hv (hv' ▸ BitVec.lt_irrefl _)
    | none _ hno => exact absurd hno hlast.not_none
    | less _ hlast' hv' =>
      rw [← hlast.unique hlast'] at hv'
      exact absurd hv (BitVec.lt_asymm hv')
    | greater _ hlast' _ h =>
      rw [← hlast.unique hlast'] at h
      exact h
  | exact hlr hlast hv =>
    refine .inr ⟨rfl, hlast, hv, rfl, rfl, rfl, rfl, fun m r => ⟨fun h => ?_, ?_⟩⟩
    · cases h with
      | here _ hlast' => exact ⟨hlast'.unique hlast, rfl⟩
      | none _ hno => exact absurd hno hlast.not_none
      | less _ hlast' hv' =>
        rw [← hlast.unique hlast'] at hv'
        exact absurd hv' (hv ▸ BitVec.lt_irrefl _)
      | greater _ hlast' hv' =>
        rw [← hlast.unique hlast'] at hv'
        exact absurd hv' (hv ▸ BitVec.lt_irrefl _)
    · rintro ⟨rfl, rfl⟩
      exact .here hlr hlast hv

/-- What the rounds keep: the stabs of the type below the interval are below the
address that is looked for, those above it are past `addr`. -/
structure Inv (stabs : Int → Stab) (type : BitVec 8) (addr : Word) (L R : Int) (s : Search) : Prop where
  nonneg : 0 ≤ s.l
  l_ge : L ≤ s.l
  r_ge : s.l ≤ s.r + 1
  r_le : s.r ≤ R
  addr_le : addr ≤ s.addr
  right : s.right = s.r
  edge : s.r = R ∨ (s.r < R ∧ HasType stabs type (s.r + 1))
  below : ∀ i, L ≤ i → i < s.l → HasType stabs type i → (stabs i).nValue < s.addr
  above : ∀ i, s.r < i → i ≤ R → HasType stabs type i → addr < (stabs i).nValue
  left : (L ≤ s.left ∧ s.left ≤ s.l ∧ s.left ≤ s.r ∧ HasType stabs type s.left ∧ (stabs s.left).nValue < s.addr) ∨
    (s.left = L ∧ ∀ i, L ≤ i → i < s.l → ¬ HasType stabs type i)
  some : s.anyMatches = true → ∃ i, L ≤ i ∧ i ≤ R ∧ HasType stabs type i
  none : s.anyMatches = false → s.left = L ∧ ∀ i, L ≤ i → i ≤ R → HasType stabs type i → s.l ≤ i ∧ i ≤ s.r

theorem inv_start (h0 : 0 ≤ L) (hLR : L ≤ R + 1) : Inv stabs type addr L R ⟨L, R, L, R, false, addr⟩ where
  nonneg := h0
  l_ge := Int.le_refl L
  r_ge := hLR
  r_le := Int.le_refl R
  addr_le := BitVec.le_refl _
  right := rfl
  edge := .inl rfl
  below i h₁ h₂ := absurd h₂ (Int.not_lt.2 h₁)
  above i h₁ h₂ := absurd h₁ (Int.not_lt.2 h₂)
  left := .inr ⟨rfl, fun i h₁ h₂ => absurd h₂ (Int.not_lt.2 h₁)⟩
  some h := by cases h
  none _ := ⟨rfl, fun i h₁ h₂ _ => ⟨h₁, h₂⟩⟩

theorem lt_add_one {a : Word} (h : a.toNat + 1 < 2 ^ 32) : a < a + 1 := by
  bv_omega

theorem Inv.round (h : Inv stabs type addr L R s) (hs : Sorted stabs type L R) (hround : Round stabs type s t)
    (hwrap : t.addr = s.addr ∨ s.addr.toNat + 1 < 2 ^ 32) : Inv stabs type addr L R t := by
  have hlr := hround.start
  have hge := Search.trueM_ge h.nonneg hlr
  have hle := Search.trueM_le h.nonneg hlr
  have h0 := h.nonneg
  have hL := h.l_ge
  have hR := h.r_le
  cases hround with
  | none _ hno =>
    have hgone : ∀ i, L ≤ i → i < s.trueM + 1 → HasType stabs type i → i < s.l := fun i h₁ h₂ ht => by
      by_contra hi
      exact hno i (by omega) (by omega) ht
    exact { h with
      nonneg := by dsimp only; omega
      l_ge := by dsimp only; omega
      r_ge := by dsimp only; omega
      below := fun i h₁ h₂ ht => h.below i h₁ (hgone i h₁ h₂ ht) ht
      left := by
        rcases h.left with ⟨h₁, h₂, h₃⟩ | ⟨h₁, h₂⟩
        · exact .inl ⟨h₁, by dsimp only; omega, h₃⟩
        · exact .inr ⟨h₁, fun i hi hi' ht => h₂ i hi (hgone i hi hi' ht) ht⟩
      none := fun hany => ⟨(h.none hany).1, fun i h₁ h₂ ht => by
        obtain ⟨h₃, h₄⟩ := (h.none hany).2 i h₁ h₂ ht
        refine ⟨?_, h₄⟩
        by_contra hi
        exact hno i h₃ (by dsimp only at hi; omega) ht⟩ }
  | less _ hlast hv =>
    have hm := hlast.ge
    have hm' := hlast.le
    exact { h with
      nonneg := by dsimp only; omega
      l_ge := by dsimp only; omega
      r_ge := by dsimp only; omega
      below := fun i h₁ h₂ ht => by
        refine Nat.lt_of_le_of_lt (hs i _ h₁ ?_ (by omega) ht hlast.hasType) hv
        by_contra hi
        exact hlast.none i (by omega) (by dsimp only at h₂; omega) ht
      left := .inl ⟨by dsimp only; omega, by dsimp only; omega, by dsimp only; omega, hlast.hasType, hv⟩
      some := fun _ => ⟨_, by omega, by omega, hlast.hasType⟩
      none := fun h => by cases h }
  | greater hlr' hlast hv =>
    rename_i m
    have hm := hlast.ge
    have hm' := hlast.le
    exact { h with
      r_ge := by dsimp only; omega
      r_le := by dsimp only; omega
      right := rfl
      edge := .inr ⟨by dsimp only; omega, by simpa using hlast.hasType⟩
      above := fun i h₁ h₂ ht => by
        refine Nat.lt_of_lt_of_le (Nat.lt_of_le_of_lt h.addr_le hv) ?_
        exact hs _ i (by omega) (by dsimp only at h₁; omega) h₂ hlast.hasType ht
      left := h.left.imp (fun ⟨h₁, h₂, _, ht, hlt⟩ => ⟨h₁, h₂, by
        -- the left end is not past the address, the stab met here is
        have hne : s.left ≠ m := fun heq => BitVec.lt_asymm hv (heq ▸ hlt)
        dsimp only
        omega, ht, hlt⟩) id
      some := fun _ => ⟨_, by omega, by omega, hlast.hasType⟩
      none := fun h => by cases h }
  | exact hlr' hlast hv =>
    rename_i m
    have hm := hlast.ge
    have hm' := hlast.le
    have hnext := lt_add_one (hwrap.resolve_left fun h => add_one_ne _ h.symm)
    exact { h with
      nonneg := by dsimp only; omega
      l_ge := by dsimp only; omega
      r_ge := by dsimp only; omega
      addr_le := BitVec.le_trans h.addr_le (BitVec.le_of_lt hnext)
      below := fun i h₁ h₂ ht => by
        refine Nat.lt_of_le_of_lt (hs i m h₁ (Int.le_of_lt h₂) (by omega) ht hlast.hasType) ?_
        exact hv ▸ hnext
      left := .inl ⟨by dsimp only; omega, Int.le_refl _, by dsimp only; omega, hlast.hasType, hv ▸ hnext⟩
      some := fun _ => ⟨_, by omega, by omega, hlast.hasType⟩
      none := fun h => by cases h }

/-- The state right after an exact match for `key`. -/
structure Matched (stabs : Int → Stab) (type : BitVec 8) (key : Word) (u : Search) : Prop where
  addr : u.addr = key + 1
  left : u.left = u.l
  right : u.right = u.r
  r_ge : u.l ≤ u.r
  any : u.anyMatches = true
  hasType : HasType stabs type u.l
  value : (stabs u.l).nValue = key

/-- A search for one address ends, or comes to an exact match; and the halving says which. -/
theorem Inv.phase (h : Inv stabs type addr L R s) (hs : Sorted stabs type L R)
    (hrun : Relation.ReflTransGen (Round stabs type) s t) (hend : t.r < t.l) :
    (Inv stabs type addr L R t ∧ t.addr = s.addr ∧ ∀ m r, ¬ Meets stabs type s.addr s.l s.r m r) ∨
      ∃ v u, Inv stabs type addr L R v ∧ v.addr = s.addr ∧ Round stabs type v u ∧
        Matched stabs type s.addr u ∧ u.r = v.r ∧
        (∀ m r, Meets stabs type s.addr s.l s.r m r ↔ m = u.l ∧ r = u.r) ∧
        Relation.ReflTransGen (Round stabs type) u t := by
  induction hrun using Relation.ReflTransGen.head_induction_on with
  | refl =>
    refine .inl ⟨h, rfl, fun m r hm => ?_⟩
    cases hm <;> omega
  | @head s s' hround hrun ih =>
    rcases hround.meets with ⟨haddr, hmeets⟩ | ⟨haddr, hlast, hval, hleft, hr, hright, hany, hmeets⟩
    · rcases ih (h.round hs hround (.inl haddr)) with ⟨ht, hta, hno⟩ | ⟨v, u, hv, hva, huv, hmatch, hur, hall, hrest⟩
      · exact .inl ⟨ht, hta.trans haddr, fun m r hm => hno m r (haddr ▸ (hmeets m r).1 hm)⟩
      · refine .inr ⟨v, u, hv, hva.trans haddr, huv, haddr ▸ hmatch, hur, fun m r => ?_, hrest⟩
        rw [hmeets, ← hall, haddr]
    · have hle := Search.trueM_le h.nonneg hround.start
      have hle' := hlast.le
      refine .inr ⟨s, s', h, rfl, hround, ?_, hr, hmeets, hrun⟩
      exact ⟨haddr, hleft, by rw [hright, hr, h.right], by omega, hany, hlast.hasType, hval⟩

/-! ## The result -/

/-- What is made of the state in which the loop ends. -/
def outcome (stabs : Int → Stab) (type : BitVec 8) (s : Search) : Int × Int :=
  if s.anyMatches = false then (s.left, s.left - 1)
  else ((scan (table stabs) type (s.left + 1) (s.right - s.left).toNat s.right).run, s.right)

theorem stabBinsearch_eq (stabs : Int → Stab) (type : BitVec 8) (addr : Word) (L R : Int) :
    (stabBinsearch (table stabs) L R type addr).run = outcome stabs type
      (searchLoop (table stabs) type (2 * (R - L + 1).toNat + 1) ⟨L, R, L, R, false, addr⟩).run := by
  unfold stabBinsearch outcome
  rw [Id.run_bind]
  generalize (searchLoop (table stabs) type (2 * (R - L + 1).toNat + 1) ⟨L, R, L, R, false, addr⟩).run = t
  split <;> rfl

/-- Where the stabs below the interval are not past `addr`, the result is the one
that is wanted if there is one, or no stab of the type. -/
theorem Inv.encloses_iff (h : Inv stabs type addr L R t) (hend : t.r < t.l)
    (hlow : ∀ i, (stabs i).nValue < t.addr → (stabs i).nValue ≤ addr) :
    Encloses stabs type addr L R (outcome stabs type t).1 (outcome stabs type t).2 ↔
      (∀ i, L ≤ i → i ≤ R → ¬ HasType stabs type i) ∨ ∃ i, Covers stabs type addr L R i := by
  have hR := h.r_le
  have hbelow : ∀ i, L ≤ i → i ≤ t.r → HasType stabs type i → (stabs i).nValue ≤ addr := fun i h₁ h₂ ht =>
    hlow i (h.below i h₁ (by omega) ht)
  unfold outcome
  cases hany : t.anyMatches with
  | false =>
    have hno : ∀ i, L ≤ i → i ≤ R → ¬ HasType stabs type i := by
      intro i h₁ h₂ ht
      have := (h.none hany).2 i h₁ h₂ ht
      omega
    refine iff_of_true ⟨fun ⟨i, hi⟩ => ?_, fun ⟨i, hi⟩ => ?_, fun _ => ?_⟩ (.inl hno)
    · exact absurd hi.hasType (hno i hi.ge hi.le)
    · exact absurd hi.hasType (hno i hi.ge hi.le)
    · exact Int.sub_one_lt_of_le (Int.le_refl t.left)
  | true =>
    rw [if_neg (by simp), h.right]
    have hscan := @scan_ok stabs type (t.left + 1) t.r (t.r - t.left).toNat (by omega)
    generalize (scan (table stabs) type (t.left + 1) (t.r - t.left).toNat t.r).run = x at hscan
    constructor
    · intro he
      refine .inr (by_contra fun hno => ?_)
      have hlt := he.none fun i hi => hno ⟨i, hi⟩
      rcases h.left with ⟨h₁, -, h₃, ht, -⟩ | ⟨hleft, hnone⟩
      · exact hno ⟨t.left, h₁, by omega, ht, hbelow _ h₁ h₃ ht⟩
      · rcases hscan with hlast | ⟨hx, -⟩
        · have := hlast.ge
          have := hlast.le
          exact hnone x (by omega) (by omega) hlast.hasType
        · dsimp only at hlt
          omega
    · rintro (hno | ⟨i, hi⟩)
      · obtain ⟨i, h₁, h₂, ht⟩ := h.some hany
        exact absurd ht (hno i h₁ h₂)
      · have hin : ∀ j, Covers stabs type addr L R j → j ≤ t.r := fun j hj => by
          by_contra hlt
          exact absurd hj.value (BitVec.not_le.2 (h.above j (by omega) hj.le hj.hasType))
        have hout : ∀ j, Follows stabs type addr L R j → t.r < j := fun j hj => by
          by_contra hle
          exact absurd hj.value (BitVec.not_lt.2 (hbelow j hj.ge (by omega) hj.hasType))
        -- The scan ends at the last stab of the type up to `t.r`.
        obtain ⟨hxL, hxr, hxt, hxlast⟩ : L ≤ x ∧ x ≤ t.r ∧ HasType stabs type x ∧
            ∀ j, x < j → j ≤ t.r → ¬ HasType stabs type j := by
          rcases h.left with ⟨h₁, -, h₃, ht, -⟩ | ⟨-, hnone⟩
          · rcases hscan with hlast | ⟨hx, hnone⟩
            · have := hlast.ge
              exact ⟨by omega, hlast.le, hlast.hasType, hlast.none⟩
            · obtain rfl : x = t.left := by omega
              exact ⟨h₁, h₃, ht, fun j hj => hnone j (by omega)⟩
          · have := hin i hi
            exact absurd hi.hasType (hnone i hi.ge (by omega))
        refine ⟨fun _ => ⟨⟨hxL, by omega, hxt, hbelow x hxL hxr hxt⟩, fun j hj => ?_⟩, fun _ => ?_,
          fun hno => absurd hi (hno i)⟩
        · by_contra hlt
          exact hxlast j (by omega) (hin j hj) hj.hasType
        · rcases h.edge with hr | ⟨hr, ht⟩
          · refine .inr ⟨hr, fun j hj => ?_⟩
            have := hout j hj
            have := hj.le
            omega
          · have hL := h.l_ge
            refine .inl ⟨⟨by omega, by omega, ht, h.above _ (by omega) (by omega) ht⟩, fun j hj => ?_⟩
            have := hout j hj
            omega

/-- The interval does not go back behind `m`, a stab that is below the address looked for. -/
structure Passed (stabs : Int → Stab) (m : Int) (s : Search) : Prop where
  nonneg : 0 ≤ s.l
  right : s.right = s.r
  any : s.anyMatches = true
  l_ge : m ≤ s.l
  r_ge : m ≤ s.r
  value : (stabs m).nValue < s.addr ∨ m < s.l

theorem Passed.round (h : Passed stabs m s) (hround : Round stabs type s t) : Passed stabs m t := by
  have hge := Search.trueM_ge h.nonneg hround.start
  have h0 := h.nonneg
  have hl := h.l_ge
  have hr := h.r_ge
  cases hround with
  | none => exact ⟨by dsimp only; omega, h.right, h.any, by dsimp only; omega, hr, .inr (by dsimp only; omega)⟩
  | less => exact ⟨by dsimp only; omega, h.right, rfl, by dsimp only; omega, hr, .inr (by dsimp only; omega)⟩
  | greater _ hlast hv =>
    rename_i i hlr
    have hi := hlast.ge
    refine ⟨h0, rfl, rfl, hl, ?_, h.value⟩
    rcases h.value with hlt | hlt
    · have hne : i ≠ m := fun heq => BitVec.lt_asymm hv (heq ▸ hlt)
      dsimp only
      omega
    · dsimp only
      omega
  | exact _ hlast hv =>
    rename_i i hlr
    have hi := hlast.ge
    refine ⟨by dsimp only; omega, h.right, rfl, by dsimp only; omega, hr, .inr ?_⟩
    rcases h.value with hlt | hlt
    · have hne : i ≠ m := fun heq => BitVec.lt_irrefl _ (heq ▸ hv ▸ hlt)
      dsimp only
      omega
    · dsimp only
      omega

theorem Passed.run (h : Passed stabs m s) (hrun : Relation.ReflTransGen (Round stabs type) s t) : Passed stabs m t := by
  induction hrun with
  | refl => exact h
  | tail _ hround ih => exact ih.round hround

/-- A search for the address 0 from `m` on, where all stabs have the last address. -/
structure Wrapped (stabs : Int → Stab) (type : BitVec 8) (m : Int) (s : Search) : Prop where
  nonneg : 0 ≤ s.l
  addr : s.addr = 0
  l : s.l = m
  left : s.left = m
  right : s.right = s.r
  any : s.anyMatches = true
  r_ge : m - 1 ≤ s.r
  hasType : HasType stabs type m
  values : ∀ i, m ≤ i → i ≤ s.r → HasType stabs type i → 0 < (stabs i).nValue

theorem Wrapped.round (h : Wrapped stabs type m s) (hround : Round stabs type s t) : Wrapped stabs type m t := by
  have hlr := hround.start
  have hge := Search.trueM_ge h.nonneg hlr
  have hle := Search.trueM_le h.nonneg hlr
  have hl := h.l
  cases hround with
  | none _ hno => exact absurd h.hasType (hno m (by omega) (by omega))
  | less _ _ hv =>
    rw [h.addr] at hv
    exact absurd hv (Nat.not_lt_zero _)
  | greater _ hlast =>
    have hi := hlast.ge
    have hi' := hlast.le
    exact { h with
      right := rfl
      any := rfl
      r_ge := by dsimp only; omega
      values := fun j h₁ h₂ => h.values j h₁ (by dsimp only at h₂; omega) }
  | exact _ hlast hv =>
    have hi := hlast.ge
    have hi' := hlast.le
    have hpos := h.values _ (by omega) (by omega) hlast.hasType
    rw [hv, h.addr] at hpos
    exact absurd hpos (Nat.lt_irrefl _)

theorem Wrapped.run (h : Wrapped stabs type m s) (hrun : Relation.ReflTransGen (Round stabs type) s t) :
    Wrapped stabs type m t := by
  induction hrun with
  | refl => exact h
  | tail _ hround ih => exact ih.round hround

theorem toNat_add_one {a : Word} (h : a.toNat + 1 < 2 ^ 32) : (a + 1).toNat = a.toNat + 1 := by
  bv_omega

/-- Once a stab that is past `addr` is taken for an exact match, the right end is wrong. -/
theorem Passed.not_encloses (h : Passed stabs m t) (hm : Follows stabs type addr L R m)
    (hc : ∃ i, Covers stabs type addr L R i) :
    ¬ Encloses stabs type addr L R (outcome stabs type t).1 (outcome stabs type t).2 := by
  intro he
  have hright : (outcome stabs type t).2 = t.r := by rw [outcome, if_neg (by simp [h.any]), ← h.right]
  have hr := h.r_ge
  rcases he.next hc with ⟨-, hleast⟩ | ⟨-, hno⟩
  · have := hleast m hm
    omega
  · exact hno m hm

theorem Wrapped.outcome_eq (h : Wrapped stabs type m t) (hend : t.r < t.l) :
    outcome stabs type t = (m - 1, m - 1) := by
  have hr := h.r_ge
  have hl := h.l
  have hright : t.right = m - 1 := by rw [h.right]; omega
  rw [outcome, if_neg (by simp [h.any]), scan_of_lt (by rw [hright, h.left]; omega), hright]

/-- After a second exact match, for `addr + 1`, only the wrap around of the address can help. -/
theorem Matched.encloses_iff {addr : Word} (hu : Matched stabs type (addr + 1) u) (hs : Sorted stabs type L R)
    (h0 : 0 ≤ u.l) (hL : L ≤ u.l) (hR : u.r ≤ R) (haddr : addr.toNat + 1 < 2 ^ 32)
    (hc : ∃ i, Covers stabs type addr L R i) (hrun : Relation.ReflTransGen (Round stabs type) u t) (hend : t.r < t.l) :
    Encloses stabs type addr L R (outcome stabs type t).1 (outcome stabs type t).2 ↔
      addr.toNat + 2 = 2 ^ 32 ∧ Covers stabs type addr L R (u.l - 1) := by
  have hr := hu.r_ge
  have hnat := toNat_add_one haddr
  have hf : Follows stabs type addr L R u.l := ⟨hL, by omega, hu.hasType, hu.value ▸ lt_add_one haddr⟩
  by_cases hwrap : addr.toNat + 2 = 2 ^ 32
  · have hw : Wrapped stabs type u.l u := by
      refine ⟨h0, ?_, rfl, hu.left, hu.right, hu.any, by omega, hu.hasType, fun i h₁ h₂ ht => ?_⟩
      · rw [hu.addr]
        apply BitVec.eq_of_toNat_eq
        rw [BitVec.toNat_add, hnat]
        bv_omega
      · have hle : (addr + 1).toNat ≤ (stabs i).nValue.toNat := hu.value ▸ hs u.l i hL h₁ (by omega) hu.hasType ht
        change 0 < (stabs i).nValue.toNat
        omega
    rw [(hw.run hrun).outcome_eq hend]
    refine ⟨fun he => ⟨hwrap, (he.greatest hc).1⟩, fun ⟨_, hcov⟩ => ⟨fun _ => ⟨hcov, fun j hj => ?_⟩, fun _ => ?_,
      fun hno => absurd hcov (hno _)⟩⟩
    · by_contra hlt
      have hle := hs u.l j hL (by omega) hj.le hu.hasType hj.hasType
      exact absurd hj.value (BitVec.not_le.2 (Nat.lt_of_lt_of_le hf.value hle))
    · rw [Int.sub_add_cancel]
      refine .inl ⟨hf, fun j hj => ?_⟩
      by_contra hlt
      have hle := hs j (u.l - 1) hj.ge (by omega) hcov.le hj.hasType hcov.hasType
      exact absurd hj.value (BitVec.not_lt.2 (BitVec.le_trans hle hcov.value))
  · have hp : Passed stabs u.l u := by
      refine ⟨h0, hu.right, hu.any, Int.le_refl _, hr, .inl ?_⟩
      rw [hu.addr, hu.value]
      exact lt_add_one (by omega)
    exact iff_of_false ((hp.run hrun).not_encloses hf hc) fun h => hwrap h.1

/-- The search finds the enclosing stab if and only if the table lets it be found. -/
theorem stab_search_encloses_iff {addr : Word} {L R : Int} (h0 : 0 ≤ L) (hs : Sorted stabs type L R)
    (haddr : addr.toNat < 2 ^ 32 - 1) :
    Encloses stabs type addr L R (stabBinsearch (table stabs) L R type addr).run.1
      (stabBinsearch (table stabs) L R type addr).run.2 ↔ Findable stabs type addr L R := by
  have hwrap : addr.toNat + 1 < 2 ^ 32 := by omega
  rw [stabBinsearch_eq]
  by_cases hLR : L ≤ R + 1
  · obtain ⟨hrun, hend⟩ := searchLoop_start stabs type addr R h0
    generalize (searchLoop (table stabs) type (2 * (R - L + 1).toNat + 1) ⟨L, R, L, R, false, addr⟩).run = t
      at hrun hend ⊢
    rcases (inv_start h0 hLR).phase hs hrun hend with ⟨hinv, hta, hno⟩ | ⟨v, u, hv, hva, huv, hmatch, hur, hall, hrest⟩
    · rw [hinv.encloses_iff hend fun i hlt => BitVec.le_of_lt (by rwa [hta] at hlt)]
      exact or_congr_right ⟨fun hc => ⟨hc, fun m r _ _ hm => absurd hm (hno m r)⟩, fun hc => hc.1⟩
    · dsimp only at hva hall hmatch
      have hu := hv.round hs huv (.inr (by rwa [hva]))
      have hr := hmatch.r_ge
      have hR := hu.r_le
      have hc : Covers stabs type addr L R u.l := ⟨hu.l_ge, by omega, hmatch.hasType, hmatch.value ▸ BitVec.le_refl _⟩
      have hfind : Findable stabs type addr L R ↔ ∀ m' r', Meets stabs type (addr + 1) u.l u.r m' r' →
          addr.toNat + 2 = 2 ^ 32 ∧ Covers stabs type addr L R (m' - 1) := by
        constructor
        · rintro (hno | ⟨-, h⟩) m' r' hm'
          · exact absurd hc.hasType (hno _ hc.ge hc.le)
          · exact h _ _ _ _ ((hall _ _).2 ⟨rfl, rfl⟩) hm'
        · refine fun h => .inr ⟨⟨_, hc⟩, fun m r m' r' hm hm' => h m' r' ?_⟩
          obtain ⟨rfl, rfl⟩ := (hall _ _).1 hm
          exact hm'
      rw [hfind]
      rcases hu.phase hs hrest hend with ⟨hinv, hta, hno⟩ | ⟨v', u', hv', -, huv', hmatch', hur', hall', hrest'⟩
      · rw [hmatch.addr] at hta hno
        rw [hinv.encloses_iff hend fun i hlt => ?_]
        · exact iff_of_true (.inr ⟨_, hc⟩) fun m' r' hm' => absurd hm' (hno m' r')
        · rw [hta] at hlt
          have hlt' : (stabs i).nValue.toNat < (addr + 1).toNat := hlt
          rw [toNat_add_one hwrap] at hlt'
          exact Nat.le_of_lt_succ hlt'
      · rw [hmatch.addr] at hmatch' hall'
        have hl := huv'.l_le hv'.nonneg
        have h0' := hv'.nonneg
        have hL' := hv'.l_ge
        have hR' := hv'.r_le
        rw [hmatch'.encloses_iff hs (by omega) (by omega) (by omega) hwrap ⟨_, hc⟩ hrest' hend]
        refine ⟨fun h m' r' hm' => ?_, fun h => h _ _ ((hall' _ _).2 ⟨rfl, rfl⟩)⟩
        obtain ⟨rfl, -⟩ := (hall' _ _).1 hm'
        exact h
  · have hno : ∀ i, L ≤ i → i ≤ R → ¬ HasType stabs type i := fun i h₁ h₂ => by omega
    refine iff_of_true ?_ (.inl hno)
    have hstop : (searchLoop (table stabs) type (2 * (R - L + 1).toNat + 1) ⟨L, R, L, R, false, addr⟩).run =
        ⟨L, R, L, R, false, addr⟩ := by
      unfold searchLoop
      rw [if_neg (by dsimp only; omega)]
      rfl
    rw [hstop]
    exact ⟨fun ⟨i, hi⟩ => absurd hi.hasType (hno i hi.ge hi.le), fun ⟨i, hi⟩ => absurd hi.hasType (hno i hi.ge hi.le),
      fun _ => Int.sub_one_lt_of_le (Int.le_refl L)⟩

theorem Meets.value (h : Meets stabs type key l r m r') : (stabs m).nValue = key := by
  induction h with
  | here _ _ hv => exact hv
  | none _ _ _ ih => exact ih
  | less _ _ _ _ ih => exact ih
  | greater _ _ _ _ ih => exact ih

def twoFiles (a b : Word) (i : Int) : Stab := ⟨0, 0x64, 0, 0, if i ≤ 0 then a else b⟩

theorem twoFiles_sorted (h : a ≤ b) : Sorted (twoFiles a b) 0x64 0 1 := by
  intro i j _ hij _ _ _
  unfold twoFiles
  dsimp only
  split <;> split
  · exact BitVec.le_refl _
  · exact h
  · omega
  · exact BitVec.le_refl _

/-- The files are some way apart. -/
theorem stab_search_encloses_apart : Sorted (twoFiles 5 9) 0x64 0 1 ∧
    Encloses (twoFiles 5 9) 0x64 5 0 1 (stabBinsearch (table (twoFiles 5 9)) 0 1 0x64 5).run.1
      (stabBinsearch (table (twoFiles 5 9)) 0 1 0x64 5).run.2 := by
  refine ⟨twoFiles_sorted (by decide), (stab_search_encloses_iff (Int.le_refl 0) (twoFiles_sorted (by decide))
    (by decide)).mpr (.inr ⟨⟨0, by decide, by decide, rfl, by decide⟩, fun m r m' r' _ h => ?_⟩)⟩
  have hv := h.value
  unfold twoFiles at hv
  dsimp only at hv
  split at hv
  · exact absurd hv (by decide)
  · exact absurd hv (by decide)

/-- At adjacent addresses the second file is taken for the first; and before the
first file the result does not say that there is none. -/
theorem stab_search_adjacent : Sorted (twoFiles 5 6) 0x64 0 1 ∧
    (stabBinsearch (table (twoFiles 5 6)) 0 1 0x64 5).run = (1, 1) ∧
    ¬ Encloses (twoFiles 5 6) 0x64 5 0 1 (stabBinsearch (table (twoFiles 5 6)) 0 1 0x64 5).run.1
      (stabBinsearch (table (twoFiles 5 6)) 0 1 0x64 5).run.2 ∧
    (stabBinsearch (table (twoFiles 5 6)) 0 1 0x64 3).run = (-1, -1) := by
  refine ⟨twoFiles_sorted (by decide), by decide, fun h => ?_, by decide⟩
  have hleft := (h.greatest ⟨0, by decide, by decide, rfl, by decide⟩).1.value
  exact absurd hleft (by decide)

end

/-! ## Termination, and what is read -/

section
variable {stabs : Int → Stab} {type : BitVec 8} {s t : Search} {L R : Int}

/-- The table from `L` to `R`; there is nothing to read outside. -/
def inside (stabs : Int → Stab) (L R : Int) : Table Option where
  nStrx i := if L ≤ i ∧ i ≤ R then some (stabs i).nStrx else none
  nType i := if L ≤ i ∧ i ≤ R then some (stabs i).nType else none
  nDesc i := if L ≤ i ∧ i ≤ R then some (stabs i).nDesc else none
  nValue i := if L ≤ i ∧ i ≤ R then some (stabs i).nValue else none

structure Within (L R : Int) (s : Search) : Prop where
  l : L ≤ s.l
  r : s.r ≤ R
  left : L ≤ s.left
  right : s.right ≤ R

theorem Within.round (h : Within L R s) (h0 : 0 ≤ L) (hround : Round stabs type s t) : Within L R t := by
  have hl := h.l
  have hr := h.r
  have hge := Search.trueM_ge (by omega) hround.start
  have hle := Search.trueM_le (by omega) hround.start
  cases hround with
  | none => exact ⟨by dsimp only; omega, hr, h.left, h.right⟩
  | less _ hlast =>
    have := hlast.ge
    exact ⟨by dsimp only; omega, hr, by dsimp only; omega, h.right⟩
  | greater _ hlast =>
    have := hlast.le
    exact ⟨hl, by dsimp only; omega, h.left, by dsimp only; omega⟩
  | exact _ hlast =>
    have := hlast.ge
    exact ⟨by dsimp only; omega, hr, by dsimp only; omega, h.right⟩

theorem scan_inside {lo hi : Int} (hlo : L ≤ lo) (hhi : hi ≤ R) :
    scan (inside stabs L R) type lo k hi = some (scan (table stabs) type lo k hi).run := by
  induction k generalizing hi with
  | zero => rfl
  | succ k ih =>
    by_cases h : lo ≤ hi
    · rw [scan_succ h, scan, if_pos h]
      change (if L ≤ hi ∧ hi ≤ R then some (stabs hi).nType else none) >>= _ = _
      rw [if_pos ⟨by omega, hhi⟩, apply_ite some, ← ih (by omega)]
      rfl
    · rw [scan_of_lt (by omega), scan, if_neg h]
      rfl

theorem searchStep_inside (h : Within L R s) (h0 : 0 ≤ L) (hlr : s.l ≤ s.r) :
    searchStep (inside stabs L R) type s = some (searchStep (table stabs) type s).run := by
  have hl := h.l
  have hr := h.r
  have hle := Search.trueM_le (by omega) hlr
  have hscan := @scan_ok stabs type s.l s.trueM _ (Int.self_le_toNat _)
  unfold searchStep
  rw [scan_inside hl (by omega), Option.bind_eq_bind, Option.bind_some, Id.run_bind]
  generalize (scan (table stabs) type s.l (s.trueM - s.l + 1).toNat s.trueM).run = m at hscan ⊢
  split
  · rfl
  · have hm : m ≤ s.trueM := by
      rcases hscan with hlast | ⟨heq, -⟩
      · exact hlast.le
      · omega
    have hread : (inside stabs L R).nValue m = some (stabs m).nValue := if_pos ⟨by omega, by omega⟩
    rw [hread]
    change (if (stabs m).nValue < s.addr then _ else if s.addr < (stabs m).nValue then _ else _) =
      some (Id.run (if (stabs m).nValue < s.addr then _ else if s.addr < (stabs m).nValue then _ else _))
    split
    · rfl
    · split <;> rfl

theorem searchLoop_inside (h : Within L R s) (h0 : 0 ≤ L) :
    searchLoop (inside stabs L R) type k s = some (searchLoop (table stabs) type k s).run := by
  induction k generalizing s with
  | zero => rfl
  | succ k ih =>
    unfold searchLoop
    split
    · rename_i hlr
      rw [searchStep_inside h h0 hlr, Id.run_bind]
      exact ih (h.round h0 (searchStep_round hlr))
    · rfl

theorem within_start : Within L R ⟨L, R, L, R, false, addr⟩ :=
  ⟨Int.le_refl L, Int.le_refl R, Int.le_refl L, Int.le_refl R⟩

theorem Within.run (h : Within L R s) (h0 : 0 ≤ L) (hrun : Relation.ReflTransGen (Round stabs type) s t) :
    Within L R t := by
  induction hrun with
  | refl => exact h
  | tail _ hround ih => exact ih.round h0 hround

/-- Whatever the table holds, the search ends after finitely many rounds, reads
nothing outside of its bounds and computes no `l + r` that overflows. -/
theorem stab_search_ends_inside (stabs : Int → Stab) (type : BitVec 8) (addr : Word) (h0 : 0 ≤ L) (hR : R < 2 ^ 30) :
    (∃ t, Relation.ReflTransGen (Round stabs type) ⟨L, R, L, R, false, addr⟩ t ∧ t.r < t.l ∧
      stabBinsearch (inside stabs L R) L R type addr = some (outcome stabs type t)) ∧
    ∀ s, Relation.ReflTransGen (Round stabs type) ⟨L, R, L, R, false, addr⟩ s → s.l ≤ s.r → s.l + s.r < 2 ^ 31 := by
  constructor
  · obtain ⟨hrun, hend⟩ := searchLoop_start stabs type addr R h0
    refine ⟨_, hrun, hend, ?_⟩
    unfold stabBinsearch outcome
    rw [searchLoop_inside within_start h0, Option.bind_eq_bind, Option.bind_some]
    have hin := within_start.run h0 hrun
    generalize (searchLoop (table stabs) type (2 * (R - L + 1).toNat + 1) ⟨L, R, L, R, false, addr⟩).run = t at hin ⊢
    split
    · rfl
    · rw [scan_inside (by have := hin.left; omega) hin.right]
      rfl
  · intro s hrun hlr
    have := (within_start.run h0 hrun).r
    omega

theorem stab_search_ends_inside_last : ∃ t, Relation.ReflTransGen (Round (twoFiles 5 9) 0x64) ⟨0, 1, 0, 1, false, 0xFFFFFFFF⟩ t ∧
    t.r < t.l ∧ stabBinsearch (inside (twoFiles 5 9) 0 1) 0 1 0x64 0xFFFFFFFF = some (outcome (twoFiles 5 9) 0x64 t) :=
  (stab_search_ends_inside (twoFiles 5 9) 0x64 0xFFFFFFFF (Int.le_refl 0) (by decide)).1

end

end Jos.Stabs
