import Jos.Kern.Mmu
import Mathlib.Data.Finset.Interval

/-!
# The ends of a pipe (`lib/pipe.c`, `lib/fd.c`, `lib/fork.c`, `lib/spawn.c`)

Environments on one CPU share the two `Fd` pages and the data page of a pipe.
An address space is kept from `FDTABLE` on, by page: descriptor `i` has its
`Fd` page at `i` and its data page at `MAXFD + i`. A library call is the list
of system calls it still has to make, and the CPU may switch to another
environment between any two of them.
-/

namespace Jos.PipeEnds

open Function (update update_of_ne update_self)

inductive End where
  | read
  | write
deriving DecidableEq

def End.other : End → End
  | read => write
  | write => read

/-- The pages of the pipe, and all other pages. -/
inductive Page where
  | fd (x : End)
  | data
  | foreign
deriving DecidableEq

@[irreducible] def nenv : Nat := 1024
def maxfd : Nat := 32

/-- The pages from `FDTABLE` up to the two below `UXSTACKTOP`. -/
@[irreducible] def areaPages : Nat := 0xEEC00 - 2 - 0xD0000

theorem two_maxfd_le : 2 * maxfd ≤ areaPages := by
  simp [areaPages, maxfd]

abbrev Space := Nat → Option Page

inductive Instr where
  /-- `sys_page_unmap(0, k)`. -/
  | unmap (k : Nat)
  /-- `sys_page_map(0, k, 0, k', ..)` if there is a page at `k`. -/
  | map (k k' : Nat)
  /-- `sys_page_map(0, k, child, k, ..)` if there is a page at `k`. -/
  | share (child k : Nat)
  /-- `sys_page_map(0, k, 0, k, ..)`. -/
  | remap (k : Nat)
  /-- `sys_env_set_status(child, ENV_RUNNABLE)`. -/
  | start (child : Nat)
deriving DecidableEq

/-- How far a `_pipeisclosed` has come: what it has read. -/
inductive Stage where
  | start
  | runs (n : Word)
  | fdRef (n : Word) (a : Nat)
  | pRef (n : Word) (a b : Nat)

/-- `embryo` is an environment still being forked or spawned. In a check of
descriptor `i`, `since` counts how often the environment was switched to since
the first load of `env_runs`; it is not part of the program. -/
inductive Op where
  | free
  | embryo
  | calls (todo : List Instr)
  | check (i : Nat) (stage : Stage) (since : Nat)

structure Env where
  space : Space
  runs : Word
  op : Op

structure State where
  envs : Nat → Env
  cur : Option Nat

def State.places (s : State) (q : Page) : Finset (Nat × Nat) :=
  (Finset.range nenv ×ˢ Finset.range areaPages).filter fun x => (s.envs x.1).space x.2 = some q

/-- `pp_ref`, 16 bits. -/
def State.ppRef (s : State) (q : Page) : Nat := (s.places q).card % 2 ^ 16

def State.pageref (s : State) (e k : Nat) : Nat := ((s.envs e).space k).elim 0 s.ppRef

/-! ## The library calls -/

def close (space : Space) (j : Nat) : List Instr :=
  if maxfd ≤ j then
    []
  else
    match space j with
    | none => []
    | some (.fd _) => [.unmap j, .unmap (maxfd + j), .unmap j]
    | some _ => [.unmap j]

def dup (space : Space) (i j : Nat) : List Instr :=
  if maxfd ≤ i ∨ space i = none then
    []
  else
    close space j ++ [.map (maxfd + i) (maxfd + j), .map i j]

/-- The part of `fork` that copies pages, and the start of the child. -/
def fork (child : Nat) : List Instr :=
  (List.range areaPages).flatMap (fun k => [.share child k, .remap k]) ++ [.start child]

/-- `copy_shared_pages`, and the start of the child. -/
def spawn (child : Nat) : List Instr :=
  (List.range areaPages).map (.share child) ++ [.start child]

/-- What a system call does to the caller's own address space. -/
def Instr.apply (space : Space) : Instr → Space
  | .unmap k => update space k none
  | .map k k' => if space k = none then space else update space k' (space k)
  | _ => space

/-- What it does to other environments. -/
def Instr.give (space : Space) (s : State) : Instr → State
  | .share c k =>
    if space k = none then s
    else { s with envs := update s.envs c { s.envs c with space := update (s.envs c).space k (space k) } }
  | .start c => { s with envs := update s.envs c { s.envs c with op := .calls [] } }
  | _ => s

def State.set (s : State) (e : Nat) (v : Env) : State := { s with envs := update s.envs e v }

def State.setOp (s : State) (e : Nat) (op : Op) : State := s.set e { s.envs e with op := op }

/-- The first of the calls environment `e` has to make. -/
def State.sys (s : State) (e : Nat) (x : Instr) (l : List Instr) : State :=
  x.give (s.envs e).space (s.set e { s.envs e with space := x.apply (s.envs e).space, op := .calls l })

def Op.scheduled : Op → Op
  | .check i st n => .check i st (n + 1)
  | op => op

def State.switch (s : State) (e : Nat) : State :=
  { s.set e { s.envs e with runs := (s.envs e).runs + 1, op := (s.envs e).op.scheduled } with cur := some e }

def State.exofork (s : State) (e c : Nat) (todo : List Instr) : State :=
  (s.setOp e (.calls todo)).set c ⟨fun _ => none, 0, .embryo⟩

def State.exit (s : State) (e : Nat) : State :=
  { s.set e { s.envs e with space := fun _ => none, op := .free } with cur := none }

/-- The next load of `_pipeisclosed`, or its return. -/
def State.check (s : State) (e i : Nat) (since : Nat) : Stage → State
  | .start => s.setOp e (.check i (.runs (s.envs e).runs) 0)
  | .runs n => s.setOp e (.check i (.fdRef n (s.pageref e i)) since)
  | .fdRef n a => s.setOp e (.check i (.pRef n a (s.pageref e (maxfd + i))) since)
  | .pRef n _ _ => s.setOp e (if (s.envs e).runs = n then .calls [] else .check i .start since)

def Op.Alive : Op → Prop
  | .calls _ | .check .. => True
  | _ => False

inductive Step : State → State → Prop
  | switch : (s.envs e).op.Alive → s.cur ≠ some e → Step s (s.switch e)
  | halt : Step s { s with cur := none }
  | exit : s.cur = some e → (s.envs e).op.Alive → Step s (s.exit e)
  | close : s.cur = some e → (s.envs e).op = .calls [] →
    Step s (s.setOp e (.calls (close (s.envs e).space j)))
  | dup : s.cur = some e → (s.envs e).op = .calls [] →
    Step s (s.setOp e (.calls (dup (s.envs e).space i j)))
  | fork : s.cur = some e → (s.envs e).op = .calls [] → (s.envs c).op = .free → c < nenv →
    Step s (s.exofork e c (fork c))
  | spawn : s.cur = some e → (s.envs e).op = .calls [] → (s.envs c).op = .free → c < nenv →
    Step s (s.exofork e c (spawn c))
  | sys : s.cur = some e → (s.envs e).op = .calls (x :: l) → Step s (s.sys e x l)
  /-- A `sys_page_map` of `dup` fails. -/
  | fail : s.cur = some e → (s.envs e).op = .calls (.map k k' :: l) →
    Step s (s.setOp e (.calls [.unmap (k' % maxfd), .unmap (maxfd + k' % maxfd)]))
  | startCheck : s.cur = some e → (s.envs e).op = .calls [] → i < maxfd →
    (s.envs e).space i = some (.fd x) → Step s (s.setOp e (.check i .start 0))
  | check : s.cur = some e → (s.envs e).op = .check i st since → Step s (s.check e i since st)

/-- `_pipeisclosed` returns 1 in environment `e`, asked for end `x`. -/
def State.Returns (s : State) (e : Nat) (x : End) (since : Nat) : Prop :=
  s.cur = some e ∧ ∃ i n a, (s.envs e).op = .check i (.pRef n a a) since ∧ (s.envs e).runs = n ∧
    (s.envs e).space i = some (.fd x)

/-- An environment sees its descriptors whole. -/
def Paired (space : Space) : Prop := ∀ i x, space i = some (.fd x) → space (maxfd + i) = some .data

def Placed (space : Space) : Prop :=
  (∀ k x, space k = some (.fd x) → k < maxfd) ∧ ∀ k, space k = some .data → maxfd ≤ k ∧ k < 2 * maxfd

/-- No `Fd` page of the pipe is mapped without the data page. -/
def State.Settled (s : State) : Prop := ∀ e, Paired (s.envs e).space

/-- Environments share the pipe and no call is under way. -/
structure State.Start (s : State) : Prop where
  idle : ∀ e, (s.envs e).op = .free ∨ (s.envs e).op = .calls []
  dead : ∀ e, (s.envs e).op = .free → (s.envs e).space = fun _ => none
  range : ∀ e, nenv ≤ e → (s.envs e).op = .free
  placed : ∀ e, Placed (s.envs e).space
  paired : ∀ e, Paired (s.envs e).space

/-- No `dup` to a number that is no descriptor is under way. -/
def State.InRange (s : State) : Prop := ∀ e l, (s.envs e).op = .calls l → ∀ k k', .map k k' ∈ l → k' < 2 * maxfd

def RangedRuns (s t : State) : Prop := Relation.ReflTransGen (fun s t => Step s t ∧ t.InRange) s t

/-! ## Counts -/

theorem State.mem_places {s : State} {x : Nat × Nat} :
    x ∈ s.places q ↔ (x.1 < nenv ∧ x.2 < areaPages) ∧ (s.envs x.1).space x.2 = some q := by
  simp [places]

-- A count of places must not be evaluated by the unifier.
attribute [irreducible] State.places

def dataOf (x : Nat × Nat) : Nat × Nat := (x.1, maxfd + x.2)

theorem dataOf_injective : Function.Injective dataOf := by
  rintro ⟨e, k⟩ ⟨e', k'⟩ h
  simp only [dataOf, Prod.mk.injEq, Nat.add_right_inj] at h
  simp [h]

section
variable {s : State} {q : Page} (hp : ∀ e, Placed (s.envs e).space) (hq : q ≠ .foreign)
include hp hq

/-- At most one `Fd` page and one data page for each descriptor of each
environment, so that `pp_ref` does not run over. -/
theorem State.card_places_le : (s.places q).card ≤ nenv * maxfd := by
  cases q with
  | foreign => exact absurd rfl hq
  | fd x =>
    have hsub : s.places (.fd x) ⊆ Finset.range nenv ×ˢ Finset.range maxfd := by
      refine Finset.subset_iff.2 fun y hy => ?_
      have hy := mem_places.1 hy
      exact Finset.mem_product.2 ⟨Finset.mem_range.2 hy.1.1, Finset.mem_range.2 ((hp y.1).1 y.2 x hy.2)⟩
    simpa using Finset.card_le_card hsub
  | data =>
    have hsub : s.places .data ⊆ (Finset.range nenv ×ˢ Finset.range maxfd).image dataOf := by
      refine Finset.subset_iff.2 fun y hy => ?_
      have hy := mem_places.1 hy
      have hk := (hp y.1).2 y.2 hy.2
      have hlt : y.2 - maxfd < maxfd := by omega
      have hadd : maxfd + (y.2 - maxfd) = y.2 := by omega
      refine Finset.mem_image.2 ⟨(y.1, y.2 - maxfd), ?_, Prod.ext rfl hadd⟩
      exact Finset.mem_product.2 ⟨Finset.mem_range.2 hy.1.1, Finset.mem_range.2 hlt⟩
    exact (Finset.card_le_card hsub).trans ((Finset.card_image_le).trans (by simp))

theorem State.ppRef_eq : s.ppRef q = (s.places q).card := by
  have hle := s.card_places_le hp hq
  have hsmall : nenv * maxfd < 2 ^ 16 := by simp [nenv, maxfd]
  exact Nat.mod_eq_of_lt (hle.trans_lt hsmall)

end

section
variable {s : State} (h : s.Settled) (hp : ∀ e, Placed (s.envs e).space)
include h hp

/-- With no `Fd` page alone, the data page is mapped as often as both ends together. -/
theorem State.Settled.card_add_le (x : End) :
    (s.places (.fd x)).card + (s.places (.fd x.other)).card ≤ (s.places .data).card := by
  have hdisj : Disjoint (s.places (.fd x)) (s.places (.fd x.other)) := by
    rw [Finset.disjoint_left]
    intro y hy hy'
    have h₁ := (mem_places.1 hy).2
    rw [(mem_places.1 hy').2] at h₁
    cases x <;> cases h₁
  rw [← Finset.card_union_of_disjoint hdisj]
  refine Finset.card_le_card_of_injOn dataOf (fun y hy => ?_) dataOf_injective.injOn
  have hy : ∃ z, y ∈ s.places (.fd z) := (Finset.mem_union.1 hy).elim (fun h => ⟨_, h⟩) fun h => ⟨_, h⟩
  obtain ⟨z, hy⟩ := hy
  obtain ⟨⟨h₁, h₂⟩, hy⟩ := mem_places.1 hy
  have hlt := (hp y.1).1 y.2 z hy
  refine mem_places.2 ⟨⟨h₁, ?_⟩, h y.1 y.2 z hy⟩
  have hle := two_maxfd_le
  simp only [dataOf]
  omega

/-- The argument of `_pipeisclosed`. -/
theorem State.Settled.other_end_closed
    (hr : ∀ e, nenv ≤ e → (s.envs e).space = fun _ => none) (heq : s.ppRef (.fd x) = s.ppRef .data) :
    ∀ e k, (s.envs e).space k ≠ some (.fd x.other) := by
  intro e k hk
  have hle := h.card_add_le hp x
  rw [s.ppRef_eq hp (q := .fd x) nofun, s.ppRef_eq hp (q := .data) nofun] at heq
  have hnone : (s.places (.fd x.other)).card = 0 := by omega
  have hlt := (hp e).1 k x.other hk
  have hmem : (e, k) ∈ s.places (.fd x.other) := by
    refine mem_places.2 ⟨⟨?_, ?_⟩, hk⟩
    · by_contra hge
      rw [hr e (by simpa using hge)] at hk
      cases hk
    · have hle := two_maxfd_le
      dsimp only
      omega
  rw [Finset.card_eq_zero.1 hnone] at hmem
  simp at hmem

end

/-! ## The invariant -/

def Good (space : Space) : Prop := Placed space ∧ Paired space

/-- After each of the calls to make, the caller sees its descriptors whole. -/
def Sound (space : Space) : List Instr → Prop
  | [] => True
  | x :: l => Good (x.apply space) ∧ Sound (x.apply space) l

/-- Environment `e` copies its pages to `c`, with `l` still to do. -/
structure Filling (s : State) (e : Nat) (l : List Instr) (c : Nat) : Prop where
  embryo : (s.envs c).op = .embryo
  last : ∃ l', l = l' ++ [.start c] ∧ ∀ x ∈ l', (∃ k, x = .share c k) ∨ ∃ k, x = .remap k
  sub : ∀ k, (s.envs c).space k = none ∨ (s.envs c).space k = (s.envs e).space k
  copied : ∀ k, k < areaPages → .share c k ∉ l → (s.envs e).space k ≠ none →
    (s.envs c).space k = (s.envs e).space k

/-- What a check has loaded is what it would load now, unless another
environment has run since. -/
def Stage.Ok (s : State) (e i since : Nat) : Stage → Prop
  | .start => True
  | .runs n => (s.envs e).runs = n + BitVec.ofNat 32 since
  | .fdRef n a => (s.envs e).runs = n + BitVec.ofNat 32 since ∧
    (s.cur = some e → since = 0 → a = s.pageref e i)
  | .pRef n a b => (s.envs e).runs = n + BitVec.ofNat 32 since ∧
    (s.cur = some e → since = 0 → a = s.pageref e i ∧ b = s.pageref e (maxfd + i))

structure EnvOk (s : State) (e : Nat) : Prop where
  placed : Placed (s.envs e).space
  dead : (s.envs e).op = .free → (s.envs e).space = fun _ => none
  range : nenv ≤ e → (s.envs e).op = .free
  paired : (s.envs e).op ≠ .embryo → Paired (s.envs e).space
  todo : ∀ l, (s.envs e).op = .calls l → Sound (s.envs e).space l
  shares : ∀ l c k, (s.envs e).op = .calls l → .share c k ∈ l → .start c ∈ l
  family : ∀ l c, (s.envs e).op = .calls l → .start c ∈ l → Filling s e l c
  checks : ∀ i st n, (s.envs e).op = .check i st n → (∃ x, (s.envs e).space i = some (.fd x)) ∧ st.Ok s e i n

def ChildOf (s : State) (c e : Nat) : Prop := ∃ l, (s.envs e).op = .calls l ∧ .start c ∈ l

structure State.Ok (s : State) : Prop where
  env : ∀ e, EnvOk s e
  alone : ∀ c e e', ChildOf s c e → ChildOf s c e' → e = e'

theorem Stage.Ok.congr {st : Stage} (h : st.Ok s e i n) (he : (t.envs e).runs = (s.envs e).runs)
    (hcur : t.cur ≠ some e) : st.Ok t e i n := by
  cases st with
  | start => trivial
  | runs m => exact he.trans h
  | fdRef m a => exact ⟨he.trans h.1, fun h' => absurd h' hcur⟩
  | pRef m a b => exact ⟨he.trans h.1, fun h' => absurd h' hcur⟩

theorem Filling.congr (h : Filling s e l c) (he : t.envs e = s.envs e) (hc : t.envs c = s.envs c) :
    Filling t e l c := by
  refine ⟨?_, h.last, ?_, ?_⟩
  all_goals simp only [he, hc]
  · exact h.embryo
  · exact h.sub
  · exact h.copied

theorem EnvOk.congr (h : EnvOk s e) (he : t.envs e = s.envs e) (hc : ∀ c, ChildOf s c e → t.envs c = s.envs c)
    (hcur : t.cur ≠ some e) : EnvOk t e := by
  constructor
  all_goals simp only [he]
  · exact h.placed
  · exact h.dead
  · exact h.range
  · exact h.paired
  · exact h.todo
  · exact h.shares
  · exact fun l c hl hs => (h.family l c hl hs).congr he (hc c ⟨l, hl, hs⟩)
  · exact fun i st n ho => ⟨(h.checks i st n ho).1, (h.checks i st n ho).2.congr (by rw [he]) hcur⟩

theorem ChildOf.embryo (h : ChildOf s c e) (hok : s.Ok) : (s.envs c).op = .embryo := by
  obtain ⟨l, hl, hs⟩ := h
  exact ((hok.env e).family l c hl hs).embryo

/-- Only the environments of `P` are changed, and at most `e` has a new child. -/
theorem State.Ok.frame {s t : State} (h : s.Ok) (P : Nat → Prop) (hsame : ∀ e', ¬ P e' → t.envs e' = s.envs e')
    (hcur : ∀ e', t.cur = some e' → P e') (hkid : ∀ c e', ChildOf s c e' → ¬ P e' → ¬ P c) (hok : ∀ e', P e' → EnvOk t e')
    (hchild : ∀ c e', P e' → ChildOf t c e' → ChildOf s c e' ∨ (e' = e ∧ ∀ e'', ¬ ChildOf s c e'')) : t.Ok := by
  have hold : ∀ {c e'}, ChildOf t c e' → ChildOf s c e' ∨ (e' = e ∧ ∀ e'', ¬ ChildOf s c e'') := by
    intro c e' hc
    by_cases hp : P e'
    · exact hchild c e' hp hc
    · obtain ⟨l, hl, hs⟩ := hc
      exact .inl ⟨l, hsame e' hp ▸ hl, hs⟩
  refine ⟨fun e' => ?_, fun c e₁ e₂ h₁ h₂ => ?_⟩
  · by_cases hp : P e'
    · exact hok e' hp
    · exact (h.env e').congr (hsame e' hp) (fun c hc => hsame c (hkid c e' hc hp)) fun hc => hp (hcur e' hc)
  · rcases hold h₁ with h₁ | ⟨rfl, hn⟩ <;> rcases hold h₂ with h₂ | ⟨h₂, hn'⟩
    · exact h.alone c e₁ e₂ h₁ h₂
    · exact absurd h₁ (hn' e₁)
    · exact absurd h₂ (hn e₂)
    · exact h₂.symm

theorem State.Ok.set {s : State} (h : s.Ok) (he : (s.envs e).op ≠ .embryo) (hcur : s.cur = some e)
    (hv : EnvOk (s.set e v) e) (hc : ∀ c, ChildOf (s.set e v) c e → ChildOf s c e) : (s.set e v).Ok := by
  refine h.frame (e := e) (· = e) (fun e' hne => update_of_ne hne ..) ?_ ?_ ?_ ?_
  · exact fun e' h' => (Option.some.inj (hcur.symm.trans h')).symm
  · rintro c e' hc' - rfl
    exact he (hc'.embryo h)
  · rintro e' rfl
    exact hv
  · rintro c e' rfl hc'
    exact .inl (hc c hc')

theorem Op.Alive.ne_embryo {op : Op} (h : op.Alive) : op ≠ .embryo := by
  rintro rfl
  exact h

theorem EnvOk.lt (h : EnvOk s e) (hop : (s.envs e).op ≠ .free) : e < nenv := by
  by_contra hge
  exact hop (h.range (by omega))

theorem EnvOk.lt_of_alive (h : EnvOk s e) (hop : (s.envs e).op.Alive) : e < nenv := by
  refine h.lt fun hf => ?_
  rw [hf] at hop
  exact hop

theorem EnvOk.of_calls (hv : t.envs e = ⟨space, r, .calls l⟩) (hlt : e < nenv) (hg : Good space) (hs : Sound space l)
    (hsh : ∀ c k, .share c k ∈ l → .start c ∈ l) (hf : ∀ c, .start c ∈ l → Filling t e l c) : EnvOk t e := by
  constructor
  all_goals simp only [hv]
  · exact hg.1
  · exact nofun
  · exact fun hr => absurd hlt (by omega)
  · exact fun _ => hg.2
  · rintro l' ⟨rfl⟩
    exact hs
  · rintro l' c k ⟨rfl⟩
    exact hsh c k
  · rintro l' c ⟨rfl⟩
    exact hf c
  · exact nofun

theorem EnvOk.of_embryo (hv : t.envs e = ⟨space, r, .embryo⟩) (hlt : e < nenv) (hp : Placed space) : EnvOk t e := by
  constructor
  all_goals simp only [hv]
  · exact hp
  · exact nofun
  · exact fun hr => absurd hlt (by omega)
  · exact fun hn => absurd rfl hn
  · exact nofun
  · exact nofun
  · exact nofun
  · exact nofun

theorem State.Ok.halt {s : State} (h : s.Ok) : State.Ok { s with cur := none } := by
  refine ⟨fun e => ?_, h.alone⟩
  exact (h.env e).congr rfl (fun _ _ => rfl) nofun

/-! ## The calls keep descriptors whole -/

def after (space : Space) (l : List Instr) : Space := l.foldl Instr.apply space

theorem sound_append : Sound space (l ++ l') ↔ Sound space l ∧ Sound (after space l) l' := by
  induction l generalizing space with
  | nil => simp [Sound, after]
  | cons x l ih => simp only [List.cons_append, Sound, ih, after, List.foldl_cons, and_assoc]

theorem Sound.good (h : Sound space l) (hg : Good space) : Good (after space l) := by
  induction l generalizing space with
  | nil => exact hg
  | cons x l ih => exact ih h.2 h.1

theorem Placed.set (h : Placed space) (hfd : ∀ x, q = some (.fd x) → k < maxfd)
    (hdata : q = some .data → maxfd ≤ k ∧ k < 2 * maxfd) : Placed (update space k q) := by
  refine ⟨fun i x hi => ?_, fun i hi => ?_⟩
  · by_cases hik : i = k
    · rw [hik, update_self] at hi
      exact hik ▸ hfd x hi
    · exact h.1 i x (by simpa [hik] using hi)
  · by_cases hik : i = k
    · rw [hik, update_self] at hi
      exact hik ▸ hdata hi
    · exact h.2 i (by simpa [hik] using hi)

theorem Placed.update_none (h : Placed space) : Placed (update space k none) := h.set nofun nofun

theorem Good.unmap_fd (h : Good space) (hj : j < maxfd) : Good (update space j none) := by
  refine ⟨h.1.update_none, fun i x hi => ?_⟩
  by_cases hij : i = j
  · simp [hij] at hi
  · have hne : maxfd + i ≠ j := by omega
    rw [update_of_ne hij] at hi
    rw [update_of_ne hne]
    exact h.2 i x hi

theorem Good.unmap_data (h : Good space) (hj : space j = none) : Good (update space (maxfd + j) none) := by
  refine ⟨h.1.update_none, fun i x hi => ?_⟩
  have hlt := h.1.update_none.1 i x hi
  rw [update_of_ne (by omega)] at hi
  have hij : i ≠ j := by
    rintro rfl
    rw [hj] at hi
    cases hi
  rw [update_of_ne (by omega)]
  exact h.2 i x hi

theorem Good.unmap_both (h : Good space) (hj : j < maxfd) : Sound space [.unmap j, .unmap (maxfd + j)] := by
  have h₁ := h.unmap_fd hj
  exact ⟨h₁, h₁.unmap_data (update_self ..), trivial⟩

theorem Good.close (h : Good space) (j : Nat) : Sound space (close space j) := by
  unfold PipeEnds.close
  split
  · trivial
  · rename_i hj
    have hj : j < maxfd := by omega
    split
    · trivial
    · obtain ⟨h₁, h₂, -⟩ := h.unmap_both hj
      exact ⟨h₁, h₂, h₂.unmap_fd hj, trivial⟩
    · exact ⟨h.unmap_fd hj, trivial⟩

theorem after_close (space : Space) (hj : j < maxfd) : after space (close space j) j = none := by
  have hne : j ≠ maxfd + j := by
    unfold maxfd
    omega
  unfold close
  rw [if_neg (by omega)]
  split
  · assumption
  · simp [after, Instr.apply]
  · simp [after, Instr.apply]

section
variable (h : Good space)
include h

theorem Good.map_data (hj : j < maxfd) (hnone : space j = none) :
    Good (Instr.apply space (.map (maxfd + i) (maxfd + j))) := by
  rw [Instr.apply]
  split
  · exact h
  have hplaced : Placed (update space (maxfd + j) (space (maxfd + i))) := by
    refine h.1.set (fun x hx => ?_) fun _ => ⟨by omega, by omega⟩
    have hlt := h.1.1 _ x hx
    omega
  refine ⟨hplaced, fun m x hm => ?_⟩
  have hlt := hplaced.1 m x hm
  rw [update_of_ne (by omega)] at hm
  have hmj : m ≠ j := by
    rintro rfl
    rw [hnone] at hm
    cases hm
  rw [update_of_ne (by omega)]
  exact h.2 m x hm

theorem Good.map_fd (hi : i < maxfd) (hj : j < maxfd)
    (hdata : space i ≠ none → space (maxfd + i) = some .data → space (maxfd + j) = some .data) :
    Good (Instr.apply space (.map i j)) := by
  rw [Instr.apply]
  split
  · exact h
  rename_i hsome
  refine ⟨h.1.set (fun _ _ => hj) fun hd => ?_, fun m x hm => ?_⟩
  · have hle := (h.1.2 i hd).1
    omega
  · have hlt : m < maxfd := by
      by_cases hmj : m = j
      · omega
      · exact h.1.1 m x (by simpa [hmj] using hm)
    rw [update_of_ne (by omega)]
    by_cases hmj : m = j
    · rw [hmj, update_self] at hm
      rw [hmj]
      exact hdata hsome (h.2 i x hm)
    · exact h.2 m x (by simpa [hmj] using hm)

theorem Good.map_both (hi : i < maxfd) (hj : j < maxfd) (hnone : space j = none) :
    Sound space [.map (maxfd + i) (maxfd + j), .map i j] := by
  have h₁ : Good (Instr.apply space (.map (maxfd + i) (maxfd + j))) := h.map_data hj hnone
  refine ⟨h₁, h₁.map_fd hi hj fun _ hd => ?_, trivial⟩
  rw [Instr.apply] at hd ⊢
  by_cases hn : space (maxfd + i) = none
  · simp [hn] at hd
  · by_cases hij : maxfd + i = maxfd + j
    · rw [hij] at hd ⊢
      exact hd
    · simp only [if_neg hn, update_of_ne hij] at hd
      simpa [hn] using hd

theorem Good.dup (hj : j < maxfd) : Sound space (dup space i j) := by
  unfold PipeEnds.dup
  split
  · trivial
  · rename_i hi
    have hi : i < maxfd := by omega
    have hc := h.close j
    exact sound_append.2 ⟨hc, (hc.good h).map_both hi hj (after_close space hj)⟩

theorem sound_of_shares (hl : ∀ x ∈ l, Instr.apply space x = space) : Sound space l := by
  induction l with
  | nil => trivial
  | cons x l ih =>
    have hx := hl x (by simp)
    unfold Sound
    rw [hx]
    exact ⟨h, ih fun y hy => hl y (by simp [hy])⟩

end

/-! ## Steps -/

theorem State.places_congr {s t : State} (h : ∀ e, (t.envs e).space = (s.envs e).space) (q : Page) :
    t.places q = s.places q := by
  ext x
  simp only [mem_places, h]

theorem State.pageref_of_mapped {s : State} (h : (s.envs e).space k = some q) : s.pageref e k = s.ppRef q := by
  rw [pageref, h, Option.elim_some]

theorem State.pageref_congr {s t : State} (h : ∀ e, (t.envs e).space = (s.envs e).space) (e k : Nat) :
    t.pageref e k = s.pageref e k := by
  have hp : t.ppRef = s.ppRef := funext fun q => by rw [ppRef, ppRef, places_congr h]
  rw [pageref, pageref, hp, h]

@[simp] theorem State.set_self (s : State) (e : Nat) (v : Env) : (s.set e v).envs e = v := update_self ..

theorem State.set_of_ne (s : State) (v : Env) (h : e' ≠ e) : (s.set e v).envs e' = s.envs e' := update_of_ne h ..

@[simp] theorem State.set_cur (s : State) (e : Nat) (v : Env) : (s.set e v).cur = s.cur := rfl

theorem State.setOp_space (s : State) (e : Nat) (op : Op) (e' : Nat) :
    ((s.setOp e op).envs e').space = (s.envs e').space := by
  by_cases h : e' = e
  · subst h
    simp [setOp]
  · simp [setOp, set_of_ne s _ h]

namespace State.Ok

variable {s : State}

theorem setCalls (h : s.Ok) (hcur : s.cur = some e) (hop : (s.envs e).op.Alive) (hg : Good space)
    (hs : Sound space l) (hl : ∀ c, .start c ∉ l) (hsh : ∀ c k, .share c k ∉ l) :
    (s.set e { s.envs e with space := space, op := .calls l }).Ok := by
  have hlt := (h.env e).lt_of_alive hop
  refine h.set hop.ne_embryo hcur (.of_calls (set_self ..) hlt hg hs (fun c k hm => absurd hm (hsh c k))
    fun c hm => absurd hm (hl c)) ?_
  rintro c ⟨l', hl', hm⟩
  rw [set_self] at hl'
  cases hl'
  exact absurd hm (hl c)

theorem good (h : s.Ok) (hop : (s.envs e).op = .calls l) : Good (s.envs e).space := by
  exact ⟨(h.env e).placed, (h.env e).paired (by simp [hop])⟩

theorem setCheck (h : s.Ok) (hcur : s.cur = some e) (hop : (s.envs e).op.Alive)
    (hx : (s.envs e).space i = some (.fd x)) (hst : st.Ok (s.setOp e (.check i st n)) e i n) :
    (s.setOp e (.check i st n)).Ok := by
  have hlt := (h.env e).lt_of_alive hop
  refine h.set hop.ne_embryo hcur ⟨?_, ?_, ?_, ?_, ?_, ?_, ?_, ?_⟩ ?_
  all_goals simp only [set_self]
  · exact (h.env e).placed
  · exact nofun
  · exact fun hr => absurd hlt (by omega)
  · exact fun _ => (h.env e).paired hop.ne_embryo
  · exact nofun
  · exact nofun
  · exact nofun
  · rintro i' st' n' ⟨rfl, rfl, rfl⟩
    exact ⟨⟨x, hx⟩, hst⟩
  · rintro c ⟨l', hl', hm⟩
    rw [set_self] at hl'
    cases hl'

theorem exit (h : s.Ok) (hcur : s.cur = some e) (hop : (s.envs e).op ≠ .embryo) : (s.exit e).Ok := by
  have hnone : Placed fun _ => none := ⟨nofun, nofun⟩
  refine (h.set (v := { s.envs e with space := fun _ => none, op := .free }) hop hcur ⟨?_, ?_, ?_, ?_, ?_, ?_, ?_, ?_⟩ ?_).halt
  all_goals simp only [set_self]
  · exact hnone
  · exact fun _ => trivial
  · exact fun _ => trivial
  · exact fun _ => nofun
  · exact nofun
  · exact nofun
  · exact nofun
  · exact nofun
  · rintro c ⟨l', hl', hm⟩
    rw [set_self] at hl'
    cases hl'

theorem switch (h : s.Ok) (hop : (s.envs e).op.Alive) : (s.switch e).Ok := by
  have hcalls : ∀ l, (s.envs e).op.scheduled = .calls l ↔ (s.envs e).op = .calls l := by
    intro l
    cases (s.envs e).op <;> simp [Op.scheduled]
  have hself : (s.switch e).envs e
      = { s.envs e with runs := (s.envs e).runs + 1, op := (s.envs e).op.scheduled } := update_self ..
  have hother : ∀ e', e' ≠ e → (s.switch e).envs e' = s.envs e' := fun e' hne => update_of_ne hne ..
  have hne : ∀ c, (s.envs c).op = .embryo → c ≠ e := by
    rintro c hc rfl
    exact hop.ne_embryo hc
  refine h.frame (e := e) (· = e) hother ?_ ?_ ?_ ?_
  · exact fun e' h' => (Option.some.inj h').symm
  · exact fun c e' hc _ => hne c (hc.embryo h)
  · rintro e' rfl
    have he := h.env e'
    refine ⟨?_, ?_, ?_, ?_, ?_, ?_, ?_, ?_⟩
    all_goals simp only [hself, hcalls]
    · exact he.placed
    · intro hf
      cases ho : (s.envs e').op <;> simp [ho, Op.scheduled, Op.Alive] at hf hop
    · exact fun hr => absurd (he.lt_of_alive hop) (by omega)
    · exact fun _ => he.paired hop.ne_embryo
    · exact he.todo
    · exact he.shares
    · intro l c hl hm
      have hf := he.family l c hl hm
      have hc := hother c (hne c hf.embryo)
      refine ⟨by rw [hc]; exact hf.embryo, hf.last, fun k => ?_, fun k hk hs hn => ?_⟩
      · rw [hc, hself]
        exact hf.sub k
      · rw [hself] at hn ⊢
        rw [hc]
        exact hf.copied k hk hs hn
    · intro i st n ho
      cases hop' : (s.envs e').op with
      | check i' st' n' =>
        rw [hop'] at ho
        simp only [Op.scheduled, Op.check.injEq] at ho
        obtain ⟨rfl, rfl, rfl⟩ := ho
        obtain ⟨hx, hst⟩ := he.checks i' st' n' hop'
        refine ⟨hx, ?_⟩
        have hruns : ∀ m, (s.envs e').runs = m + BitVec.ofNat 32 n' →
            ((s.switch e').envs e').runs = m + BitVec.ofNat 32 (n' + 1) := by
          intro m hm
          rw [hself, BitVec.ofNat_add, ← BitVec.add_assoc, ← hm]
          rfl
        cases st' with
        | start => trivial
        | runs m => exact hruns m hst
        | fdRef m a => exact ⟨hruns m hst.1, fun _ h0 => absurd h0 (Nat.succ_ne_zero n')⟩
        | pRef m a b => exact ⟨hruns m hst.1, fun _ h0 => absurd h0 (Nat.succ_ne_zero n')⟩
      | free => simp [hop', Op.scheduled] at ho
      | embryo => simp [hop', Op.scheduled] at ho
      | calls l => simp [hop', Op.scheduled] at ho
  · rintro c e' rfl ⟨l, hl, hm⟩
    rw [hself] at hl
    exact .inl ⟨l, (hcalls l).1 hl, hm⟩

theorem exofork (h : s.Ok) (hcur : s.cur = some e) (hop : (s.envs e).op = .calls []) (hc : (s.envs c).op = .free)
    (hlt : c < nenv) (hl : todo = l ++ [.start c]) (hi : ∀ x ∈ l, (∃ k, x = .share c k) ∨ ∃ k, x = .remap k)
    (hall : ∀ k, k < areaPages → .share c k ∈ l) : (s.exofork e c todo).Ok := by
  have hne : e ≠ c := by
    rintro rfl
    rw [hop] at hc
    cases hc
  have hchild : (s.exofork e c todo).envs c = ⟨fun _ => none, 0, .embryo⟩ := update_self ..
  have hself : (s.exofork e c todo).envs e = { s.envs e with op := .calls todo } :=
    (set_of_ne _ _ hne).trans (set_self ..)
  have hother : ∀ e', e' ≠ e → e' ≠ c → (s.exofork e c todo).envs e' = s.envs e' :=
    fun e' h₁ h₂ => (set_of_ne _ _ h₂).trans (set_of_ne _ _ h₁)
  -- The new environment was nobody's child.
  have hold : ∀ c' e', ChildOf s c' e' → c' ≠ c ∧ c' ≠ e := by
    intro c' e' hch
    have hem := hch.embryo h
    refine ⟨?_, ?_⟩
    · rintro rfl
      cases hc.symm.trans hem
    · rintro rfl
      cases hop.symm.trans hem
  have hstart : ∀ c', .start c' ∈ todo ↔ c' = c := by
    intro c'
    rw [hl, List.mem_append, List.mem_singleton, Instr.start.injEq]
    refine ⟨?_, .inr⟩
    rintro (hm | hm)
    · rcases hi _ hm with ⟨k, hk⟩ | ⟨k, hk⟩ <;> cases hk
    · exact hm
  refine h.frame (e := e) (fun e' => e' = e ∨ e' = c) (fun e' hn => hother e' (hn ∘ .inl) (hn ∘ .inr)) ?_ ?_ ?_ ?_
  · exact fun e' h' => .inl (Option.some.inj (hcur.symm.trans h')).symm
  · exact fun c' e' hc' _ hp => hp.elim (hold c' e' hc').2 (hold c' e' hc').1
  · rintro e' (rfl | rfl)
    · have hg := h.good hop
      refine .of_calls hself ((h.env e').lt (by simp [hop])) hg (sound_of_shares hg fun x hx => ?_)
        (fun c' k hm => ?_) fun c' hm => ?_
      · rw [hl] at hx
        rcases List.mem_append.1 hx with hx | hx
        · rcases hi x hx with ⟨k, rfl⟩ | ⟨k, rfl⟩ <;> rfl
        · rw [List.mem_singleton.1 hx]
          rfl
      · rw [hstart]
        rw [hl] at hm
        rcases List.mem_append.1 hm with hm | hm
        · rcases hi _ hm with ⟨k', hk⟩ | ⟨k', hk⟩ <;> cases hk
          rfl
        · simp at hm
      · rw [(hstart c').1 hm]
        refine ⟨by rw [hchild], ⟨l, hl, hi⟩, fun k => .inl (by rw [hchild]), fun k hk hs => absurd ?_ hs⟩
        rw [hl]
        exact List.mem_append_left _ (hall k hk)
    · exact .of_embryo hchild hlt ⟨nofun, nofun⟩
  · rintro c' e' (rfl | rfl) ⟨l', hl', hm⟩
    · rw [hself] at hl'
      cases hl'
      exact .inr ⟨rfl, fun e'' hc' => (hold c' e'' hc').1 ((hstart c').1 hm)⟩
    · rw [hchild] at hl'
      cases hl'

end State.Ok

theorem Filling.tail (h : Filling s e (x :: l) c) (hx : .start c ∈ l) :
    ∃ l', l = l' ++ [.start c] ∧ ∀ x ∈ l', (∃ k, x = .share c k) ∨ ∃ k, x = .remap k := by
  obtain ⟨l', hl, hi⟩ := h.last
  cases l' with
  | nil =>
    cases hl
    cases hx
  | cons y l' =>
    cases hl
    exact ⟨l', rfl, fun x hx => hi x (by simp [hx])⟩

theorem EnvOk.pop (h : EnvOk s e) (hop : (s.envs e).op = .calls (x :: l)) (hx : x.apply (s.envs e).space = (s.envs e).space)
    (ht : t.envs e = { s.envs e with op := .calls l }) (hstart : ∀ c, x ≠ .start c)
    (hf : ∀ c, .start c ∈ l → Filling s e (x :: l) c → Filling t e l c) : EnvOk t e := by
  have hs := h.todo _ hop
  unfold Sound at hs
  rw [hx] at hs
  refine .of_calls ht (h.lt (by simp [hop])) hs.1 hs.2 (fun c k hm => ?_) fun c hm => ?_
  · have hmem := h.shares _ c k hop (List.mem_cons_of_mem _ hm)
    exact (List.mem_cons.1 hmem).resolve_left fun he => hstart c he.symm
  · exact hf c hm (h.family _ c hop (List.mem_cons_of_mem _ hm))

namespace State.Ok

variable {s : State}

/-- A page is given to nobody but the child that the environment fills. -/
theorem sys_envs (h : s.Ok) (hop : (s.envs e).op = .calls (x :: l)) (hx : (∃ c k, x = .share c k) ∨ ∃ k, x = .remap k) :
    (s.sys e x l).envs e = { s.envs e with op := .calls l } ∧
    ∀ e', e' ≠ e → ((∀ k, x = .share e' k → (s.envs e).space k = none) ∧ (s.sys e x l).envs e' = s.envs e') ∨
      ∃ k, x = .share e' k ∧ (s.sys e x l).envs e' = { s.envs e' with
        space := update (s.envs e').space k ((s.envs e).space k) } := by
  rcases hx with ⟨c, k, rfl⟩ | ⟨k, rfl⟩
  · have hce : e ≠ c := by
      rintro rfl
      have hm := (h.env e).shares _ e k hop (by simp)
      cases hop.symm.trans ((h.env e).family _ e hop hm).embryo
    by_cases hn : (s.envs e).space k = none
    · have hsys : s.sys e (.share c k) l = s.set e { s.envs e with op := .calls l } := if_pos hn
      rw [hsys]
      refine ⟨set_self .., fun e' he' => .inl ⟨?_, set_of_ne _ _ he'⟩⟩
      rintro k' ⟨rfl, rfl⟩
      exact hn
    · have hsys : s.sys e (.share c k) l = (s.set e { s.envs e with op := .calls l }).set c
          { (s.set e { s.envs e with op := .calls l }).envs c with
            space := update ((s.set e { s.envs e with op := .calls l }).envs c).space k ((s.envs e).space k) } :=
        if_neg hn
      rw [hsys]
      refine ⟨(set_of_ne _ _ hce).trans (set_self ..), fun e' he' => ?_⟩
      by_cases hec : e' = c
      · subst hec
        refine .inr ⟨k, rfl, ?_⟩
        rw [set_self, set_of_ne _ _ he']
      · refine .inl ⟨?_, (set_of_ne _ _ hec).trans (set_of_ne _ _ he')⟩
        rintro k' ⟨rfl, rfl⟩
        exact absurd rfl hec
  · exact ⟨set_self .., fun e' he' => .inl ⟨nofun, set_of_ne _ _ he'⟩⟩

section
variable (h : s.Ok) (hcur : s.cur = some e)
include h hcur

theorem give (hop : (s.envs e).op = .calls (x :: l))
    (hx : (∃ c k, x = .share c k) ∨ ∃ k, x = .remap k) : (s.sys e x l).Ok := by
  have happly : x.apply (s.envs e).space = (s.envs e).space := by
    rcases hx with ⟨c, k, rfl⟩ | ⟨k, rfl⟩ <;> rfl
  have hnot : ∀ c, x ≠ .start c := by
    rcases hx with ⟨c, k, rfl⟩ | ⟨k, rfl⟩ <;> exact nofun
  have hcur' : (s.sys e x l).cur = some e := by
    rcases hx with ⟨c, k, rfl⟩ | ⟨k, rfl⟩
    · unfold sys Instr.give
      dsimp only
      split <;> exact hcur
    · exact hcur
  have he := h.env e
  have hmine : ∀ c k, x = .share c k → ChildOf s c e :=
    fun c k hxk => ⟨_, hop, he.shares _ c k hop (by simp [hxk])⟩
  obtain ⟨hself, hother⟩ := h.sys_envs hop hx
  have hops : ∀ e', e' ≠ e → ((s.sys e x l).envs e').op = (s.envs e').op := by
    intro e' hne
    rcases hother e' hne with ⟨-, hsame⟩ | ⟨k, -, hnew⟩
    · rw [hsame]
    · rw [hnew]
  have hnoc : ∀ {c e'}, ChildOf s c e' → c ≠ e := by
    rintro c e' hc rfl
    cases hop.symm.trans (hc.embryo h)
  refine h.frame (e := e) (fun e' => e' = e ∨ (s.sys e x l).envs e' ≠ s.envs e')
    (fun e' hn => by_contra fun hne => hn (.inr hne)) ?_ ?_ (fun e' hp => ?_) ?_
  · exact fun e' h' => .inl (Option.some.inj (hcur'.symm.trans h')).symm
  · rintro c e' hc hn (rfl | hne)
    · exact hnoc hc rfl
    · rcases hother c (hnoc hc) with ⟨-, hsame⟩ | ⟨k, hxk, -⟩
      · exact hne hsame
      · exact hn (.inl (h.alone c e' e hc (hmine c k hxk)))
  on_goal 1 => by_cases hee : e' = e
  · subst hee
    refine he.pop hop happly hself hnot fun c hm hf => ?_
    have hce := hnoc ⟨_, hop, List.mem_cons_of_mem _ hm⟩
    refine ⟨(hops c hce).trans hf.embryo, hf.tail hm, fun k => ?_, fun k hk hs hn => ?_⟩
    · rw [hself]
      rcases hother c hce with ⟨-, hsame⟩ | ⟨k', -, hnew⟩
      · rw [hsame]
        exact hf.sub k
      · rw [hnew]
        by_cases hkk : k = k'
        · subst hkk
          exact .inr (update_self ..)
        · dsimp only
          rw [update_of_ne hkk]
          exact hf.sub k
    · rw [hself] at hn ⊢
      rcases hother c hce with ⟨hnone, hsame⟩ | ⟨k', hxk, hnew⟩
      · rw [hsame]
        refine hf.copied k hk (fun hmem => ?_) hn
        rcases List.mem_cons.1 hmem with hxk | hmem
        · exact hn (hnone k hxk.symm)
        · exact hs hmem
      · rw [hnew]
        by_cases hkk : k = k'
        · subst hkk
          exact update_self ..
        · refine (update_of_ne hkk ..).trans (hf.copied k hk (fun hmem => ?_) hn)
          rcases List.mem_cons.1 hmem with hxk' | hmem
          · cases hxk'.trans hxk
            exact hkk rfl
          · exact hs hmem
  · rcases hother e' hee with ⟨-, hsame⟩ | ⟨k, hxk, hnew⟩
    · exact absurd hsame (hp.resolve_left hee)
    · have hem := (hmine e' k hxk).embryo h
      have hc := h.env e'
      dsimp only at hnew
      rw [hem] at hnew
      exact .of_embryo hnew (hc.lt (by simp [hem])) (hc.placed.set (he.placed.1 k) (he.placed.2 k))
  · rintro c e' - ⟨l', hl', hm⟩
    by_cases hee : e' = e
    · subst hee
      rw [hself] at hl'
      cases hl'
      exact .inl ⟨_, hop, List.mem_cons_of_mem _ hm⟩
    · rw [hops e' hee] at hl'
      exact .inl ⟨l', hl', hm⟩

theorem start (hop : (s.envs e).op = .calls (.start c :: l)) : (s.sys e (.start c) l).Ok := by
  have he := h.env e
  have hf := he.family _ c hop (by simp)
  have hec : e ≠ c := by
    rintro rfl
    cases hop.symm.trans hf.embryo
  have hl : l = [] := by
    obtain ⟨l', hl', hi⟩ := hf.last
    cases l' with
    | nil => exact (List.cons.inj hl').2
    | cons y l' =>
      rcases hi _ (List.mem_cons_self ..) with ⟨k, hk⟩ | ⟨k, hk⟩
      · cases (List.cons.inj hl').1.trans hk
      · cases (List.cons.inj hl').1.trans hk
  subst hl
  have hself : (s.sys e (.start c) []).envs e = { s.envs e with op := .calls [] } :=
    (set_of_ne _ _ hec).trans (set_self ..)
  have hchild : (s.sys e (.start c) []).envs c = { s.envs c with op := .calls [] } := by
    refine (set_self ..).trans ?_
    rw [set_of_ne _ _ hec.symm]
  have hother : ∀ e', e' ≠ e → e' ≠ c → (s.sys e (.start c) []).envs e' = s.envs e' :=
    fun e' h₁ h₂ => (set_of_ne _ _ h₂).trans (set_of_ne _ _ h₁)
  have hmine : ChildOf s c e := ⟨_, hop, by simp⟩
  have hpaired : Paired (s.envs c).space := by
    intro i y hi
    have hlt := (h.env c).placed.1 i y hi
    have hparent : (s.envs e).space i = some (.fd y) := by
      rcases hf.sub i with hn | heq
      · cases hn.symm.trans hi
      · exact heq.symm.trans hi
    have hdata := he.paired (by simp [hop]) i y hparent
    have hle := two_maxfd_le
    rw [← hdata]
    exact hf.copied (maxfd + i) (by omega) (by simp) (by simp [hdata])
  -- Both environments are now without a call.
  have hidle : ∀ e', (s.envs e').op ≠ .free → (s.sys e (.start c) []).envs e' = { s.envs e' with op := .calls [] } →
      Paired (s.envs e').space → EnvOk (s.sys e (.start c) []) e' := by
    intro e' hne hv hp
    have he' := h.env e'
    exact .of_calls hv (he'.lt hne) ⟨he'.placed, hp⟩ trivial (by simp) (by simp)
  refine h.frame (e := e) (fun e' => e' = e ∨ e' = c) (fun e' hn => hother e' (hn ∘ .inl) (hn ∘ .inr)) ?_ ?_ ?_ ?_
  · exact fun e' h' => .inl (Option.some.inj (hcur.symm.trans h')).symm
  · rintro c' e' hc' hn (rfl | rfl)
    · cases hop.symm.trans (hc'.embryo h)
    · exact hn (.inl (h.alone c' e' e hc' hmine))
  · rintro e' (rfl | rfl)
    · exact hidle e' (by simp [hop]) hself (he.paired (by simp [hop]))
    · exact hidle e' (by simp [hf.embryo]) hchild hpaired
  · rintro c' e' (rfl | rfl) ⟨l', hl', hm⟩
    · rw [hself] at hl'
      cases hl'
      cases hm
    · rw [hchild] at hl'
      cases hl'
      cases hm

theorem check (hop : (s.envs e).op = .check i st n) : (s.check e i n st).Ok := by
  obtain ⟨⟨x, hx⟩, hst⟩ := (h.env e).checks i st n hop
  have halive : (s.envs e).op.Alive := by simp [hop, Op.Alive]
  have hsame : ∀ op k, (s.setOp e op).pageref e k = s.pageref e k :=
    fun op k => pageref_congr (s.setOp_space e op) e k
  have hruns : ∀ op, ((s.setOp e op).envs e).runs = (s.envs e).runs := by simp [setOp]
  cases st with
  | start =>
    refine h.setCheck hcur halive hx ?_
    change ((s.setOp e _).envs e).runs = _ + BitVec.ofNat 32 0
    simp [setOp]
  | runs m => exact h.setCheck hcur halive hx ⟨(hruns _).trans hst, fun _ _ => (hsame ..).symm⟩
  | fdRef m a =>
    refine h.setCheck hcur halive hx ⟨(hruns _).trans hst.1, fun _ h0 => ⟨?_, (hsame ..).symm⟩⟩
    rw [hsame]
    exact hst.2 hcur h0
  | pRef m a b =>
    rw [State.check]
    split
    · have hg : Good (s.envs e).space := ⟨(h.env e).placed, (h.env e).paired (by simp [hop])⟩
      exact h.setCalls hcur halive hg trivial (by simp) (by simp)
    · exact h.setCheck hcur halive hx trivial

end

end State.Ok

theorem close_no_child (space : Space) (j : Nat) : ∀ x ∈ close space j, ∃ k, x = .unmap k := by
  intro x hx
  unfold close at hx
  split at hx
  · cases hx
  · split at hx
    · cases hx
    · simp only [List.mem_cons, List.not_mem_nil, or_false] at hx
      rcases hx with rfl | rfl | rfl <;> exact ⟨_, rfl⟩
    · simp only [List.mem_cons, List.not_mem_nil, or_false] at hx
      exact ⟨j, hx⟩

theorem dup_no_child (space : Space) (i j : Nat) :
    ∀ x ∈ dup space i j, (∃ k, x = .unmap k) ∨ ∃ k k', x = .map k k' := by
  intro x hx
  unfold dup at hx
  split at hx
  · cases hx
  · rcases List.mem_append.1 hx with hx | hx
    · exact .inl (close_no_child space j x hx)
    · simp only [List.mem_cons, List.not_mem_nil, or_false] at hx
      rcases hx with rfl | rfl <;> exact .inr ⟨_, _, rfl⟩

theorem State.Ok.own {s : State} (h : s.Ok) (hcur : s.cur = some e) (hop : (s.envs e).op = .calls (x :: l))
    (hx : (∃ k, x = .unmap k) ∨ ∃ k k', x = .map k k') : (s.sys e x l).Ok := by
  have he := h.env e
  have hstart : ∀ c, .start c ∉ l := by
    intro c hm
    obtain ⟨l', hl', hi⟩ := (he.family _ c hop (List.mem_cons_of_mem _ hm)).last
    cases l' with
    | nil =>
      cases hl'
      cases hm
    | cons y l' =>
      obtain rfl := (List.cons.inj hl').1
      rcases hi x (by simp) with ⟨k, rfl⟩ | ⟨k, rfl⟩ <;> simp at hx
  have hshare : ∀ c k, .share c k ∉ l := by
    intro c k hm
    have hmem := he.shares _ c k hop (List.mem_cons_of_mem _ hm)
    rcases List.mem_cons.1 hmem with hxc | hmem
    · simp [← hxc] at hx
    · exact hstart c hmem
  have hs := he.todo _ hop
  have hgive : s.sys e x l = s.set e { s.envs e with space := x.apply (s.envs e).space, op := .calls l } := by
    rcases hx with ⟨k, rfl⟩ | ⟨k, k', rfl⟩ <;> rfl
  rw [hgive]
  exact h.setCalls hcur (by simp [hop, Op.Alive]) hs.1 hs.2 hstart hshare

theorem State.Ok.dup {s : State} (h : s.Ok) (hcur : s.cur = some e) (hop : (s.envs e).op = .calls [])
    (hr : (s.setOp e (.calls (dup (s.envs e).space i j))).InRange) :
    (s.setOp e (.calls (PipeEnds.dup (s.envs e).space i j))).Ok := by
  have hg := h.good hop
  have hs : Sound (s.envs e).space (PipeEnds.dup (s.envs e).space i j) := by
    by_cases hi : maxfd ≤ i ∨ (s.envs e).space i = none
    · rw [PipeEnds.dup, if_pos hi]
      trivial
    · refine hg.dup ?_
      have hlt := hr e _ (by rw [setOp, set_self]) (maxfd + i) (maxfd + j) (by simp [PipeEnds.dup, hi])
      omega
  refine h.setCalls hcur (by simp [hop, Op.Alive]) hg hs (fun c hm => ?_) fun c k hm => ?_
  · rcases dup_no_child _ _ _ _ hm with ⟨k, hk⟩ | ⟨k, k', hk⟩ <;> cases hk
  · rcases dup_no_child _ _ _ _ hm with ⟨k, hk⟩ | ⟨k, k', hk⟩ <;> cases hk

theorem Step.ok (h : Step s t) (hok : s.Ok) (hr : t.InRange) : t.Ok := by
  cases h with
  | switch hop => exact hok.switch hop
  | halt => exact hok.halt
  | exit hcur hop =>
    refine hok.exit hcur fun he => ?_
    rw [he] at hop
    exact hop
  | close hcur hop =>
    have hg := hok.good hop
    refine hok.setCalls hcur (by simp [hop, Op.Alive]) hg (hg.close _) (fun c hm => ?_) fun c k hm => ?_
    · obtain ⟨k, hk⟩ := close_no_child _ _ _ hm
      cases hk
    · obtain ⟨k, hk⟩ := close_no_child _ _ _ hm
      cases hk
  | dup hcur hop => exact hok.dup hcur hop hr
  | fork hcur hop hc hlt =>
    refine hok.exofork hcur hop hc hlt rfl (fun x hx => ?_) fun k hk => ?_
    · obtain ⟨k, -, hx⟩ := List.mem_flatMap.1 hx
      simp only [List.mem_cons, List.not_mem_nil, or_false] at hx
      rcases hx with rfl | rfl
      · exact .inl ⟨k, rfl⟩
      · exact .inr ⟨k, rfl⟩
    · exact List.mem_flatMap.2 ⟨k, List.mem_range.2 hk, by simp⟩
  | spawn hcur hop hc hlt =>
    refine hok.exofork hcur hop hc hlt rfl (fun x hx => ?_) fun k hk => ?_
    · obtain ⟨k, -, rfl⟩ := List.mem_map.1 hx
      exact .inl ⟨k, rfl⟩
    · exact List.mem_map.2 ⟨k, List.mem_range.2 hk, rfl⟩
  | @sys s e x l hcur hop =>
    cases x with
    | unmap k => exact hok.own hcur hop (.inl ⟨k, rfl⟩)
    | map k k' => exact hok.own hcur hop (.inr ⟨k, k', rfl⟩)
    | share c k => exact hok.give hcur hop (.inl ⟨c, k, rfl⟩)
    | remap k => exact hok.give hcur hop (.inr ⟨k, rfl⟩)
    | start c => exact hok.start hcur hop
  | fail hcur hop =>
    have hg := hok.good hop
    exact hok.setCalls hcur (by simp [hop, Op.Alive]) hg (hg.unmap_both (Nat.mod_lt _ (by decide))) (by simp) (by simp)
  | startCheck hcur hop hi hx => exact hok.setCheck hcur (by simp [hop, Op.Alive]) hx trivial
  | check hcur hop => exact hok.check hcur hop

theorem State.Start.ok {s : State} (h : s.Start) : s.Ok := by
  have hno : ∀ c e, ¬ ChildOf s c e := by
    rintro c e ⟨l, hl, hm⟩
    rcases h.idle e with hi | hi <;> cases hi.symm.trans hl
    cases hm
  refine ⟨fun e => ⟨h.placed e, h.dead e, h.range e, fun _ => h.paired e, fun l hl => ?_, fun l c k hl hm => ?_,
    fun l c hl hm => absurd ⟨l, hl, hm⟩ (hno c e), fun i st n hc => ?_⟩, fun c e _ hc => absurd hc (hno c e)⟩
  · rcases h.idle e with hi | hi <;> cases hi.symm.trans hl
    trivial
  · rcases h.idle e with hi | hi <;> cases hi.symm.trans hl
    cases hm
  · rcases h.idle e with hi | hi <;> cases hi.symm.trans hc

theorem RangedRuns.ok (h : RangedRuns s t) (hok : s.Ok) : t.Ok := by
  induction h with
  | refl => exact hok
  | tail _ hstep ih => exact hstep.1.ok ih hstep.2

/-- `_pipeisclosed` returns 1 only while no environment maps the other end, if
no `Fd` page waits for its data page and `env_runs` has not come around. -/
theorem closed_only_if_closed (hs : s.Start) (h : RangedRuns s t) (hret : t.Returns e x since) (hsince : since < 2 ^ 32)
    (hset : t.Settled) : ∀ e' k, (t.envs e').space k ≠ some (.fd x.other) := by
  have hok := h.ok hs.ok
  obtain ⟨hcur, i, n, a, hop, hruns, hx⟩ := hret
  have hplaced : ∀ e, Placed (t.envs e).space := fun e => (hok.env e).placed
  have hrange : ∀ e, nenv ≤ e → (t.envs e).space = fun _ => none := fun e he => (hok.env e).dead ((hok.env e).range he)
  obtain ⟨-, hcount, hloads⟩ := (hok.env e).checks i _ since hop
  -- The counter is what it was, so no other environment has run.
  have hzero : since = 0 := by
    rw [hruns] at hcount
    have h0 : BitVec.ofNat 32 since = 0#32 := by simpa using hcount.symm
    have hmod := congrArg BitVec.toNat h0
    bv_omega
  obtain ⟨ha, hb⟩ := hloads hcur hzero
  have hdata := hset e i x hx
  rw [State.pageref, hx] at ha
  rw [State.pageref, hdata] at hb
  exact hset.other_end_closed hplaced hrange (ha.symm.trans hb)

/-! ## Runs of three environments -/

def reader : Space := fun k => if k = 0 then some (.fd .read) else if k = 32 then some .data else none

def both : Space := fun k => if k = 1 then some (.fd .write) else if k = 33 then some .data else reader k

def nobody : Env := ⟨fun _ => none, 0, .free⟩

/-- The pipe is shared by environment 0, which has closed the write end, and
perhaps by environment 1. -/
def shared (v : Env) : State :=
  ⟨fun e => if e = 0 then ⟨reader, 1, .calls []⟩ else if e = 1 then v else nobody, some 0⟩

theorem ppRef_of_places {s : State} (F : Finset (Nat × Nat)) (hF : ∀ x ∈ F, x.1 < nenv ∧ x.2 < areaPages)
    (h : ∀ e k, (s.envs e).space k = some q ↔ (e, k) ∈ F) : s.ppRef q = F.card % 2 ^ 16 := by
  have hp : s.places q = F := by
    ext x
    rw [State.mem_places, h]
    exact ⟨fun hx => hx.2, fun hx => ⟨hF x hx, hx⟩⟩
  rw [State.ppRef, hp]

theorem State.InRange.setCheck {s : State} (h : s.InRange) : (s.setOp e (.check i st n)).InRange := by
  intro e' l hl
  by_cases hee : e' = e
  · subst hee
    rw [setOp, set_self] at hl
    cases hl
  · rw [setOp, set_of_ne _ _ hee] at hl
    exact h e' l hl

theorem State.setOp_setOp (s : State) (e : Nat) (op op' : Op) : (s.setOp e op).setOp e op' = s.setOp e op' := by
  simp [setOp, set]

theorem check_runs {s : State} (hr : s.InRange) (hcur : s.cur = some e) (hop : (s.envs e).op = .calls []) (hi : i < maxfd)
    (hx : (s.envs e).space i = some (.fd x)) :
    RangedRuns s (s.setOp e (.check i (.pRef (s.envs e).runs (s.pageref e i) (s.pageref e (maxfd + i))) 0)) := by
  have hnext : ∀ st t, s.check e i 0 st = s.setOp e t →
      Step (s.setOp e (.check i st 0)) (s.setOp e t) := by
    intro st t ht
    have hstep : Step (s.setOp e (.check i st 0)) ((s.setOp e (.check i st 0)).check e i 0 st) :=
      .check hcur (by rw [State.setOp, State.set_self])
    have hp : ∀ k, (s.setOp e (.check i st 0)).pageref e k = s.pageref e k :=
      fun k => State.pageref_congr (s.setOp_space e _) e k
    have heq : (s.setOp e (.check i st 0)).check e i 0 st = s.check e i 0 st := by
      cases st <;> simp only [State.check, State.setOp_setOp, hp]
      all_goals simp [State.setOp, State.set]
    rw [heq, ht] at hstep
    exact hstep
  refine .head ⟨.startCheck hcur hop hi hx, hr.setCheck⟩ (.head ⟨hnext _ _ rfl, hr.setCheck⟩
    (.head ⟨hnext _ _ rfl, hr.setCheck⟩ (.single ⟨hnext _ _ rfl, hr.setCheck⟩)))

@[simp] theorem reader_eq_fd : reader k = some (.fd x) ↔ k = 0 ∧ x = .read := by
  unfold reader
  split
  · simp_all [eq_comm]
  · split <;> simp_all

@[simp] theorem reader_eq_data : reader k = some .data ↔ k = 32 := by
  unfold reader
  split
  · simp_all
  · split <;> simp_all

@[simp] theorem both_eq_fd : both k = some (.fd x) ↔ (k = 1 ∧ x = .write) ∨ (k = 0 ∧ x = .read) := by
  unfold both
  split
  · simp_all [eq_comm]
  · split <;> simp_all

@[simp] theorem both_eq_data : both k = some .data ↔ k = 32 ∨ k = 33 := by
  unfold both
  split
  · simp_all
  · split <;> simp_all

theorem reader_good : Good reader := by
  refine ⟨⟨fun k x hk => ?_, fun k hk => ?_⟩, fun i x hi => ?_⟩
  · simp_all [maxfd]
  · simp_all [maxfd]
  · simp_all [maxfd]

theorem both_good : Good both := by
  refine ⟨⟨fun k x hk => ?_, fun k hk => ?_⟩, fun i x hi => ?_⟩
  · rcases both_eq_fd.1 hk with ⟨rfl, -⟩ | ⟨rfl, -⟩ <;> decide
  · rcases both_eq_data.1 hk with rfl | rfl <;> decide
  · rcases both_eq_fd.1 hi with ⟨rfl, -⟩ | ⟨rfl, -⟩ <;> decide

theorem shared_start (hv : v = nobody ∨ v = ⟨both, 0, .calls []⟩) : (shared v).Start := by
  have hcases : ∀ e, (shared v).envs e = ⟨reader, 1, .calls []⟩ ∨ (shared v).envs e = nobody ∨
      ((shared v).envs e = ⟨both, 0, .calls []⟩ ∧ e = 1) := by
    intro e
    unfold shared
    dsimp only
    split
    · exact .inl rfl
    · split
      · rcases hv with rfl | rfl
        · exact .inr (.inl rfl)
        · exact .inr (.inr ⟨rfl, ‹_›⟩)
      · exact .inr (.inl rfl)
  have hgood : ∀ e, Good ((shared v).envs e).space := by
    intro e
    rcases hcases e with he | he | ⟨he, -⟩
    · exact he ▸ reader_good
    · rw [he]
      exact ⟨⟨nofun, nofun⟩, nofun⟩
    · exact he ▸ both_good
  refine ⟨fun e => ?_, fun e hf => ?_, fun e he => ?_, fun e => (hgood e).1, fun e => (hgood e).2⟩
  · rcases hcases e with he | he | ⟨he, -⟩ <;> rw [he]
    · exact .inr rfl
    · exact .inl rfl
    · exact .inr rfl
  · rcases hcases e with he | he | ⟨he, -⟩ <;> rw [he] at hf ⊢
    · cases hf
    · rfl
    · cases hf
  · have h0 : e ≠ 0 := by
      rintro rfl
      simp [nenv] at he
    have h1 : e ≠ 1 := by
      rintro rfl
      simp [nenv] at he
    simp [shared, h0, h1, nobody]

theorem State.setOp_returns {s : State} (hcur : s.cur = some e) (hx : (s.envs e).space i = some (.fd x)) :
    (s.setOp e (.check i (.pRef (s.envs e).runs a a) n)).Returns e x n := by
  refine ⟨hcur, i, (s.envs e).runs, a, ?_, ?_, ?_⟩
  all_goals rw [setOp, set_self]
  exact hx

/-- The last writer is gone, and the reader finds the pipe closed. -/
theorem closed_only_if_closed_reader : ∃ t, RangedRuns (shared nobody) t ∧ t.Returns 0 .read 0 ∧
    ∀ e k, (t.envs e).space k ≠ some (.fd .write) := by
  have hs : (shared nobody).Start := shared_start (.inl rfl)
  have hr : (shared nobody).InRange := by
    intro e l hl k k' hm
    rcases hs.idle e with hi | hi <;> cases hi.symm.trans hl
    cases hm
  have hspace : ∀ e, ((shared nobody).envs e).space = if e = 0 then reader else fun _ => none := by
    intro e
    simp only [shared, nobody]
    split
    · rfl
    · split <;> rfl
  have hfd : (shared nobody).ppRef (.fd .read) = 1 := by
    refine ppRef_of_places {(0, 0)} (by simp [nenv, areaPages]) fun e k => ?_
    rw [hspace]
    split <;> simp_all
  have hdata : (shared nobody).ppRef .data = 1 := by
    refine ppRef_of_places {(0, 32)} (by simp [nenv, areaPages]) fun e k => ?_
    rw [hspace]
    split <;> simp_all
  have hx : ((shared nobody).envs 0).space 0 = some (.fd .read) := rfl
  have hp : ((shared nobody).envs 0).space (maxfd + 0) = some .data := rfl
  have hruns := check_runs hr rfl rfl (by decide) hx
  rw [State.pageref_of_mapped hx, State.pageref_of_mapped hp, hfd, hdata] at hruns
  have hret := State.setOp_returns (s := shared nobody) (a := 1) (n := 0) rfl hx
  have hset : State.Settled ((shared nobody).setOp 0 (.check 0 (.pRef ((shared nobody).envs 0).runs 1 1) 0)) := by
    intro e
    rw [State.setOp_space]
    exact hs.paired e
  exact ⟨_, hruns, hret, closed_only_if_closed hs hruns hret (Nat.two_pow_pos 32) hset⟩

theorem fork_head (c : Nat) : ∃ l, fork c = .share c 0 :: l := by
  have hpos : areaPages = (areaPages - 1) + 1 := by
    have hle := two_maxfd_le
    unfold maxfd at hle
    omega
  rw [fork, hpos, List.range_succ_eq_map]
  exact ⟨_, rfl⟩

theorem fork_no_map (c : Nat) : .map k k' ∉ fork c := by
  simp [fork]

/-- The child of environment 0 has the `Fd` page of the read end and not the data page yet. -/
def forking (l : List Instr) : State :=
  ⟨fun e => if e = 0 then ⟨reader, 1, .calls l⟩ else if e = 1 then ⟨both, 1, .calls []⟩
    else if e = 2 then ⟨update (fun _ => none) 0 (some (.fd .read)), 0, .embryo⟩ else nobody, some 1⟩

theorem forking_runs : ∃ l, RangedRuns (shared ⟨both, 0, .calls []⟩) (forking l) ∧ (forking l).InRange := by
  obtain ⟨l, hl⟩ := fork_head 2
  have hno : ∀ k k', .map k k' ∉ l := by
    intro k k' hm
    exact fork_no_map 2 (hl ▸ List.mem_cons_of_mem _ hm)
  -- Only environment 0 has calls to make, and they are those of `fork`.
  have hrange : ∀ t : State, (∀ e l', (t.envs e).op = .calls l' → l' = fork 2 ∨ l' = l ∨ l' = []) → t.InRange := by
    intro t ht e l' hl' k k' hm
    rcases ht e l' hl' with rfl | rfl | rfl
    · exact absurd hm (fork_no_map 2)
    · exact absurd hm (hno k k')
    · cases hm
  generalize h₁ : (shared ⟨both, 0, .calls []⟩).exofork 0 2 (fork 2) = s₁
  have he₁ : ∀ e, s₁.envs e = if e = 2 then ⟨fun _ => none, 0, .embryo⟩ else if e = 0 then ⟨reader, 1, .calls (fork 2)⟩
      else (shared ⟨both, 0, .calls []⟩).envs e := by
    intro e
    rw [← h₁, State.exofork, State.setOp]
    split
    · subst_vars
      exact State.set_self ..
    rw [State.set_of_ne _ _ ‹_›]
    split
    · subst_vars
      exact State.set_self ..
    · exact State.set_of_ne _ _ ‹_›
  generalize h₂ : s₁.sys 0 (.share 2 0) l = s₂
  have he₂ : ∀ e, s₂.envs e = if e = 2 then ⟨update (fun _ => none) 0 (some (.fd .read)), 0, .embryo⟩
      else if e = 0 then ⟨reader, 1, .calls l⟩ else s₁.envs e := by
    intro e
    have hsys : s₂ = (s₁.set 0 { s₁.envs 0 with op := .calls l }).set 2
        { (s₁.set 0 { s₁.envs 0 with op := .calls l }).envs 2 with
          space := update ((s₁.set 0 { s₁.envs 0 with op := .calls l }).envs 2).space 0 ((s₁.envs 0).space 0) } := by
      rw [← h₂]
      exact if_neg (by rw [he₁]; nofun)
    rw [hsys]
    split
    · subst_vars
      rw [State.set_self, State.set_of_ne _ _ (by decide), he₁, he₁]
      rfl
    rw [State.set_of_ne _ _ ‹_›]
    split
    · subst_vars
      rw [State.set_self, he₁]
      rfl
    · exact State.set_of_ne _ _ ‹_›
  have h₃ : s₂.switch 1 = forking l := by
    refine congrArg₂ State.mk (funext fun e => ?_) rfl
    by_cases he : e = 1
    · subst he
      refine (State.set_self ..).trans ?_
      rw [he₂, he₁]
      rfl
    · refine (State.set_of_ne _ _ he).trans ?_
      rw [he₂, he₁]
      split
      · subst_vars
        rfl
      · simp [shared, he]
        grind
  have hc₁ : s₁.cur = some 0 := by rw [← h₁]; rfl
  have hc₂ : s₂.cur = some 0 := by
    rw [← h₂, State.sys, Instr.give]
    split <;> exact hc₁
  have hstep₁ : Step (shared ⟨both, 0, .calls []⟩) s₁ := h₁ ▸ .fork rfl rfl rfl (by simp [nenv])
  have hstep₂ : Step s₁ s₂ := h₂ ▸ .sys hc₁ (by rw [he₁, ← hl]; rfl)
  have hstep₃ : Step s₂ (forking l) := h₃ ▸ .switch (by rw [he₂, he₁]; trivial) (by simp [hc₂])
  have hr₁ : s₁.InRange := by
    refine hrange s₁ fun e l' hl' => ?_
    rw [he₁] at hl'
    simp only [shared, nobody] at hl'
    grind
  have hr₂ : s₂.InRange := by
    refine hrange s₂ fun e l' hl' => ?_
    rw [he₂, he₁] at hl'
    simp only [shared, nobody] at hl'
    grind
  have hr₃ : (forking l).InRange := by
    refine hrange _ fun e l' hl' => ?_
    simp only [forking, nobody] at hl'
    grind
  exact ⟨l, .head ⟨hstep₁, hr₁⟩ (.head ⟨hstep₂, hr₂⟩ (.single ⟨hstep₃, hr₃⟩)), hr₃⟩

/-- Environment 0 forks, and its child has the `Fd` page of the read end and not
the data page yet. Environment 1 finds the pipe closed for reading while it
maps the write end itself. -/
theorem forked_reader_hides_writer : ∃ s t, s.Start ∧ RangedRuns s t ∧ t.Returns 1 .read 0 ∧
    ∃ e k, (t.envs e).space k = some (.fd .write) := by
  obtain ⟨l, hfork, hr⟩ := forking_runs
  have hspace : ∀ e, ((forking l).envs e).space = if e = 0 then reader else if e = 1 then both
      else if e = 2 then update (fun _ => none) 0 (some (.fd .read)) else fun _ => none := by
    intro e
    simp only [forking, nobody]
    repeat' split
    all_goals rfl
  have hfd : (forking l).ppRef (.fd .read) = 3 := by
    refine ppRef_of_places {(0, 0), (1, 0), (2, 0)} (by simp [nenv, areaPages]) fun e k => ?_
    rw [hspace]
    repeat' split
    all_goals simp_all [update]
  have hdata : (forking l).ppRef .data = 3 := by
    refine ppRef_of_places {(0, 32), (1, 32), (1, 33)} (by simp [nenv, areaPages]) fun e k => ?_
    rw [hspace]
    repeat' split
    all_goals simp_all [update]
  have hx : ((forking l).envs 1).space 0 = some (.fd .read) := rfl
  have hp : ((forking l).envs 1).space (maxfd + 0) = some .data := rfl
  have hruns := check_runs hr rfl rfl (by decide) hx
  rw [State.pageref_of_mapped hx, State.pageref_of_mapped hp, hfd, hdata] at hruns
  exact ⟨_, _, shared_start (.inr rfl), hfork.trans hruns, State.setOp_returns rfl hx, 1, 1, rfl⟩

end Jos.PipeEnds
