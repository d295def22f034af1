import Jos.Kern.Mmu

/-!
# File requests (`lib/file.c`, `lib/ipc.c`, `fs/serv.c`)

`fsipc` sends a request to the file server and then waits for any message at
all. Environments are named by their ids; `fs` is the file server and the
others run any code. The requests that `fsipc` calls have sent are numbered,
and `answers` keeps what the server has worked out for each of them: neither
is part of the program.
-/

namespace Jos.Fsipc

/-- Where an environment stands: in code of its own, or in `fsipc`. `dst` says
that a page may come with the reply, `n` is the number of the request. -/
inductive Mode where
  | dead
  | user
  | sending (type : Word) (dst : Bool)
  | sent (n : Nat) (dst : Bool)
  | waiting (n : Nat) (dst : Bool)

/-- The fields of `struct Env` for messages. `wants` is `env_ipc_dstva < UTOP`,
`page` the page the last message left at `env_ipc_dstva`. -/
structure Env where
  mode : Mode
  recving : Bool
  wants : Bool
  value : Word
  sender : Nat
  page : Option Nat

/-- Where `serve` stands. -/
inductive Server where
  | recv
  | handle (whom : Nat) (request : Option Nat)
  | reply (whom : Nat) (request : Option Nat) (value : Word) (page : Option Nat)
  | unmap
  | panicked

structure State where
  envs : Nat → Env
  server : Server
  /-- The number of the request that is in the message fields of the server. -/
  arrived : Option Nat
  count : Nat
  answers : Nat → Option (Word × Option Nat)

def fs : Nat := 0

def State.set (s : State) (e : Nat) (v : Env) : State := { s with envs := Function.update s.envs e v }

/-- What an accepted `sys_ipc_try_send` from `e` leaves in the receiver. -/
def Env.deliver (v : Env) (e : Nat) (value : Word) (page : Option Nat) : Env :=
  { v with recving := false, value := value, sender := e, page := if v.wants then page else none }

def State.send (s : State) (e dest : Nat) (value : Word) (page : Option Nat) : State :=
  s.set dest ((s.envs dest).deliver e value page)

def State.recv (s : State) (e : Nat) (mode : Mode) (wants : Bool) : State :=
  s.set e { s.envs e with mode := mode, recving := true, wants := wants }

def State.setMode (s : State) (e : Nat) (mode : Mode) : State := s.set e { s.envs e with mode := mode }

def State.request (s : State) (e : Nat) (type : Word) (dst : Bool) (buf : Nat) : State :=
  { (s.send e fs type (some buf)).setMode e (.sent s.count dst) with
    arrived := some s.count
    count := s.count + 1 }

/-- `serve` looks at the message it was woken by: without a page it is dropped. -/
def State.take (s : State) : State :=
  if (s.envs fs).page = none then s.recv fs (s.envs fs).mode true
  else { s with server := .handle (s.envs fs).sender s.arrived }

/-- A handler returns `value`, and `page` if the request was an `open`. -/
def State.handled (s : State) (whom : Nat) (request : Option Nat) (value : Word) (page : Option Nat) : State :=
  { s with
    server := .reply whom request value page
    answers := match request with
      | none => s.answers
      | some n => Function.update s.answers n (some (value, page)) }

inductive Act where
  | userSend (e dest : Nat) (value : Word) (page : Option Nat)
  | userRecv (e : Nat) (wants : Bool)
  | fsipc (e : Nat) (type : Word) (dst : Bool)
  | request (e buf : Nat)
  | recv (e : Nat)
  | ret (e : Nat)
  | take
  | handled (value : Word) (page : Option Nat)
  | reply
  | replyPanic
  | again
  | die (e : Nat)
  | born (e : Nat)

/-- A `sys_ipc_try_send` that returns `-E_IPC_NOT_RECV` changes nothing and is
tried again. -/
inductive Step : Act → State → State → Prop
  | userSend : e ≠ fs → (s.envs e).mode = .user → (s.envs e).recving = false → (s.envs dest).recving = true →
    Step (.userSend e dest value page) s
      { s.send e dest value page with arrived := if dest = fs then none else s.arrived }
  | userRecv : e ≠ fs → (s.envs e).mode = .user → (s.envs e).recving = false →
    Step (.userRecv e wants) s (s.recv e .user wants)
  | fsipc : e ≠ fs → (s.envs e).mode = .user → (s.envs e).recving = false →
    Step (.fsipc e type dst) s (s.setMode e (.sending type dst))
  | request : (s.envs e).mode = .sending type dst → (s.envs fs).recving = true →
    Step (.request e buf) s (s.request e type dst buf)
  | recv : (s.envs e).mode = .sent n dst → Step (.recv e) s (s.recv e (.waiting n dst) dst)
  | ret : (s.envs e).mode = .waiting n dst → (s.envs e).recving = false → Step (.ret e) s (s.setMode e .user)
  | take : s.server = .recv → (s.envs fs).recving = false → Step .take s s.take
  | handled : s.server = .handle whom n → Step (.handled value page) s (s.handled whom n value page)
  | reply : s.server = .reply whom n value page → (s.envs whom).recving = true →
    Step .reply s { s.send fs whom value page with server := .unmap }
  | replyPanic : s.server = .reply whom n value page → (s.envs whom).mode = .dead →
    Step .replyPanic s { s with server := .panicked }
  | again : s.server = .unmap → Step .again s { s.recv fs (s.envs fs).mode true with server := .recv }
  | die : e ≠ fs → Step (.die e) s (s.set e { s.envs e with mode := .dead, recving := false })
  | born : e ≠ fs → (s.envs e).mode = .dead →
    Step (.born e) s (s.set e { s.envs e with mode := .user, recving := false })

/-- Nobody but the file server sends to an environment that waits in `fsipc`. -/
def Act.Quiet (s : State) : Act → Prop
  | .userSend _ dest _ _ => ∀ n dst, (s.envs dest).mode ≠ .waiting n dst
  | _ => True

def Runs (s t : State) : Prop := Relation.ReflTransGen (fun s t => ∃ a, Step a s t) s t

def QuietRuns (s t : State) : Prop := Relation.ReflTransGen (fun s t => ∃ a : Act, a.Quiet s ∧ Step a s t) s t

/-- The server waits for its first request, and no `fsipc` is under way. -/
structure State.Start (s : State) : Prop where
  server : s.server = .recv ∧ (s.envs fs).recving = true ∧ (s.envs fs).wants = true
  modes : ∀ e, (s.envs e).mode = .user ∨ (s.envs e).mode = .dead
  self : (s.envs fs).mode = .user

/-- What `fsipc` is about to return comes from the server and is its answer to
the request, and so is the page mapped. -/
def State.Answered (s : State) : Prop :=
  ∀ e n dst, (s.envs e).mode = .waiting n dst → (s.envs e).recving = false →
    (s.envs e).sender = fs ∧
    ∃ page, s.answers n = some ((s.envs e).value, page) ∧ (s.envs e).page = if dst then page else none

/-! ## The server works on the request of whoever waits -/

/-- The server has request `n` of environment `e` before it. -/
def State.Serving (s : State) (e n : Nat) : Prop :=
  (s.server = .recv ∧ (s.envs fs).recving = false ∧ (s.envs fs).page ≠ none ∧ (s.envs fs).sender = e ∧
    s.arrived = some n) ∨
  s.server = .handle e (some n) ∨ ∃ v page, s.server = .reply e (some n) v page ∧ s.answers n = some (v, page)

/-- Environment `e` has sent request `n` and has no message yet. -/
def State.Pending (s : State) (e n : Nat) : Prop :=
  ∃ dst, (s.envs e).mode = .sent n dst ∨ ((s.envs e).mode = .waiting n dst ∧ (s.envs e).recving = true)

structure State.Ok (s : State) : Prop where
  self : (s.envs fs).mode = .user ∧ (s.envs fs).wants = true
  idle : (s.envs fs).recving = true → s.server = .recv
  quiet : ∀ e, ((∃ t d, (s.envs e).mode = .sending t d) ∨ ∃ n d, (s.envs e).mode = .sent n d) →
    (s.envs e).recving = false
  wants : ∀ e n d, (s.envs e).mode = .waiting n d → (s.envs e).recving = true → (s.envs e).wants = d
  pending : ∀ e n, s.Pending e n → s.Serving e n
  /-- The request before the server has no answer yet, or one not delivered. -/
  fresh : ∀ e n d whom, s.Serving whom n → (s.envs e).mode = .waiting n d → (s.envs e).recving = true
  bound : ∀ e n d, ((s.envs e).mode = .sent n d ∨ (s.envs e).mode = .waiting n d) → n < s.count
  answered : s.Answered

theorem State.Start.ok {s : State} (h : s.Start) : s.Ok := by
  have hmode : ∀ e m, (s.envs e).mode = m → m = .user ∨ m = .dead := fun e m hm => hm ▸ h.modes e
  refine ⟨⟨h.self, h.server.2.2⟩, fun _ => h.server.1, fun e hm => ?_, fun e n d hm => ?_, fun e n hp => ?_,
    fun e n d _ _ hm => ?_, fun e n d hm => ?_, fun e n d hm => ?_⟩
  · rcases hm with ⟨t, d, hm⟩ | ⟨n, d, hm⟩ <;> rcases hmode e _ hm with h | h <;> cases h
  · rcases hmode e _ hm with h | h <;> cases h
  · obtain ⟨d, hm | ⟨hm, -⟩⟩ := hp <;> rcases hmode e _ hm with h | h <;> cases h
  · rcases hmode e _ hm with h | h <;> cases h
  · rcases hm with hm | hm <;> rcases hmode e _ hm with h | h <;> cases h
  · rcases hmode e _ hm with h | h <;> cases h

@[simp] theorem State.set_self (s : State) (e : Nat) (v : Env) : (s.set e v).envs e = v := Function.update_self ..

theorem State.set_of_ne (s : State) (v : Env) (h : e' ≠ e) : (s.set e v).envs e' = s.envs e' := Function.update_of_ne h ..

/-- What the fields of one environment must satisfy beside those of the server. -/
structure EnvOk (s : State) (e : Nat) (v : Env) : Prop where
  quiet : ((∃ t d, v.mode = .sending t d) ∨ ∃ n d, v.mode = .sent n d) → v.recving = false
  wants : ∀ n d, v.mode = .waiting n d → v.recving = true → v.wants = d
  pending : ∀ n d, v.mode = .sent n d ∨ (v.mode = .waiting n d ∧ v.recving = true) → s.Serving e n
  fresh : ∀ n d whom, s.Serving whom n → v.mode = .waiting n d → v.recving = true
  bound : ∀ n d, v.mode = .sent n d ∨ v.mode = .waiting n d → n < s.count
  answered : ∀ n d, v.mode = .waiting n d → v.recving = false →
    v.sender = fs ∧ ∃ page, s.answers n = some (v.value, page) ∧ v.page = if d then page else none

theorem State.Ok.env {s : State} (h : s.Ok) (e : Nat) : EnvOk s e (s.envs e) :=
  ⟨h.quiet e, h.wants e, fun n d hp => h.pending e n ⟨d, hp⟩, fun n d => h.fresh e n d, h.bound e, h.answered e⟩

theorem State.Ok.of_env {s : State} (hself : (s.envs fs).mode = .user ∧ (s.envs fs).wants = true)
    (hidle : (s.envs fs).recving = true → s.server = .recv) (h : ∀ e, EnvOk s e (s.envs e)) : s.Ok :=
  ⟨hself, hidle, fun e => (h e).quiet, fun e => (h e).wants, fun e n hp => hp.elim fun d hd => (h e).pending n d hd,
    fun e n d whom => (h e).fresh n d whom, fun e => (h e).bound, fun e => (h e).answered⟩

theorem EnvOk.of_user (h : v.mode = .user ∨ v.mode = .dead) : EnvOk s e v := by
  have hmode : ∀ m, v.mode = m → m = .user ∨ m = .dead := fun m hm => hm ▸ h
  refine ⟨fun hm => ?_, fun n d hm => ?_, fun n d hp => ?_, fun n d _ _ hm => ?_, fun n d hm => ?_, fun n d hm => ?_⟩
  · rcases hm with ⟨t, d, hm⟩ | ⟨n, d, hm⟩ <;> rcases hmode _ hm with h | h <;> cases h
  · rcases hmode _ hm with h | h <;> cases h
  · obtain hm | ⟨hm, -⟩ := hp <;> rcases hmode _ hm with h | h <;> cases h
  · rcases hmode _ hm with h | h <;> cases h
  · rcases hm with hm | hm <;> rcases hmode _ hm with h | h <;> cases h
  · rcases hmode _ hm with h | h <;> cases h

theorem EnvOk.congr (h : EnvOk s e v) (hs : ∀ whom n, t.Serving whom n → s.Serving whom n)
    (hs' : ∀ n, s.Serving e n → t.Serving e n) (hc : s.count ≤ t.count)
    (ha : ∀ n d, v.mode = .waiting n d → v.recving = false → t.answers n = s.answers n) : EnvOk t e v := by
  refine ⟨h.quiet, h.wants, fun n d hp => hs' n (h.pending n d hp), fun n d whom hw => h.fresh n d whom (hs whom n hw),
    fun n d hm => (h.bound n d hm).trans_le hc, fun n d hm hr => ?_⟩
  rw [ha n d hm hr]
  exact h.answered n d hm hr

namespace State.Ok

variable {s t : State}

section
variable (h : s.Ok)
include h

theorem set (he : e ≠ fs) (hv : EnvOk s e v) : (s.set e v).Ok := by
  have hfs : (s.set e v).envs fs = s.envs fs := set_of_ne _ _ he.symm
  have hserving : ∀ whom n, (s.set e v).Serving whom n ↔ s.Serving whom n := by
    intro whom n
    unfold Serving
    rw [hfs]
    rfl
  refine of_env (by rw [hfs]; exact h.self) (by rw [hfs]; exact h.idle) fun e' => ?_
  by_cases hee : e' = e
  · subst hee
    rw [set_self]
    exact hv.congr (fun w n => (hserving w n).1) (fun n => (hserving _ n).2) (Nat.le_refl _) fun _ _ _ _ => rfl
  · rw [set_of_ne _ _ hee]
    exact (h.env e').congr (fun w n => (hserving w n).1) (fun n => (hserving _ n).2) (Nat.le_refl _) fun _ _ _ _ => rfl

theorem of_not_serving (hfs : ∀ e, e ≠ fs → t.envs e = s.envs e)
    (hself : (t.envs fs).mode = .user ∧ (t.envs fs).wants = true) (hidle : (t.envs fs).recving = true → t.server = .recv)
    (hs : ∀ e n, s.Pending e n → False) (ht : ∀ e n, ¬ t.Serving e n) (hc : t.count = s.count)
    (ha : t.answers = s.answers) : t.Ok := by
  refine of_env hself hidle fun e => ?_
  by_cases he : e = fs
  · subst he
    exact EnvOk.of_user (.inl hself.1)
  · rw [hfs e he]
    have hv := h.env e
    refine ⟨hv.quiet, hv.wants, fun n d hp => (hs e n ⟨d, hp⟩).elim, fun n d whom hw => absurd hw (ht whom n),
      fun n d hm => hc ▸ hv.bound n d hm, fun n d hm hr => ha ▸ hv.answered n d hm hr⟩

theorem not_pending (hs : ∀ e n, ¬ s.Serving e n) : ∀ e n, s.Pending e n → False :=
  fun e n hp => hs e n (h.pending e n hp)

theorem not_serving_of_recving (hr : (s.envs fs).recving = true) (e n : Nat) : ¬ s.Serving e n := by
  have hserver := h.idle hr
  rintro (⟨-, hr', -⟩ | hs | ⟨v, page, hs, -⟩)
  · cases hr.symm.trans hr'
  · cases hserver.symm.trans hs
  · cases hserver.symm.trans hs

theorem userSend (hdest : (s.envs dest).recving = true) (hq : ∀ n dst, (s.envs dest).mode ≠ .waiting n dst) :
    State.Ok { s.send e dest value page with arrived := if dest = fs then none else s.arrived } := by
  by_cases hd : dest = fs
  · subst hd
    have hno := h.not_serving_of_recving hdest
    have hfs : (s.send e fs value page).envs fs = (s.envs fs).deliver e value page := set_self ..
    refine h.of_not_serving (fun e' he' => set_of_ne _ _ he') ?_ ?_ (h.not_pending hno) ?_ rfl rfl
    · exact hfs ▸ h.self
    · intro hr
      cases (congrArg Env.recving hfs).symm.trans hr
    · rintro e' n (⟨-, -, -, -, hn⟩ | hs | ⟨v, page', hs, -⟩)
      · simp at hn
      · cases (h.idle hdest).symm.trans hs
      · cases (h.idle hdest).symm.trans hs
  · rw [if_neg hd]
    refine h.set hd ⟨fun hm => rfl, fun n d hm => absurd hm (hq n d), fun n d hp => ?_, fun n d _ _ hm => absurd hm (hq n d),
      (h.env dest).bound, fun n d hm => absurd hm (hq n d)⟩
    rcases hp with hm | ⟨hm, -⟩
    · cases ((h.env dest).quiet (.inr ⟨n, d, hm⟩)).symm.trans hdest
    · exact absurd hm (hq n d)

theorem request (hm : (s.envs e).mode = .sending type dst) (hr : (s.envs fs).recving = true) :
    (s.request e type dst buf).Ok := by
  have hefs : e ≠ fs := by
    rintro rfl
    cases h.self.1.symm.trans hm
  have hno := h.not_serving_of_recving hr
  have hfs : (s.request e type dst buf).envs fs = (s.envs fs).deliver e type (some buf) :=
    (set_of_ne _ _ hefs.symm).trans (set_self ..)
  have hself : (s.request e type dst buf).envs e = { s.envs e with mode := .sent s.count dst } := by
    refine (set_self ..).trans ?_
    rw [send, set_of_ne _ _ hefs]
  have hother : ∀ e', e' ≠ e → e' ≠ fs → (s.request e type dst buf).envs e' = s.envs e' :=
    fun e' h₁ h₂ => (set_of_ne _ _ h₁).trans (set_of_ne _ _ h₂)
  have hserving : ∀ whom n, (s.request e type dst buf).Serving whom n → n = s.count := by
    rintro whom n (⟨-, -, -, -, hn⟩ | hs | ⟨v, page', hs, -⟩)
    · exact (Option.some.inj hn).symm
    · cases (h.idle hr).symm.trans hs
    · cases (h.idle hr).symm.trans hs
  refine of_env (hfs ▸ h.self) (fun hr' => ?_) fun e' => ?_
  · cases (congrArg Env.recving hfs).symm.trans hr'
  by_cases h₁ : e' = e
  · subst h₁
    rw [hself]
    refine ⟨fun _ => (h.env e').quiet (.inl ⟨_, _, hm⟩), nofun, fun n d hp => ?_, nofun, fun n d hb => ?_, nofun⟩
    · obtain ⟨rfl, rfl⟩ | ⟨hp, -⟩ := hp
      · refine .inl ⟨h.idle hr, ?_, ?_, ?_, rfl⟩
        all_goals rw [hfs]
        · rfl
        · simp [Env.deliver, h.self.2]
        · rfl
      · cases hp
    · rcases hb with ⟨rfl, rfl⟩ | hb
      · exact Nat.lt_succ_self _
      · cases hb
  · by_cases h₂ : e' = fs
    · subst h₂
      exact EnvOk.of_user (.inl (hfs ▸ h.self.1))
    · rw [hother e' h₁ h₂]
      have hv := h.env e'
      refine ⟨hv.quiet, hv.wants, fun n d hp => (h.not_pending hno e' n ⟨d, hp⟩).elim, fun n d whom hw hm' => ?_,
        fun n d hb => (hv.bound n d hb).trans (Nat.lt_succ_self _), hv.answered⟩
      have hlt := hv.bound n d (.inr hm')
      rw [hserving whom n hw] at hlt
      exact absurd hlt (Nat.lt_irrefl _)

theorem ne_fs (hm : (s.envs e).mode = m) (hne : m ≠ .user) : e ≠ fs := by
  rintro rfl
  exact hne (hm.symm.trans h.self.1)

theorem recv (hm : (s.envs e).mode = .sent n dst) : (s.recv e (.waiting n dst) dst).Ok := by
  have hv := h.env e
  refine h.set (h.ne_fs hm nofun) ⟨?_, ?_, ?_, ?_, ?_, ?_⟩
  · rintro (⟨_, _, hm'⟩ | ⟨_, _, hm'⟩) <;> cases hm'
  · rintro _ _ ⟨rfl, rfl⟩ _
    rfl
  · rintro _ _ (hm' | ⟨⟨rfl, rfl⟩, -⟩)
    · cases hm'
    · exact hv.pending n dst (.inl hm)
  · exact fun _ _ _ _ _ => rfl
  · rintro _ _ (hm' | ⟨rfl, rfl⟩)
    · cases hm'
    · exact hv.bound n dst (.inl hm)
  · exact nofun

theorem take (hs : s.server = .recv) (hr : (s.envs fs).recving = false) : s.take.Ok := by
  unfold State.take
  split
  · rename_i hp
    have hno : ∀ e n, ¬ s.Serving e n := by
      rintro e n (⟨-, -, hp', -⟩ | hs' | ⟨v, page, hs', -⟩)
      · exact hp' hp
      · cases hs.symm.trans hs'
      · cases hs.symm.trans hs'
    have hfs : (s.recv fs (s.envs fs).mode true).envs fs = { s.envs fs with recving := true, wants := true } := set_self ..
    refine h.of_not_serving (fun e he => set_of_ne _ _ he) ?_ (fun _ => hs) (h.not_pending hno) ?_ rfl rfl
    · rw [hfs]
      exact ⟨h.self.1, rfl⟩
    · rintro e n (⟨-, hr', -⟩ | hs' | ⟨v, page, hs', -⟩)
      · cases (congrArg Env.recving hfs).symm.trans hr'
      · cases hs.symm.trans hs'
      · cases hs.symm.trans hs'
  · rename_i hp
    have hserving : ∀ e n, State.Serving { s with server := .handle (s.envs fs).sender s.arrived } e n ↔ s.Serving e n := by
      intro e n
      constructor
      · rintro (⟨hs', -⟩ | hs' | ⟨v, page, hs', -⟩)
        · cases hs'
        · obtain ⟨hw, hn⟩ := Server.handle.inj hs'
          exact .inl ⟨hs, hr, hp, hw, hn⟩
        · cases hs'
      · rintro (⟨-, -, -, rfl, ha⟩ | hs' | ⟨v, page, hs', -⟩)
        · exact .inr (.inl (by rw [ha]))
        · cases hs.symm.trans hs'
        · cases hs.symm.trans hs'
    refine of_env h.self (fun hr' => ?_) fun e => ?_
    · cases hr.symm.trans hr'
    · exact (h.env e).congr (fun w n => (hserving w n).1) (fun n => (hserving e n).2) (Nat.le_refl _) fun _ _ _ _ => rfl

theorem handled (hs : s.server = .handle whom n) : (s.handled whom n value page).Ok := by
  have hbusy : (s.envs fs).recving = true → False := by
    intro hr
    cases hs.symm.trans (h.idle hr)
  have hold : ∀ e m, s.Serving e m ↔ e = whom ∧ n = some m := by
    intro e m
    constructor
    · rintro (⟨hs', -⟩ | hs' | ⟨v, page, hs', -⟩)
      · cases hs.symm.trans hs'
      · obtain ⟨hw, hn⟩ := Server.handle.inj (hs.symm.trans hs')
        exact ⟨hw.symm, hn⟩
      · cases hs.symm.trans hs'
    · rintro ⟨rfl, rfl⟩
      exact .inr (.inl hs)
  have hnew : ∀ e m, (s.handled whom n value page).Serving e m ↔ e = whom ∧ n = some m := by
    intro e m
    constructor
    · rintro (⟨hs', -⟩ | hs' | ⟨v, page, hs', -⟩)
      · cases hs'
      · cases hs'
      · obtain ⟨hw, hn, -⟩ := Server.reply.inj hs'
        exact ⟨hw.symm, hn⟩
    · rintro ⟨rfl, rfl⟩
      exact .inr (.inr ⟨value, page, rfl, Function.update_self ..⟩)
  refine of_env h.self (fun hr => (hbusy hr).elim) fun e => ?_
  refine (h.env e).congr (fun w m hw => (hold w m).2 ((hnew w m).1 hw)) (fun m hw => (hnew e m).2 ((hold e m).1 hw))
    (Nat.le_refl _) fun m d hm hr => ?_
  -- The answer is new, so it is not one that was delivered before.
  cases n with
  | none => rfl
  | some k =>
    refine Function.update_of_ne (fun hmk => ?_) ..
    subst hmk
    cases hr.symm.trans ((h.env e).fresh m d whom ((hold whom m).2 ⟨rfl, rfl⟩) hm)

theorem reply (hs : s.server = .reply whom n value page) (hr : (s.envs whom).recving = true) :
    State.Ok { s.send fs whom value page with server := .unmap } := by
  have hwhom : whom ≠ fs := by
    rintro rfl
    cases hs.symm.trans (h.idle hr)
  have hfs : (s.send fs whom value page).envs fs = s.envs fs := set_of_ne _ _ hwhom.symm
  have hno : ∀ e m, ¬ State.Serving { s.send fs whom value page with server := .unmap } e m := by
    rintro e m (⟨hs', -⟩ | hs' | ⟨v, page, hs', -⟩) <;> cases hs'
  have hpend : ∀ e m, s.Pending e m → e = whom ∧ n = some m ∧ s.answers m = some (value, page) := by
    intro e m hp
    rcases h.pending e m hp with ⟨hs', -⟩ | hs' | ⟨v, page', hs', ha⟩
    · cases hs.symm.trans hs'
    · cases hs.symm.trans hs'
    · obtain ⟨rfl, rfl, rfl, rfl⟩ := Server.reply.inj (hs.symm.trans hs')
      exact ⟨rfl, rfl, ha⟩
  refine of_env (hfs ▸ h.self) (fun hr' => ?_) fun e => ?_
  · rw [show State.envs { s.send fs whom value page with server := .unmap } fs = s.envs fs from hfs] at hr'
    cases hs.symm.trans (h.idle hr')
  have hv := h.env e
  by_cases he : e = whom
  · subst he
    have hself : State.envs { s.send fs e value page with server := .unmap } e = (s.envs e).deliver fs value page :=
      set_self ..
    rw [hself]
    refine ⟨fun _ => rfl, nofun, fun m d hp => ?_, fun m d whom hw => absurd hw (hno whom m), hv.bound, fun m d hm _ => ?_⟩
    · rcases hp with hm | ⟨-, hr'⟩
      · cases (hv.quiet (.inr ⟨m, d, hm⟩)).symm.trans hr
      · cases hr'
    · obtain ⟨-, -, ha⟩ := hpend e m ⟨d, .inr ⟨hm, hr⟩⟩
      refine ⟨rfl, page, ha, ?_⟩
      rw [← hv.wants m d hm hr]
      rfl
  · have hother : State.envs { s.send fs whom value page with server := .unmap } e = s.envs e := set_of_ne _ _ he
    rw [hother]
    exact ⟨hv.quiet, hv.wants, fun m d hp => absurd (hpend e m ⟨d, hp⟩).1 he, fun m d whom hw => absurd hw (hno whom m),
      hv.bound, hv.answered⟩

theorem replyPanic (hs : s.server = .reply whom n value page) (hd : (s.envs whom).mode = .dead) :
    State.Ok { s with server := .panicked } := by
  refine h.of_not_serving (fun _ _ => rfl) h.self (fun hr => ?_) (fun e m hp => ?_) ?_ rfl rfl
  · cases hs.symm.trans (h.idle hr)
  · have hw : e = whom := by
      rcases h.pending e m hp with ⟨hs', -⟩ | hs' | ⟨v, page', hs', -⟩
      · cases hs.symm.trans hs'
      · cases hs.symm.trans hs'
      · exact (Server.reply.inj (hs.symm.trans hs')).1.symm
    obtain ⟨d, hm | ⟨hm, -⟩⟩ := hp <;> cases hd.symm.trans (hw ▸ hm)
  · rintro e m (⟨hs', -⟩ | hs' | ⟨v, page, hs', -⟩) <;> cases hs'

theorem again (hs : s.server = .unmap) : State.Ok { s.recv fs (s.envs fs).mode true with server := .recv } := by
  have hno : ∀ e n, ¬ s.Serving e n := by
    rintro e n (⟨hs', -⟩ | hs' | ⟨v, page, hs', -⟩) <;> cases hs.symm.trans hs'
  have hfs : (s.recv fs (s.envs fs).mode true).envs fs = { s.envs fs with recving := true, wants := true } := set_self ..
  refine h.of_not_serving (fun e he => set_of_ne _ _ he) ?_ (fun _ => rfl) (h.not_pending hno) ?_ rfl rfl
  · exact ⟨(congrArg Env.mode hfs).trans h.self.1, congrArg Env.wants hfs⟩
  · rintro e n (⟨-, hr', -⟩ | hs' | ⟨v, page, hs', -⟩)
    · cases (congrArg Env.recving hfs).symm.trans hr'
    · cases hs'
    · cases hs'

end

end State.Ok

theorem Step.ok (h : Step a s t) (hok : s.Ok) (hq : a.Quiet s) : t.Ok := by
  cases h with
  | userSend _ _ _ hr => exact hok.userSend hr hq
  | userRecv he _ _ => exact hok.set he (.of_user (.inl rfl))
  | fsipc he hm hr =>
    refine hok.set he ⟨fun _ => hr, nofun, fun n d hp => ?_, nofun, fun n d hb => ?_, nofun⟩
    · rcases hp with hp | ⟨hp, -⟩ <;> cases hp
    · rcases hb with hb | hb <;> cases hb
  | request hm hr => exact hok.request hm hr
  | recv hm => exact hok.recv hm
  | ret hm hr => exact hok.set (hok.ne_fs hm nofun) (.of_user (.inl rfl))
  | take hs hr => exact hok.take hs hr
  | handled hs => exact hok.handled hs
  | reply hs hr => exact hok.reply hs hr
  | replyPanic hs hd => exact hok.replyPanic hs hd
  | again hs => exact hok.again hs
  | die he => exact hok.set he (.of_user (.inr rfl))
  | born he hm => exact hok.set he (.of_user (.inl rfl))

theorem QuietRuns.ok (h : QuietRuns s t) (hok : s.Ok) : t.Ok := by
  induction h with
  | refl => exact hok
  | tail _ hstep ih =>
    obtain ⟨a, hq, hstep⟩ := hstep
    exact hstep.ok ih hq

theorem QuietRuns.runs (h : QuietRuns s t) : Runs s t := by
  induction h with
  | refl => exact .refl
  | tail _ hstep ih =>
    obtain ⟨a, -, hstep⟩ := hstep
    exact ih.tail ⟨a, hstep⟩

/-- If nobody else sends to an environment that waits in `fsipc`, what it gets
is the answer to its own request. -/
theorem fsipc_returns_answer (hs : s.Start) (h : QuietRuns s t) : t.Answered :=
  (h.ok hs.ok).answered

def booted : State :=
  ⟨fun e => if e = fs then ⟨.user, true, true, 0, 0, none⟩ else if e < 3 then ⟨.user, false, false, 0, 0, none⟩
    else ⟨.dead, false, false, 0, 0, none⟩, .recv, none, 0, fun _ => none⟩

theorem booted_start : booted.Start := by
  refine ⟨⟨rfl, rfl, rfl⟩, fun e => ?_, rfl⟩
  unfold booted
  dsimp only
  split
  · exact .inl rfl
  · split
    · exact .inl rfl
    · exact .inr rfl

def asked : State := ((booted.setMode 1 (.sending 3 false)).request 1 3 false 9).recv 1 (.waiting 0 false) false

theorem booted_asked : QuietRuns booted asked := by
  have h₁ : Step (.fsipc 1 3 false) booted (booted.setMode 1 (.sending 3 false)) := .fsipc (by decide) rfl rfl
  have h₂ : Step (.request 1 9) _ ((booted.setMode 1 (.sending 3 false)).request 1 3 false 9) := .request rfl rfl
  have h₃ : Step (.recv 1) _ asked := .recv rfl
  exact .head ⟨.fsipc 1 3 false, trivial, h₁⟩ (.head ⟨.request 1 9, trivial, h₂⟩ (.single ⟨.recv 1, trivial, h₃⟩))

/-- The server takes the request and answers 5. -/
theorem fsipc_returns_answer_five : ∃ t, QuietRuns booted t ∧ t.Answered ∧ (t.envs 1).mode = .waiting 0 false ∧
    (t.envs 1).recving = false ∧ (t.envs 1).value = 5 := by
  have h₁ : Step .take asked { asked with server := .handle 1 (some 0) } := .take rfl rfl
  have h₂ : Step (.handled 5 none) _ (State.handled { asked with server := .handle 1 (some 0) } 1 (some 0) 5 none) :=
    .handled rfl
  have h₃ := Step.reply (s := State.handled { asked with server := .handle 1 (some 0) } 1 (some 0) 5 none) rfl rfl
  have hruns := ((booted_asked.tail ⟨.take, trivial, h₁⟩).tail ⟨.handled 5 none, trivial, h₂⟩).tail ⟨.reply, trivial, h₃⟩
  exact ⟨_, hruns, fsipc_returns_answer booted_start hruns, rfl, rfl, rfl⟩

/-- Environment 2 sends 7 to environment 1 while that waits for the file
server, and `fsipc` returns 7. -/
theorem third_party_reply : ∃ t, booted.Start ∧ Runs booted t ∧ ¬ t.Answered := by
  have hlift : Runs booted asked := booted_asked.runs
  have hsend : Step (.userSend 2 1 7 none) asked _ := .userSend (by decide) rfl rfl rfl
  refine ⟨_, booted_start, hlift.tail ⟨_, hsend⟩, fun h => ?_⟩
  obtain ⟨-, page, ha, -⟩ := h 1 0 false rfl rfl
  cases ha

end Jos.Fsipc
