import Jos.Fs.Opens

/-!
# How often an entry can be opened (`fs/serv.c`)

`openfile_alloc` adds 1024 to the id of the entry it hands out and returns the
id as an `int`. After 2^21 - 1 opens of one entry the next id is negative,
which `serve_open` takes for an error.
-/

namespace Jos.Fs

open Lib

namespace History

/-- The histories in which entry `i` has been handed out `n i` times. -/
inductive Uses (mem : Mem) : History → (Nat → Nat) → Prop
  | start : Uses mem (initial mem) fun _ => 0
  | step : Uses mem h n → Step h h' →
      Uses mem h' fun i => if (h'.fs.opentab i).fileid ≠ (h.fs.opentab i).fileid then n i + 1 else n i

/-- Every history has such a count. -/
theorem Runs.uses (hr : Runs (initial mem) h) : ∃ n, Uses mem h n := by
  induction hr with
  | refl => exact ⟨_, .start⟩
  | tail _ hs ih =>
    obtain ⟨n, hn⟩ := ih
    exact ⟨_, hn.step hs⟩

def Allocates (h : History) : Prop :=
  ∃ i t, exec openfileAlloc h.fs = (.ok (.ok i), t) ∧ 0 ≤ (t.opentab i).fileid.toInt

/-! ## The ids count -/

theorem serveOpen_fileid (hx : exec serveOpen s = (.ok r, t)) (i : Nat) :
    (t.opentab i).fileid = (s.opentab i).fileid ∨ (t.opentab i).fileid = (s.opentab i).fileid + 1024#32 := by
  obtain ⟨-, heq⟩ | ⟨j, ht, -⟩ := (serveOpen_effect s).ok hx
  · exact .inl (by rw [heq])
  · by_cases hij : i = j
    · exact .inr (hij ▸ ht.fileid)
    · exact .inl (by rw [ht.others i hij])

theorem Step.fileid (hs : Step h h') (i : Nat) : (h'.fs.opentab i).fileid = (h.fs.opentab i).fileid ∨
    (h'.fs.opentab i).fileid = (h.fs.opentab i).fileid + 1024#32 := by
  cases hs with
  | openFails hx | openSent hx | openUnsent hx => exact serveOpen_fileid hx i
  | share | unshare | last | arrive | finish => exact .inl rfl
  | other ht => exact .inl (ht i).1

theorem Uses.fileid (hu : Uses mem h n) (i : Nat) :
    (h.fs.opentab i).fileid = BitVec.ofNat 32 i + 1024#32 * BitVec.ofNat 32 (n i) := by
  induction hu with
  | start => simp [initial]
  | step _ hs ih =>
    dsimp only
    split
    · rename_i hne
      obtain heq | heq := hs.fileid i
      · exact absurd heq hne
      · rw [heq, ih, BitVec.ofNat_add, BitVec.mul_add, BitVec.add_assoc]
        rfl
    · rename_i heq
      rw [not_not.mp heq]
      exact ih

theorem next_fileid_toInt (hi : i < maxopen) (n : Nat) :
    0 ≤ (BitVec.ofNat 32 i + 1024#32 * BitVec.ofNat 32 n + 1024#32).toInt ↔ (n + 1) % 2 ^ 22 < 2 ^ 21 := by
  have hnat : (BitVec.ofNat 32 i + 1024#32 * BitVec.ofNat 32 n + 1024#32).toNat = i + 1024 * ((n + 1) % 2 ^ 22) := by
    unfold maxopen at hi
    bv_omega
  unfold maxopen at hi
  rw [BitVec.toInt_eq_toNat_cond, hnat]
  split
  · omega
  · omega

theorem exec_openfileAlloc (hi : i < maxopen) (href : (s.opentab i).fdRef ≤ 1)
    (hfirst : ∀ j < i, 1 < (s.opentab j).fdRef) :
    ∃ t, exec openfileAlloc s = (.ok (.ok i), t) ∧ (t.opentab i).fileid = (s.opentab i).fileid + 1024#32 := by
  have hfind : (List.range maxopen).find? (fun i => (s.opentab i).fdRef ≤ 1) = some i := by
    rw [List.find?_range_eq_some]
    refine ⟨by simpa using href, by simpa using hi, fun j hj => ?_⟩
    have := hfirst j hj
    simp
    omega
  refine ⟨_, by simp only [openfileAlloc, exec_bind, exec_get, hfind, setOpen, exec_modify, exec_pure]; rfl, ?_⟩
  simp

/-- The first entry no client has open can be opened as long as its id fits an `int`. -/
theorem allocates_iff (hu : Uses mem h n) (hi : i < maxopen) (href : (h.fs.opentab i).fdRef ≤ 1)
    (hfirst : ∀ j < i, 1 < (h.fs.opentab j).fdRef) : h.Allocates ↔ (n i + 1) % 2 ^ 22 < 2 ^ 21 := by
  obtain ⟨t, hexec, hid⟩ := exec_openfileAlloc hi href hfirst
  rw [← next_fileid_toInt hi (n i), ← hu.fileid i, ← hid]
  constructor
  · rintro ⟨j, t', hexec', hpos⟩
    rw [hexec] at hexec'
    obtain ⟨hj, rfl⟩ := Prod.mk.inj hexec'
    obtain rfl := Except.ok.inj (Except.ok.inj hj)
    exact hpos
  · exact fun hpos => ⟨i, t, hexec, hpos⟩

/-- The first open. -/
theorem allocates_first : (initial fun _ => 0).Allocates :=
  (allocates_iff (i := 0) .start (by decide) (by decide) (by simp)).mpr (by decide)

/-! ## Opened and closed again and again -/

/-- Entry 0 has been handed out `m` times, and nobody has it open. -/
structure Round (h : History) (m : Nat) : Prop where
  mem : h.fs.mem = fun _ => 0
  fileid : (h.fs.opentab 0).fileid = BitVec.ofNat 32 (1024 * m)
  unused : (h.fs.opentab 0).fdRef ≤ 1
  clients : h.clients 0 = 0
  request : h.request = none

theorem Round.next (hr : Round h m) (hm : m + 1 < 2 ^ 21) : ∃ h', Runs h h' ∧ Round h' (m + 1) := by
  have hid : (h.fs.opentab 0).fileid + 1024#32 = BitVec.ofNat 32 (1024 * (m + 1)) := by
    rw [hr.fileid, Nat.mul_add, BitVec.ofNat_add]
  have hpos : 0 ≤ ((h.fs.opentab 0).fileid + 1024#32).toInt := by
    rw [hid, BitVec.toInt_eq_toNat_of_lt]
    · omega
    · bv_omega
  have hx := exec_serveOpen_root (s := h.fs) (by rw [hr.mem]) (by rw [hr.mem]; decide) hr.unused hpos
  have hclients : (h.afterOpen (openedRoot h.fs)).clients 0 = 0 := by
    simp [afterOpen, hr.clients]
  have hopen := Step.openSent hx
  have hlast : Step _ _ := .last (h := (((h.afterOpen (openedRoot h.fs)).setClients 0
    ((h.afterOpen (openedRoot h.fs)).clients 0 + 1)).addOpen 0 true).counted) (i := 0) (by
      simp [counted, addOpen, setClients, hclients])
  refine ⟨_, (Relation.ReflTransGen.single hopen).tail hlast, ?_, ?_, ?_, ?_, ?_⟩
  · exact hr.mem
  · simpa [counted, forget, setClients, addOpen, afterOpen, openedRoot] using hid
  · simp only [counted, pageref, forget, setClients, addOpen, afterOpen, Function.update_self, hr.request]
    split <;> simp
  · simp [counted, forget, setClients]
  · exact hr.request

theorem rounds (hm : m < 2 ^ 21) : ∃ h, Runs (initial fun _ => 0) h ∧ Round h m := by
  induction m with
  | zero => exact ⟨_, .refl, rfl, rfl, by decide, rfl, rfl⟩
  | succ m ih =>
    obtain ⟨h, hruns, hr⟩ := ih (by omega)
    obtain ⟨h', hruns', hr'⟩ := hr.next hm
    exact ⟨h', Relation.ReflTransGen.trans hruns hruns', hr'⟩

/-- Opened and closed 2^21 - 1 times, the entry is free and gets a negative id. -/
theorem open_wears_out : ∃ h, Runs (initial fun _ => 0) h ∧ (h.fs.opentab 0).fdRef ≤ 1 ∧ ¬ h.Allocates := by
  obtain ⟨h, hruns, hr⟩ := rounds (m := 2 ^ 21 - 1) (by decide)
  refine ⟨h, hruns, hr.unused, ?_⟩
  obtain ⟨t, hexec, hid⟩ := exec_openfileAlloc (s := h.fs) (i := 0) (by decide) hr.unused (by simp)
  rintro ⟨j, t', hexec', hpos⟩
  rw [hexec] at hexec'
  obtain ⟨hj, rfl⟩ := Prod.mk.inj hexec'
  obtain rfl := Except.ok.inj (Except.ok.inj hj)
  rw [hid, hr.fileid] at hpos
  exact absurd hpos (by decide)

end History

end Jos.Fs
