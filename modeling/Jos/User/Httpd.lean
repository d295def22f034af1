import Mathlib.Data.List.TakeWhile

/-!
# Requests of the web server (`user/httpd.c`)

The memory from `request` on is the list of its bytes up to the end of the
mapped pages.
-/

namespace Jos.Httpd

/-- `strncmp` and the number of bytes of `p` it reads. -/
def strncmp : Nat → List Char → List Char → Option (Int × Nat)
  | 0, _, _ => some (0, 0)
  | n + 1, p :: ps, q :: qs =>
    if p ≠ '\x00' ∧ p = q then (strncmp n ps qs).map fun (r, k) => (r, k + 1)
    else some ((p.toNat : Int) - q.toNat, 1)
  | _, _, _ => none

/-- `while (*request && *request != stop) request++`. -/
def skip (stop : Char) : List Char → Option (List Char × List Char)
  | [] => none
  | ch :: request =>
    if ch ≠ '\x00' ∧ ch ≠ stop then (skip stop request).map fun (text, rest) => (ch :: text, rest)
    else some ([], ch :: request)

inductive Result where
  | fault
  | badReq
  | ok (url version : List Char)
deriving DecidableEq

/-- The number of bytes read, and the result. `mallocUrl` and `mallocVersion`
say if `malloc` finds memory. `req` is not null, as in `handle_client`. -/
def httpRequestParse (mallocUrl mallocVersion : Bool) (request : List Char) : Nat × Result :=
  match strncmp 4 request "GET ".toList with
  | none => (request.length + 1, .fault)
  | some (r, k) =>
    if r ≠ 0 then (k, .badReq)
    else
      match skip ' ' (request.drop 4) with
      | none => (request.length + 1, .fault)
      | some (url, rest) =>
        if mallocUrl then
          match skip '\n' rest.tail with
          | none => (request.length + 1, .fault)
          | some (version, _) =>
            (4 + (url.length + 1) + (version.length + 1), if mallocVersion then .ok url version else .fault)
        else (4 + (url.length + 1), .fault)

/-- What is read of the request `s`, and what of it is returned. -/
def Inside (s : List Char) : Nat × Result → Prop
  | (reads, r) => reads ≤ s.length + 1 ∧ ∀ url version, r = .ok url version →
    url = (s.drop 4).takeWhile (· ≠ ' ') ∧ version = ((s.drop 4).dropWhile (· ≠ ' ')).tail.takeWhile (· ≠ '\n')

theorem skip_eq (stop : Char) (h : '\x00' ∉ s) (rest : List Char) : skip stop (s ++ '\x00' :: rest) =
    some (s.takeWhile (· ≠ stop), s.dropWhile (· ≠ stop) ++ '\x00' :: rest) := by
  induction s with
  | nil => simp [skip]
  | cons ch s ih =>
    obtain ⟨hch, hs⟩ := not_or.1 (mt List.mem_cons.2 h)
    by_cases hstop : ch = stop
    · simp [skip, hstop]
    · simp [skip, hstop, Ne.symm hch, ih hs]

theorem takeWhile_ne {c : Char} (h : c ∉ u) (v : List Char) :
    (u ++ c :: v).takeWhile (· ≠ c) = u ∧ (u ++ c :: v).dropWhile (· ≠ c) = c :: v := by
  have hne : ∀ x ∈ u, decide (x ≠ c) = true := fun x hx => decide_eq_true fun heq => h (heq ▸ hx)
  rw [List.takeWhile_append_of_pos hne, List.dropWhile_append_of_pos hne]
  simp

theorem strncmp_eq (h : '\x00' ∉ s) (h' : '\x00' ∉ q) : ∃ r k,
    strncmp q.length (s ++ '\x00' :: rest) q = some (r, k) ∧ k ≤ s.length + 1 ∧ (r = 0 ↔ q <+: s) := by
  induction q generalizing s with
  | nil => exact ⟨0, 0, rfl, by omega, by simp⟩
  | cons ch q ih =>
    obtain ⟨hch, hq⟩ := not_or.1 (mt List.mem_cons.2 h')
    have hdiff : ∀ c ps, c ≠ ch → ∃ r, strncmp (q.length + 1) (c :: ps) (ch :: q) = some (r, 1) ∧ r ≠ 0 := by
      intro c ps hne
      exact ⟨_, if_neg fun h => hne h.2, fun h => hne (Char.toNat_inj.1 (by omega))⟩
    cases s with
    | nil =>
      obtain ⟨r, hr, hne⟩ := hdiff '\x00' rest hch
      exact ⟨r, 1, hr, Nat.le_refl _, by simp [hne]⟩
    | cons c s =>
      obtain ⟨hc, hs⟩ := not_or.1 (mt List.mem_cons.2 h)
      by_cases heq : c = ch
      · obtain ⟨r, k, hr, hk, hiff⟩ := ih hs hq
        exact ⟨r, k + 1, by simp [strncmp, Ne.symm hc, ← heq, hr], Nat.succ_le_succ hk, by simp [hiff, heq]⟩
      · obtain ⟨r, hr, hne⟩ := hdiff c (s ++ '\x00' :: rest) heq
        exact ⟨r, 1, hr, by simp, by simp [hne, Ne.symm heq]⟩

/-- A `GET` without a space after the address is read on behind its end. -/
theorem httpRequestParse_inside_iff (mallocUrl mallocVersion : Bool) (rest : List Char) (h : '\x00' ∉ s) :
    Inside s (httpRequestParse mallocUrl mallocVersion (s ++ '\x00' :: rest)) ↔
      ¬"GET ".toList <+: s ∨ ' ' ∈ s.drop 4 ∨ mallocUrl = false := by
  obtain ⟨r, k, hr, hk, hget⟩ := @strncmp_eq s "GET ".toList rest h (by decide)
  change strncmp 4 _ _ = _ at hr
  by_cases hzero : r = 0
  · obtain ⟨s, rfl⟩ := hget.1 hzero
    have hs : '\x00' ∉ s := fun hs => h (List.mem_append_right _ hs)
    have hdrop : ∀ l, ("GET ".toList ++ l).drop 4 = l := fun _ => rfl
    have hlen : ∀ l, ("GET ".toList ++ l).length = l.length + 4 := fun _ => rfl
    rw [List.append_assoc] at hr ⊢
    simp only [httpRequestParse, hr, hzero, ne_self_iff_false, if_false, hdrop, skip_eq ' ' hs, List.prefix_append,
      not_true, false_or, Inside, hlen]
    cases mallocUrl with
    | false =>
      have hle := (List.takeWhile_sublist (· ≠ ' ') (l := s)).length_le
      simp only [Bool.false_eq_true, if_false, or_true, iff_true]
      exact ⟨by omega, fun _ _ hok => by cases hok⟩
    | true =>
      simp only [if_true, Bool.true_eq_false, or_false]
      by_cases hsp : ' ' ∈ s
      · obtain ⟨u, v, rfl, hu⟩ := List.eq_append_cons_of_mem hsp
        obtain ⟨htake, hdropW⟩ := takeWhile_ne hu v
        have hv : '\x00' ∉ v := fun hv => hs (by simp [hv])
        have hle := (List.takeWhile_sublist (· ≠ '\n') (l := v)).length_le
        simp only [htake, hdropW, List.cons_append, List.tail_cons, skip_eq '\n' hv, hsp, iff_true, List.length_append,
          List.length_cons]
        refine ⟨by omega, fun url version hok => ?_⟩
        cases mallocVersion with
        | false => cases hok
        | true => exact (Result.ok.inj hok).imp Eq.symm Eq.symm
      · simp only [hsp, iff_false]
        rintro ⟨hle, -⟩
        have hall : s.takeWhile (· ≠ ' ') = s := List.takeWhile_eq_self_iff.2 fun x hx =>
          decide_eq_true fun heq => hsp (heq ▸ hx)
        rw [hall] at hle
        split at hle
        · rw [List.length_append, List.length_cons] at hle
          omega
        · dsimp only at hle
          omega
  · have hno : ¬"GET ".toList <+: s := mt hget.2 hzero
    simp only [httpRequestParse, hr, ne_eq, hzero, not_false_eq_true, if_true, Inside, hk, hno, true_or, true_and,
      iff_true]
    intro _ _ hok
    cases hok

theorem httpRequestParse_inside_root :
    Inside "GET / HTTP/1.0\n".toList (httpRequestParse true true ("GET / HTTP/1.0\n".toList ++ '\x00' :: [])) :=
  (httpRequestParse_inside_iff true true [] (by decide)).2 (.inr (.inl (by decide)))

/-- The version of the request `GET /` is what stands behind it in the buffer. -/
theorem reads_behind_request : httpRequestParse true true ("GET /".toList ++ '\x00' :: "old\n".toList) =
    (10, .ok "/".toList "old".toList) := by
  decide

end Jos.Httpd
